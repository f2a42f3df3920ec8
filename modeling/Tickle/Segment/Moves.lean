import Tickle.Segment.Owned

/-! # Moves of the ring

What one slot's change, a step of `write_index` and a step of `read_index` each leave of the invariant.
-/

namespace Tickle

namespace Segment

namespace Ring

variable {δ : Type} {g : Geometry} {s s' : Ring δ} {q b m j w c i : Nat}

variable (g) in
/-- Only the slot `q` changes, whose sequence was `b + m`. -/
structure Touch (s s' : Ring δ) (q b m : Nat) : Prop where
  write : s'.writeIndex = s.writeIndex
  read : s'.readIndex = s.readIndex
  others : ∀ p, p ≠ q → s'.sequence p = s.sequence p ∧ s'.owner p = s.owner p ∧ s'.cell p = s.cell p
  value : s.sequence q = b + m
  here : g.pos b = q
  small : m < 4
  claimed : m = 0 → b < s.writeIndex
  passed : 2 ≤ m → b = s.writeIndex → s'.Passed g b

namespace Touch

variable (t : Touch g s s' q b m)

include t

theorem sequence_at (there : g.pos i = q) (n : Nat) (hn : n < 4) (read : s.sequence (g.pos i) = i + n) :
    b = i ∧ m = n := by
  rw [there, t.value] at read
  exact Geometry.phase_unique (t.here.trans there.symm) read t.small hn

theorem fits (h : ∀ p < g.slots, s.Fits g p) (here : s'.Fits g q)
    (referred : ∀ p r j, p ≠ q → s.owner p = .unread → s.sequence p = r + 1 → g.pos r = p →
      s.owner q = .referred r j → s'.owner q = .referred r j)
    (reading : ∀ p < g.slots, p ≠ q → s.owner p = .reading → s'.reader = s.reader) : ∀ p < g.slots, s'.Fits g p := by
  intro p below
  by_cases same : p = q
  · exact same ▸ here
  · obtain ⟨b', m', value, place, state⟩ := h p below
    obtain ⟨sequence', owner', cell'⟩ := t.others p same
    refine ⟨b', m', sequence'.trans value, place, ?_⟩
    rw [owner']
    apply state.carry t.write.ge t.read.ge
    · intro _ ahead
      rwa [t.write]
    · intro lap
      rwa [t.write]
    · intro _ behind _
      rwa [t.read]
    · intro unread j target ref
      rw [place, cell'] at ref
      rw [place] at target
      have one : m' = 1 := by
        rw [unread] at state
        exact state.1
      by_cases there : g.pos j = q
      · rw [there] at target ⊢
        exact referred p b' j same unread (by rw [value, one]) place (target ref)
      · rw [(t.others _ there).2.1]
        exact target ref
    · intro read
      exact ⟨t.read, reading p below same read⟩

theorem writer {pc : WriterPc δ} (h : s.WriterFits g w pc)
    (claims : (s'.writers w).claims = (s.writers w).claims)
    (lent : ∀ j, s.owner q = .lent w j → j ∉ (s.writers w).claims →
      s'.owner q = .lent w j ∧ s'.cell q = s.cell q)
    (filling : s.owner q ≠ .filling w) : s'.WriterFits g w pc := by
  apply h.carry t.write.ge t.read.ge
  · intro _ free
    by_cases there : g.pos s.writeIndex = q
    · obtain ⟨rfl, zero⟩ := t.sequence_at there 0 (by omega) free
      have := t.claimed zero
      omega
    · rw [(t.others _ there).1]
      exact free
  · intro _ pass
    by_cases there : g.pos s.writeIndex = q
    · rcases pass with two | three | given
      · obtain ⟨here, phase⟩ := t.sequence_at there 2 (by omega) two
        exact here ▸ t.passed (by omega) here
      · obtain ⟨here, phase⟩ := t.sequence_at there 3 (by omega) three
        exact here ▸ t.passed (by omega) here
      · have lap : g.pos (s.writeIndex + g.slots) = q := by rw [Geometry.pos_add_slots, there]
        obtain ⟨here, phase⟩ := t.sequence_at lap 0 (by omega) (by rw [Geometry.pos_add_slots]; exact given)
        have := t.claimed phase
        omega
    · unfold Passed
      rw [(t.others _ there).1]
      exact pass
  · intro j returned
    by_cases there : g.pos j = q
    · obtain ⟨owner', cell'⟩ := lent j (there ▸ returned.1) returned.2
      rw [Returned, there, claims]
      exact ⟨⟨owner', returned.2⟩, cell'⟩
    · obtain ⟨_, owner', cell'⟩ := t.others _ there
      rw [Returned, claims, owner']
      exact ⟨returned, cell'⟩
  · intro p own
    have apart : p ≠ q := by
      rintro rfl
      exact filling own
    obtain ⟨sequence', owner', cell'⟩ := t.others p apart
    exact ⟨owner'.trans own, sequence', cell'⟩

/-- For a step that is not the reader's. -/
theorem reader {pc : ReaderPc} (h : s.ReaderFits g pc) (upper : s.writeIndex ≤ s.readIndex + g.slots) (one : m ≠ 1)
    (head : m = 3 → b = s.readIndex → s'.PassedHead g) (reading : s.owner q ≠ .reading)
    (referring : ∀ j, s.owner q = .referring j → s'.owner q = .referring j) : s'.ReaderFits g pc := by
  have released : g.pos s.readIndex = q → s.sequence (g.pos s.readIndex) ≠ s.readIndex + g.slots := by
    intro there given
    have lap : g.pos (s.readIndex + g.slots) = q := by rw [Geometry.pos_add_slots, there]
    obtain ⟨here, phase⟩ := t.sequence_at lap 0 (by omega) (by rw [Geometry.pos_add_slots]; exact given)
    have := t.claimed phase
    omega
  apply h.carry t.write.ge t.read
  · intro unread
    by_cases there : g.pos s.readIndex = q
    · exact absurd (t.sequence_at there 1 (by omega) unread).2 one
    · rw [(t.others _ there).1]
      exact unread
  · intro pass
    by_cases there : g.pos s.readIndex = q
    · rcases pass with three | given
      · obtain ⟨here, phase⟩ := t.sequence_at there 3 (by omega) three
        exact head phase here
      · exact absurd given (released there)
    · unfold PassedHead
      rw [t.read, (t.others _ there).1]
      exact pass
  · intro given
    by_cases there : g.pos s.readIndex = q
    · exact absurd given (released there)
    · rw [(t.others _ there).1]
      exact given
  · intro p own
    have apart : p ≠ q := by
      rintro rfl
      exact reading own
    obtain ⟨sequence', owner', _⟩ := t.others p apart
    exact ⟨owner'.trans own, sequence'⟩
  · intro p j own
    by_cases there : p = q
    · rw [there] at own ⊢
      exact referring j own
    · rw [(t.others p there).2.1]
      exact own

/-- A slot's change by the writer `w`. -/
theorem byWriter (h : s.Owned g) (same : s'.reader = s.reader) (kept : s'.retained = s.retained)
    (writers : ∀ v, v ≠ w → s'.writers v = s.writers v) (here : s'.Fits g q)
    (own : s.owner q = .filling w ∨ (∃ j, s.owner q = .lent w j) ∨
      2 ≤ m ∧ s'.owner q = s.owner q ∧ s'.cell q = s.cell q)
    (head : m = 3 → b = s.readIndex → s'.PassedHead g)
    (pc : s'.WriterFits g w (s'.writers w).pc)
    (claims : ∀ j ∈ (s'.writers w).claims, s'.owner (g.pos j) = .lent w j)
    (once : (s'.writers w).claims.Nodup) : s'.Owned g := by
  have state : s.State g b m (s.owner q) := (h.fits q (t.here ▸ g.pos_lt b)).state t.value t.here t.small
  have one : m ≠ 1 := by
    rcases own with filling | ⟨j, lent⟩ | ⟨two, _⟩
    · rw [filling] at state
      have := state.1
      omega
    · rw [lent] at state
      have := state.1.phase
      omega
    · omega
  have off : ∀ v, v ≠ w → s.owner q ≠ .filling v := by
    intro v other filling
    rcases own with filling' | ⟨j, lent⟩ | ⟨two, _⟩
    · rw [filling'] at filling
      cases filling
      exact other rfl
    · rw [lent] at filling
      cases filling
    · rw [filling] at state
      have := state.1
      omega
  have lent : ∀ v j, v ≠ w → s.owner q = .lent v j → s'.owner q = .lent v j ∧ s'.cell q = s.cell q := by
    intro v j other lent
    rcases own with filling | ⟨j', lent'⟩ | ⟨_, owner', cell'⟩
    · rw [filling] at lent
      cases lent
    · rw [lent'] at lent
      cases lent
      exact absurd rfl other
    · exact ⟨owner'.trans lent, cell'⟩
  have stays : ∀ o, s.owner q = o → (∀ v, o ≠ .filling v) → (∀ v j, o ≠ .lent v j) → s'.owner q = o := by
    intro o who filling lent
    rcases own with filling' | ⟨j, lent'⟩ | ⟨_, owner', _⟩
    · exact absurd (who.symm.trans filling') (filling w)
    · exact absurd (who.symm.trans lent') (lent w j)
    · exact owner'.trans who
  refine ⟨?_, ?_, ?_, ?_, ?_, ?_, ?_, ?_, ?_⟩
  · rw [t.write, t.read]
    exact h.lower
  · rw [t.write, t.read]
    exact h.upper
  · apply t.fits h.fits here
    · intro p r j _ _ _ _ who
      exact stays _ who (by simp) (by simp)
    · intros
      exact same
  · intro v
    by_cases other : v = w
    · exact other ▸ pc
    · rw [writers v other]
      exact t.writer (h.writer v) (by rw [writers v other]) (fun j who _ => lent v j other who) (off v other)
  · rw [same]
    apply t.reader h.reader h.upper one head
    · intro who
      rw [who] at state
      exact one state.1
    · intro j who
      exact stays _ who (by simp) (by simp)
  · intro v j mem
    by_cases other : v = w
    · rw [other] at mem ⊢
      exact claims j mem
    · rw [writers v other] at mem
      have who := h.claims v j mem
      by_cases there : g.pos j = q
      · rw [there] at who ⊢
        exact (lent v j other who).1
      · exact (t.others _ there).2.1.trans who
  · intro v
    by_cases other : v = w
    · rw [other]
      exact once
    · rw [writers v other]
      exact h.once v
  · intro j mem
    rw [kept] at mem
    have who := h.retained j mem
    by_cases there : g.pos j = q
    · rw [there] at who ⊢
      exact stays _ who (by simp) (by simp)
    · exact (t.others _ there).2.1.trans who
  · rw [kept]
    exact h.retained_once

/-- A slot's change by the reader, or by a release. -/
theorem byReader (h : s.Owned g) (writers : s'.writers = s.writers) (here : s'.Fits g q)
    (filling : ∀ v, s.owner q ≠ .filling v)
    (lent : ∀ v j, s.owner q = .lent v j → s'.owner q = .lent v j ∧ s'.cell q = s.cell q)
    (referred : ∀ p r j, p ≠ q → s.owner p = .unread → s.sequence p = r + 1 → g.pos r = p →
      s.owner q = .referred r j → s'.owner q = .referred r j)
    (reading : ∀ p < g.slots, p ≠ q → s.owner p = .reading → s'.reader = s.reader)
    (pc : s'.ReaderFits g s'.reader) (retained : ∀ j ∈ s'.retained, s'.owner (g.pos j) = .kept j)
    (once : s'.retained.Nodup) : s'.Owned g where
  lower := by
    rw [t.write, t.read]
    exact h.lower
  upper := by
    rw [t.write, t.read]
    exact h.upper
  fits := t.fits h.fits here referred reading
  writer := by
    intro v
    rw [writers]
    exact t.writer (h.writer v) (by rw [writers]) (fun j who _ => lent v j who) (filling v)
  reader := pc
  claims := by
    intro v j mem
    rw [writers] at mem
    have who := h.claims v j mem
    by_cases there : g.pos j = q
    · rw [there] at who ⊢
      exact (lent v j who).1
    · exact (t.others _ there).2.1.trans who
  once := by
    rw [writers]
    exact h.once
  retained := retained
  retained_once := once

end Touch

theorem Owned.state (h : s.Owned g) (value : s.sequence (g.pos b) = b + m) (small : m < 4) :
    s.State g b m (s.owner (g.pos b)) :=
  (h.fits _ (g.pos_lt b)).state value rfl small

/-- No slot is being read but by the reader. -/
theorem Owned.unless_reading (h : s.Owned g) (pc : ∀ b, s.reader ≠ .reading b) {p : Nat} (below : p < g.slots) :
    s.owner p ≠ .reading := by
  intro who
  obtain ⟨b, m, _, _, state⟩ := h.fits p below
  rw [who] at state
  exact pc b state.2.2.2

theorem Fits.same {p : Nat} (h : s.Fits g p) (write : s'.writeIndex = s.writeIndex) (read : s'.readIndex = s.readIndex)
    (sequence : s'.sequence = s.sequence) (cell : s'.cell = s.cell) (owner : s'.owner = s.owner)
    (reader : s'.reader = s.reader) : s'.Fits g p := by
  obtain ⟨b, m, value, place, state⟩ := h
  refine ⟨b, m, by rw [sequence]; exact value, place, ?_⟩
  rw [owner]
  apply state.carry write.ge read.ge
  · intro _ ahead
    rwa [write]
  · intro lap
    rwa [write]
  · intro _ behind _
    rwa [read]
  · intro _ j target ref
    rw [cell] at ref
    rw [owner]
    exact target ref
  · exact fun _ => ⟨read, reader⟩

theorem Owned.setPc (h : s.Owned g) (pc : WriterPc δ) (fits : s.WriterFits g w pc) : (s.setPc w pc).Owned g := by
  have claims : ∀ v, ((s.setPc w pc).writers v).claims = (s.writers v).claims := by
    intro v
    by_cases same : v = w
    · subst same
      simp [Ring.setPc]
    · simp [Ring.setPc, same]
  have carried : ∀ v (pc' : WriterPc δ), s.WriterFits g v pc' → (s.setPc w pc).WriterFits g v pc' := by
    intro v pc' fits
    apply WriterFits.carry fits
    · exact Nat.le_refl s.writeIndex
    · exact Nat.le_refl s.readIndex
    · exact fun _ free => free
    · exact fun _ pass => pass
    · intro j returned
      refine ⟨?_, rfl⟩
      unfold Returned
      rw [claims v]
      exact returned
    · exact fun _ own => ⟨own, rfl, rfl⟩
  refine ⟨h.lower, h.upper, ?_, ?_, ?_, ?_, ?_, h.retained, h.retained_once⟩
  · exact fun p below => (h.fits p below).same rfl rfl rfl rfl rfl rfl
  · intro v
    apply carried
    by_cases same : v = w
    · subst same
      simpa [Ring.setPc] using fits
    · simpa [Ring.setPc, same] using h.writer v
  · have unmoved : (s.setPc w pc).readIndex = s.readIndex := rfl
    exact h.reader.carry (le_refl _) unmoved id id id (fun _ own => ⟨own, rfl⟩) (fun _ _ own => own)
  · intro v j mem
    rw [claims v] at mem
    exact h.claims v j mem
  · intro v
    rw [claims v]
    exact h.once v

/-- The slot at `write_index` is free when its sequence says so. -/
theorem Owned.free (h : s.Owned g) (value : s.sequence (g.pos s.writeIndex) = s.writeIndex) :
    s.owner (g.pos s.writeIndex) = .free := by
  have state := h.state (m := 0) value (by omega)
  cases who : s.owner (g.pos s.writeIndex) with
  | free => rfl
  | filling w =>
    rw [who] at state
    have := state.2.2
    omega
  | unread | reading =>
    rw [who] at state
    exact absurd state.1 (by omega)
  | lent w j | referred r j | referring j =>
    rw [who] at state
    exact absurd state.1.phase (by omega)
  | kept j =>
    rw [who] at state
    exact absurd state.phase (by omega)

variable (g) in
/-- `write_index` moves past a slot that is not free, or past one that is taken with it. -/
structure Next (s s' : Ring δ) : Prop where
  write : s'.writeIndex = s.writeIndex + 1
  room : s.writeIndex < s.readIndex + g.slots
  read : s'.readIndex = s.readIndex
  sequence : s'.sequence = s.sequence
  cell : s'.cell = s.cell
  others : ∀ p, p ≠ g.pos s.writeIndex → s'.owner p = s.owner p
  change : s.Passed g s.writeIndex ∧ s'.owner (g.pos s.writeIndex) = s.owner (g.pos s.writeIndex) ∨
    s.sequence (g.pos s.writeIndex) = s.writeIndex ∧ ∃ w, s'.owner (g.pos s.writeIndex) = .filling w

namespace Next

variable (t : Next g s s')

include t

theorem owner (h : s.Owned g) (p : Nat) : s'.owner p = s.owner p ∨
    p = g.pos s.writeIndex ∧ s.owner p = .free := by
  by_cases here : p = g.pos s.writeIndex
  · rcases t.change with ⟨_, same⟩ | ⟨value, _⟩
    · rw [here]
      exact .inl same
    · rw [here]
      exact .inr ⟨rfl, h.free value⟩
  · exact .inl (t.others p here)

theorem stays (h : s.Owned g) {p : Nat} {o : Owner} (who : s.owner p = o) (taken : o ≠ .free) : s'.owner p = o := by
  rcases t.owner h p with same | ⟨_, free⟩
  · exact same.trans who
  · exact absurd (who.symm.trans free) taken

theorem fits (h : s.Owned g) (reading : s'.reader = s.reader ∨ ∀ b, s.reader ≠ .reading b) :
    ∀ p < g.slots, s'.Fits g p := by
  intro p below
  have four := g.four_le_slots
  obtain ⟨b, m, value, place, state⟩ := h.fits p below
  have claimed : p = g.pos s.writeIndex ∧ s'.owner p ≠ s.owner p → s'.Fits g p := by
    rintro ⟨rfl, differs⟩
    rcases t.change with ⟨_, same⟩ | ⟨value, w, filling⟩
    · exact absurd same differs
    · refine ⟨s.writeIndex, 0, by rw [t.sequence]; exact value, rfl, ?_⟩
      rw [filling]
      exact ⟨rfl, by rw [t.read]; exact h.lower, by rw [t.write]; omega⟩
  by_cases same : s'.owner p = s.owner p
  · refine ⟨b, m, by rw [t.sequence]; exact value, place, ?_⟩
    have off : (m = 0 → b ≠ s.writeIndex) ∧ b + g.slots ≠ s.writeIndex := by
      by_cases here : p = g.pos s.writeIndex
      · have passed : s.Passed g s.writeIndex := by
          rcases t.change with ⟨passed, _⟩ | ⟨free, w, filling⟩
          · exact passed
          · rw [← here, same, here, h.free free] at filling
            cases filling
        have there : g.pos b = g.pos s.writeIndex := place.trans here
        rw [here] at value
        rcases passed with two | three | given
        · have := Geometry.phase_unique there (value.symm.trans two) state.phase_lt (by omega)
          omega
        · have := Geometry.phase_unique there (value.symm.trans three) state.phase_lt (by omega)
          omega
        · have lap : g.pos b = g.pos (s.writeIndex + g.slots) := by rw [Geometry.pos_add_slots, there]
          have := Geometry.phase_unique lap (value.symm.trans given) state.phase_lt (show 0 < 4 by omega)
          omega
      · refine ⟨?_, ?_⟩
        · rintro _ rfl
          exact here place.symm
        · intro lap
          apply here
          rw [← lap, Geometry.pos_add_slots, place]
    rw [same]
    apply state.carry (by rw [t.write]; omega) t.read.ge
    · intro zero ahead
      have := off.1 zero
      rw [t.write]
      omega
    · intro lap
      have := off.2
      rw [t.write]
      omega
    · intro _ behind _
      rwa [t.read]
    · intro _ j target ref
      rw [t.cell] at ref
      exact t.stays h (target ref) (by simp)
    · intro who
      rcases reading with unchanged | none
      · exact ⟨t.read, unchanged⟩
      · exact absurd who (h.unless_reading none below)
  · rcases t.owner h p with unchanged | ⟨here, _⟩
    · exact absurd unchanged same
    · exact claimed ⟨here, same⟩

theorem owned (h : s.Owned g) (writers : s'.writers = s.writers) (retained : s'.retained = s.retained)
    (reader : s'.reader = s.reader ∨ (∀ b, s.reader ≠ .reading b) ∧ s'.ReaderFits g s'.reader) : s'.Owned g where
  lower := by
    rw [t.write, t.read]
    exact h.lower.trans (by omega)
  upper := by
    rw [t.write, t.read]
    exact t.room
  fits := t.fits h (reader.imp_right fun changed => changed.1)
  writer := by
    intro v
    rw [writers]
    apply (h.writer v).carry (by rw [t.write]; omega) t.read.ge
    · intro same
      have := t.write
      omega
    · intro same
      have := t.write
      omega
    · intro j returned
      refine ⟨⟨t.stays h returned.1 (by simp), ?_⟩, by rw [t.cell]⟩
      rw [writers]
      exact returned.2
    · intro p own
      exact ⟨t.stays h own (by simp), by rw [t.sequence], by rw [t.cell]⟩
  reader := by
    rcases reader with same | ⟨_, fits⟩
    · rw [same]
      apply h.reader.carry (by rw [t.write]; omega) t.read
      · intro unread
        rwa [t.sequence]
      · intro pass
        rwa [PassedHead, t.sequence, t.read]
      · intro given
        rwa [t.sequence]
      · exact fun p own => ⟨t.stays h own (by simp), by rw [t.sequence]⟩
      · exact fun p j own => t.stays h own (by simp)
    · exact fits
  claims := by
    intro v j mem
    rw [writers] at mem
    exact t.stays h (h.claims v j mem) (by simp)
  once := by
    rw [writers]
    exact h.once
  retained := by
    intro j mem
    rw [retained] at mem
    exact t.stays h (h.retained j mem) (by simp)
  retained_once := by
    rw [retained]
    exact h.retained_once

end Next

variable (g) in
/-- The reader moves `read_index` past its head: passed, given back, or taken to be read in place. -/
structure Past (s s' : Ring δ) : Prop where
  write : s'.writeIndex = s.writeIndex
  less : s.readIndex < s.writeIndex
  read : s'.readIndex = s.readIndex + 1
  sequence : s'.sequence = s.sequence
  cell : s'.cell = s.cell
  others : ∀ p, p ≠ g.pos s.readIndex → s'.owner p = s.owner p
  idle : ∀ b, s.reader ≠ .reading b
  change : s.PassedHead g ∧ s'.owner (g.pos s.readIndex) = s.owner (g.pos s.readIndex) ∨
    s.owner (g.pos s.readIndex) = .unread ∧ s.sequence (g.pos s.readIndex) = s.readIndex + 1 ∧
      s'.owner (g.pos s.readIndex) = .reading ∧ s'.reader = .reading s.readIndex

namespace Past

variable (t : Past g s s')

include t

theorem stays {p : Nat} {o : Owner} (who : s.owner p = o) (taken : o ≠ .unread) : s'.owner p = o := by
  by_cases here : p = g.pos s.readIndex
  · subst here
    rcases t.change with ⟨_, same⟩ | ⟨unread, _⟩
    · exact same.trans who
    · exact absurd (who.symm.trans unread) taken
  · exact (t.others p here).trans who

theorem fits (h : s.Owned g) : ∀ p < g.slots, s'.Fits g p := by
  intro p below
  have four := g.four_le_slots
  have less := t.less
  obtain ⟨b, m, value, place, state⟩ := h.fits p below
  have carried : (m < 3 → s.readIndex ≤ b → b ≤ s.writeIndex → s'.readIndex ≤ b) → s'.owner p = s.owner p →
      s'.Fits g p := by
    intro behind same
    refine ⟨b, m, by rw [t.sequence]; exact value, place, ?_⟩
    rw [same]
    apply state.carry t.write.ge (by rw [t.read]; omega)
    · intro _ ahead
      rwa [t.write]
    · intro lap
      rwa [t.write]
    · exact behind
    · intro _ j target ref
      rw [t.cell] at ref
      exact t.stays (target ref) (by simp)
    · exact fun who => absurd who (h.unless_reading t.idle below)
  by_cases here : p = g.pos s.readIndex
  · subst here
    rcases t.change with ⟨passed, same⟩ | ⟨unread, one, reading, pc⟩
    · apply carried _ same
      intro small _ _
      rw [t.read]
      rcases passed with three | given
      · have := Geometry.phase_unique place (value.symm.trans three) state.phase_lt (by omega)
        omega
      · have lap : g.pos b = g.pos (s.readIndex + g.slots) := by rw [Geometry.pos_add_slots, place]
        have := Geometry.phase_unique lap (value.symm.trans given) state.phase_lt (show 0 < 4 by omega)
        omega
    · refine ⟨s.readIndex, 1, by rw [t.sequence]; exact one, rfl, ?_⟩
      rw [reading]
      exact ⟨rfl, t.read.symm, by rw [t.write]; exact h.upper, pc⟩
  · apply carried _ (t.others p here)
    intro _ least _
    have : b ≠ s.readIndex := by
      rintro rfl
      exact here place.symm
    rw [t.read]
    omega

theorem owned (h : s.Owned g) (writers : s'.writers = s.writers) (retained : s'.retained = s.retained)
    (reader : s'.ReaderFits g s'.reader) : s'.Owned g where
  lower := by
    rw [t.write, t.read]
    exact t.less
  upper := by
    have := h.upper
    rw [t.write, t.read]
    omega
  fits := t.fits h
  writer := by
    intro v
    rw [writers]
    apply (h.writer v).carry t.write.ge (by rw [t.read]; omega)
    · intro _ free
      rwa [t.sequence]
    · intro _ pass
      rwa [Passed, t.sequence]
    · intro j returned
      refine ⟨⟨t.stays returned.1 (by simp), ?_⟩, by rw [t.cell]⟩
      rw [writers]
      exact returned.2
    · intro p own
      exact ⟨t.stays own (by simp), by rw [t.sequence], by rw [t.cell]⟩
  reader := reader
  claims := by
    intro v j mem
    rw [writers] at mem
    exact t.stays (h.claims v j mem) (by simp)
  once := by
    rw [writers]
    exact h.once
  retained := by
    intro j mem
    rw [retained] at mem
    exact t.stays (h.retained j mem) (by simp)
  retained_once := by
    rw [retained]
    exact h.retained_once

end Past

end Ring

end Segment

end Tickle
