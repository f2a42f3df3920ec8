import Tickle.Segment.Moves

/-! # The steps of a writer

Every timely step of a writer keeps the ring in order: one lemma for each.
-/

namespace Tickle

namespace Segment

namespace Ring

open Function

variable {δ : Type} {g : Geometry} {s s' : Ring δ} {q b m j w c i : Nat} {spurious : Bool}

/-- The history is not part of the invariant. -/
theorem Owned.same (h : s.Owned g) (write : s'.writeIndex = s.writeIndex) (read : s'.readIndex = s.readIndex)
    (sequence : s'.sequence = s.sequence) (cell : s'.cell = s.cell) (owner : s'.owner = s.owner)
    (writers : s'.writers = s.writers) (reader : s'.reader = s.reader) (retained : s'.retained = s.retained) :
    s'.Owned g where
  lower := by
    rw [write, read]
    exact h.lower
  upper := by
    rw [write, read]
    exact h.upper
  fits := fun p below => (h.fits p below).same write read sequence cell owner reader
  writer := by
    intro v
    rw [writers]
    apply (h.writer v).carry write.ge read.ge
    · exact fun _ free => by rwa [sequence]
    · exact fun _ pass => by rwa [Passed, sequence]
    · exact fun _ returned => ⟨by rwa [Returned, owner, writers], by rw [cell]⟩
    · exact fun _ own => ⟨by rwa [owner], by rw [sequence], by rw [cell]⟩
  reader := by
    rw [reader]
    apply h.reader.carry write.ge read
    · exact fun unread => by rwa [sequence]
    · exact fun pass => by rwa [PassedHead, sequence, read]
    · exact fun given => by rwa [sequence]
    · exact fun _ own => ⟨by rwa [owner], by rw [sequence]⟩
    · exact fun _ _ own => by rwa [owner]
  claims := by
    rw [writers, owner]
    exact h.claims
  once := by
    rw [writers]
    exact h.once
  retained := by
    rw [retained, owner]
    exact h.retained
  retained_once := by
    rw [retained]
    exact h.retained_once

theorem Owned.handOver (h : s.Owned g) (w j r : Nat) : (s.handOver g w j r).Owned g := by
  unfold Ring.handOver
  split
  · exact h.same rfl rfl rfl rfl rfl rfl rfl rfl
  · exact h

/-- A slot's sequence is within two laps of `write_index`. -/
theorem Owned.near (h : s.Owned g) (i : Nat) : s.writeIndex ≤ s.sequence (g.pos i) + g.slots ∧
    s.sequence (g.pos i) ≤ s.writeIndex + g.slots + 3 := by
  obtain ⟨b, m, value, _, state⟩ := h.fits _ (g.pos_lt i)
  have upper := h.upper
  have lower := h.lower
  rw [value]
  cases who : s.owner (g.pos i) with
  | free | filling w =>
    rw [who] at state
    obtain ⟨_, _, _⟩ := state
    omega
  | unread | reading =>
    rw [who] at state
    obtain ⟨_, _, _, _⟩ := state
    omega
  | lent w j | referred r j | referring j =>
    rw [who] at state
    obtain ⟨⟨_, _, _, _, _, _, _⟩, _⟩ := state
    omega
  | kept j =>
    rw [who] at state
    obtain ⟨_, _, _, _, _, _, _⟩ := state
    omega

/-! ## The claim -/

variable {t : Task δ}

theorem Owned.refuse (h : s.Owned g) (mine : s.Mine g w t) : (s.refuse w t).Owned g := by
  cases t with
  | record cell | lend => exact h.setPc _ trivial
  | refer j => exact (h.setPc (.giveBack j) mine.1).same rfl rfl rfl rfl rfl rfl rfl rfl

theorem Owned.range (h : s.Owned g) (pc : (s.writers w).pc = .range t c) : (s.writerStep g w spurious).Owned g := by
  have fits := h.writer w
  rw [pc] at fits
  obtain ⟨mine, behind, most⟩ := fits
  have slots := g.slots_le
  simp only [writerStep, pc]
  split
  · exact h.refuse mine
  · rename_i room
    apply h.setPc
    refine ⟨mine, behind, most, ?_⟩
    by_cases before : c < s.readIndex
    · omega
    · by_contra far
      have lower := h.lower
      have upper := h.upper
      rw [sub_word_of_le (by omega) (by omega)] at room
      omega

theorem Owned.check (h : s.Owned g) (pc : (s.writers w).pc = .check t c)
    (near : s.writeIndex + 4 * g.slots < c + 2 ^ 32) : (s.writerStep g w spurious).Owned g := by
  have fits := h.writer w
  rw [pc] at fits
  obtain ⟨mine, behind, most, room⟩ := fits
  have four := g.four_le_slots
  obtain ⟨least, limit⟩ := h.near c
  simp only [writerStep, pc]
  split
  · rename_i free
    rw [word_eq_iff (by omega) (by omega)] at free
    exact h.setPc (.exchange t c) ⟨mine, behind, most, room, fun _ => free⟩
  · split
    · rename_i _ held
      have lap : word (s.sequence (g.pos c)) - (word c - BitVec.ofNat 32 g.slots) =
          word (s.sequence (g.pos c) + g.slots) - word c := by
        rw [← word_add]
        abel
      rw [lap, sub_two_le_one_iff (by omega) (by omega)] at held
      exact h.setPc (.mark t c _) ⟨mine, behind, most, room, held⟩
    · split
      · rename_i _ _ passed
        refine h.setPc (.skip t c) ⟨mine, behind, most, room, fun _ => ?_⟩
        simp only [seqPassed, Bool.or_eq_true, decide_eq_true_eq] at passed
        rw [word_add, sub_two_le_one_iff (by omega) (by omega), word_eq_iff (by omega) (by omega)] at passed
        unfold Passed
        omega
      · exact h.refuse mine

theorem Owned.skip (h : s.Owned g) (pc : (s.writers w).pc = .skip t c)
    (near : s.writeIndex + 4 * g.slots < c + 2 ^ 32) : (s.writerStep g w spurious).Owned g := by
  have fits := h.writer w
  rw [pc] at fits
  obtain ⟨mine, behind, most, room, passed⟩ := fits
  simp only [writerStep, pc]
  split
  · rename_i same
    rw [word_eq_iff (by omega) (by omega)] at same
    have next : Next g s { s with writeIndex := s.writeIndex + 1 } := {
      write := rfl
      room := same ▸ room
      read := rfl
      sequence := rfl
      cell := rfl
      others := fun _ _ => rfl
      change := .inl ⟨by rw [same]; exact passed same, rfl⟩ }
    have moved := next.owned h rfl rfl (.inl rfl)
    have fits := moved.writer w
    simp only [pc] at fits
    exact moved.setPc _ fits.1
  · exact h.setPc _ mine

theorem Owned.exchange (h : s.Owned g) (pc : (s.writers w).pc = .exchange t c)
    (near : s.writeIndex + 4 * g.slots < c + 2 ^ 32) : (s.writerStep g w spurious).Owned g := by
  have fits := h.writer w
  rw [pc] at fits
  obtain ⟨mine, behind, most, room, free⟩ := fits
  simp only [writerStep, pc]
  split
  · rename_i won
    simp only [Bool.and_eq_true, decide_eq_true_eq] at won
    have same := (word_eq_iff (by omega) (by omega)).mp won.2
    have next : Next g s { s with
        writeIndex := s.writeIndex + 1
        owner := update s.owner (g.pos s.writeIndex) (.filling w) } := {
      write := rfl
      room := same ▸ room
      read := rfl
      sequence := rfl
      cell := rfl
      others := fun p other => update_of_ne other _ _
      change := .inr ⟨by rw [same]; exact free same, w, update_self _ _ _⟩ }
    have moved := next.owned h rfl rfl (.inl rfl)
    have fits := moved.writer w
    simp only [pc] at fits
    refine moved.setPc _ ⟨fits.1, same ▸ fits.2.1, update_self _ _ _, ?_⟩
    rw [same]
    exact free same
  · refine h.setPc _ ⟨mine, ?_, le_refl _⟩
    cases t with
    | record cell | lend => trivial
    | refer j => exact lt_of_lt_of_le behind most

theorem Owned.load (h : s.Owned g) (pc : (s.writers w).pc = .load t) : (s.writerStep g w spurious).Owned g := by
  have fits := h.writer w
  rw [pc] at fits
  simp only [writerStep, pc]
  refine h.setPc _ ⟨fits, ?_, le_refl _⟩
  cases t with
  | record cell | lend => trivial
  | refer j =>
    have four := g.four_le_slots
    obtain ⟨b, m, _, _, state⟩ := h.fits _ (g.pos_lt j)
    rw [fits.1.1] at state
    exact state.1.claimed

/-- A mark says the same of whom its slot is with wherever it is moved. -/
theorem State.remark {o : Owner} {b' m' : Nat} (h : s.State g b m o) (two : 2 ≤ m)
    (held : ∀ j, s.Held g b m j → s'.Held g b' m' j) (unread : m' = 2 → s'.readIndex ≤ b') : s'.State g b' m' o := by
  cases o with
  | free | filling w | unread | reading =>
    have := h.1
    omega
  | lent w j => exact ⟨held j h.1, unread⟩
  | referred r j => exact ⟨held j h.1, unread, h.2.2⟩
  | referring j => exact ⟨held j h.1, unread⟩
  | kept j => exact held j h

/-- A slot whose mark is at `b` is nobody's to fill or to read. -/
theorem State.marked {o : Owner} (h : s.State g b m o) (two : 2 ≤ m) : (∃ j, s.Held g b m j) ∧ (∀ v, o ≠ .filling v) ∧
    o ≠ .unread ∧ o ≠ .reading := by
  cases o with
  | free | filling w | unread | reading =>
    have := h.1
    omega
  | lent w j | referred r j | referring j => exact ⟨⟨j, h.1⟩, by simp, by simp, by simp⟩
  | kept j => exact ⟨⟨j, h⟩, by simp, by simp, by simp⟩

theorem Owned.mark (h : s.Owned g) (pc : (s.writers w).pc = .mark t c i)
    (near : s.writeIndex + 4 * g.slots < c + 2 ^ 32) : (s.writerStep g w spurious).Owned g := by
  have fits := h.writer w
  rw [pc] at fits
  obtain ⟨mine, behind, most, room, held⟩ := fits
  have four := g.four_le_slots
  obtain ⟨least, limit⟩ := h.near c
  simp only [writerStep, pc]
  split
  · rename_i same
    rw [word_eq_iff (by omega) (by omega)] at same
    obtain ⟨b, m, value, place, state⟩ := h.fits _ (g.pos_lt c)
    -- the slot carries a mark of the lap before
    have floor : g.pos c ≤ b := by
      rw [← place]
      exact Nat.mod_le _ _
    have lap : g.slots ≤ c := by
      by_contra short
      have : g.pos c = c := Nat.mod_eq_of_lt (by omega)
      omega
    have there : g.pos (c - g.slots) = g.pos c := by
      rw [← Geometry.pos_add_slots g (c - g.slots), Nat.sub_add_cancel lap]
    have before : b = c - g.slots ∧ 2 ≤ m := by
      rcases held with two | three
      · have := @Geometry.phase_unique g b (c - g.slots) m 2 (place.trans there.symm) (by omega) state.phase_lt (by omega)
        omega
      · have := @Geometry.phase_unique g b (c - g.slots) m 3 (place.trans there.symm) (by omega) state.phase_lt (by omega)
        omega
    obtain ⟨rfl, two⟩ := before
    obtain ⟨⟨j, hold⟩, filling, _, _⟩ := state.marked two
    have lower := hold.lower
    have at_ : s.writeIndex = c := by omega
    let s₁ := s.setSequence g c (c + 2) (s.owner (g.pos c))
    have same_owner : s₁.owner (g.pos c) = s.owner (g.pos c) := update_self _ _ _
    have next : s₁.sequence (g.pos c) = c + 2 := update_self _ _ _
    have touch : Touch g s s₁ (g.pos c) (c - g.slots) m := {
      write := rfl
      read := rfl
      others := fun p other => ⟨update_of_ne other _ _, update_of_ne other _ _, rfl⟩
      value := value
      here := there
      small := state.phase_lt
      claimed := by omega
      passed := by omega }
    have here : s₁.Fits g (g.pos c) := by
      refine ⟨c, 2, next, rfl, ?_⟩
      rw [same_owner]
      apply state.remark two
      · intro j hold
        exact ⟨.inl rfl, by rw [hold.same, there], by have := hold.after; omega, hold.claimed, most, by change s.writeIndex ≤ _; omega, by omega⟩
      · intro _
        have := h.lower
        change s.readIndex ≤ c
        omega
    have marked : s₁.Owned g := by
      apply touch.byWriter (w := w) h rfl rfl (fun _ _ => rfl) here (.inr (.inr ⟨two, same_owner, rfl⟩))
      · omega
      · exact touch.writer (h.writer w) rfl (fun j who _ => ⟨same_owner.trans who, rfl⟩) (filling w)
      · intro j mem
        have who := h.claims w j mem
        by_cases there : g.pos j = g.pos c
        · rw [there] at who ⊢
          exact same_owner.trans who
        · exact (touch.others _ there).2.1.trans who
      · exact h.once w
    have fits := marked.writer w
    change s₁.WriterFits g w (s.writers w).pc at fits
    rw [pc] at fits
    exact marked.setPc (.skip t c) ⟨fits.1, behind, most, room, fun _ => .inl next⟩
  · exact h.setPc _ mine

/-! ## The slot won -/

/-- What a writer that fills the slot `c` has of it. -/
theorem Owned.filling (h : s.Owned g) (who : s.owner (g.pos c) = .filling w) (value : s.sequence (g.pos c) = c) :
    s.readIndex ≤ c ∧ c < s.writeIndex := by
  have state := h.state (m := 0) value (by omega)
  rw [who] at state
  exact state.2

/-- The writer's change of the slot it fills. -/
theorem Owned.touchFilling (h : s.Owned g) (who : s.owner (g.pos c) = .filling w) (value : s.sequence (g.pos c) = c)
    (write : s'.writeIndex = s.writeIndex) (read : s'.readIndex = s.readIndex) (reader : s'.reader = s.reader)
    (retained : s'.retained = s.retained) (writers : ∀ v, v ≠ w → s'.writers v = s.writers v)
    (others : ∀ p, p ≠ g.pos c → s'.sequence p = s.sequence p ∧ s'.owner p = s.owner p ∧ s'.cell p = s.cell p)
    (here : s'.Fits g (g.pos c)) (pc : s'.WriterFits g w (s'.writers w).pc)
    (claims : ∀ j ∈ (s'.writers w).claims, j ∈ (s.writers w).claims ∨ s'.owner (g.pos j) = .lent w j)
    (once : (s'.writers w).claims.Nodup) : s'.Owned g := by
  have between := h.filling who value
  have touch : Touch g s s' (g.pos c) c 0 := {
    write := write
    read := read
    others := others
    value := value
    here := rfl
    small := by omega
    claimed := fun _ => between.2
    passed := by omega }
  apply touch.byWriter h reader retained writers here (.inl who) (by omega) pc _ once
  intro j mem
  rcases claims j mem with old | new
  · have lent := h.claims w j old
    have apart : g.pos j ≠ g.pos c := by
      intro there
      rw [there, who] at lent
      cases lent
    exact (others _ apart).2.1.trans lent
  · exact new

theorem setPc_pc (pc : WriterPc δ) : ((s.setPc w pc).writers w).pc = pc := by simp [setPc]

theorem setPc_claims (pc : WriterPc δ) : ((s.setPc w pc).writers w).claims = (s.writers w).claims := by simp [setPc]

theorem setPc_other (pc : WriterPc δ) {v : Nat} (other : v ≠ w) : (s.setPc w pc).writers v = s.writers v := by
  simp [setPc, other]

/-- The slot of a claim is another than the one its writer fills. -/
theorem Returned.apart (returned : s.Returned g w j) (who : s.owner (g.pos c) = .filling w) : g.pos j ≠ g.pos c := by
  intro there
  have lent := returned.1
  rw [there, who] at lent
  cases lent

theorem Owned.lend (h : s.Owned g) (pc : (s.writers w).pc = .won .lend c) : (s.writerStep g w spurious).Owned g := by
  have fits := h.writer w
  rw [pc] at fits
  obtain ⟨_, _, who, value⟩ := fits
  have between := h.filling who value
  have four := g.four_le_slots
  have upper := h.upper
  have unlent : c ∉ (s.writers w).claims := by
    intro mem
    have lent := h.claims w c mem
    rw [who] at lent
    cases lent
  simp only [writerStep, pc]
  apply h.touchFilling who value
  · rfl
  · rfl
  · rfl
  · rfl
  · intro v other
    exact update_of_ne other _ _
  · intro p other
    exact ⟨update_of_ne other _ _, update_of_ne other _ _, rfl⟩
  · refine ⟨c, 2, update_self _ _ _, rfl, ?_⟩
    have lent : (s.setSequence g c (c + 2) (.lent w c)).owner (g.pos c) = .lent w c := update_self _ _ _
    dsimp only
    rw [lent]
    exact ⟨⟨.inl rfl, rfl, Nat.le_refl _, between.2, between.2.le, by change s.writeIndex ≤ _; omega, by omega⟩,
      fun _ => between.1⟩
  · simp only [update_self]
    trivial
  · intro j mem
    simp only [update_self, List.mem_cons] at mem
    rcases mem with rfl | old
    · exact .inr (update_self _ _ _)
    · exact .inl old
  · simp only [update_self]
    exact List.nodup_cons.mpr ⟨unlent, h.once w⟩

/-- The record is written into the slot won. -/
theorem Owned.fillSlot (h : s.Owned g) (who : s.owner (g.pos c) = .filling w) (value : s.sequence (g.pos c) = c)
    {cell : Cell δ} (mine : s.Mine g w t) (behind : Behind c t) (written : Written t cell) :
    ((s.setCell g c cell).setPc w (.filled t c)).Owned g := by
  have between := h.filling who value
  have here : (s.setCell g c cell).cell (g.pos c) = cell := update_self _ _ _
  apply h.touchFilling who value
  · rfl
  · rfl
  · rfl
  · rfl
  · exact fun v other => setPc_other _ other
  · exact fun p other => ⟨rfl, rfl, update_of_ne other _ _⟩
  · refine ⟨c, 0, value, rfl, ?_⟩
    change State g _ c 0 (s.owner (g.pos c))
    rw [who]
    exact ⟨rfl, between⟩
  · rw [setPc_pc]
    refine ⟨?_, behind, who, value, ?_⟩
    · cases t with
      | record cell => exact mine
      | lend => trivial
      | refer j =>
        obtain ⟨returned, d, full⟩ := mine
        refine ⟨⟨returned.1, ?_⟩, d, ?_⟩
        · rw [setPc_claims]
          exact returned.2
        · exact (update_of_ne (returned.apart who) _ _).trans full
    · change Written t ((s.setCell g c cell).cell (g.pos c))
      rw [here]
      exact written
  · intro j mem
    rw [setPc_claims] at mem
    exact .inl mem
  · rw [setPc_claims]
    exact h.once w

theorem Owned.won (h : s.Owned g) (pc : (s.writers w).pc = .won t c) : (s.writerStep g w spurious).Owned g := by
  have fits := h.writer w
  rw [pc] at fits
  obtain ⟨mine, behind, who, value⟩ := fits
  cases t with
  | record cell =>
    simp only [writerStep, pc]
    exact h.fillSlot who value mine behind rfl
  | lend => exact h.lend pc
  | refer j =>
    simp only [writerStep, pc]
    exact h.fillSlot who value mine behind rfl

/-- The slot filled is published. -/
theorem Owned.unread (h : s.Owned g) (who : s.owner (g.pos c) = .filling w) (value : s.sequence (g.pos c) = c)
    (refs : ∀ j, s.cell (g.pos c) = .ref j → s.owner (g.pos j) = .referred c j) :
    ((s.setSequence g c (c + 1) .unread).setPc w .idle).Owned g := by
  have between := h.filling who value
  have unread : (s.setSequence g c (c + 1) .unread).owner (g.pos c) = .unread := update_self _ _ _
  apply h.touchFilling who value
  · rfl
  · rfl
  · rfl
  · rfl
  · exact fun v other => setPc_other _ other
  · exact fun p other => ⟨update_of_ne other _ _, update_of_ne other _ _, rfl⟩
  · refine ⟨c, 1, update_self _ _ _, rfl, ?_⟩
    change State g _ c 1 ((s.setSequence g c (c + 1) .unread).owner (g.pos c))
    rw [unread]
    refine ⟨rfl, between.1, between.2, ?_⟩
    intro j ref
    have referred := refs j ref
    have apart : g.pos j ≠ g.pos c := by
      intro there
      rw [there, who] at referred
      cases referred
    exact (update_of_ne apart _ _).trans referred
  · rw [setPc_pc]
    trivial
  · intro j mem
    rw [setPc_claims] at mem
    exact .inl mem
  · rw [setPc_claims]
    exact h.once w

/-! ## A claim published or given back -/

/-- What a writer that has a claim at `j` has of its slot. -/
theorem Owned.lent (h : s.Owned g) (who : s.owner (g.pos j) = .lent w j) : ∃ b m, s.sequence (g.pos j) = b + m ∧
    s.Held g b m j ∧ (m = 2 → s.readIndex ≤ b) := by
  obtain ⟨b, m, value, _, state⟩ := h.fits _ (g.pos_lt j)
  rw [who] at state
  exact ⟨b, m, value, state⟩

theorem Held.phase_lt (held : s.Held g b m j) : m < 4 := by
  have := held.phase
  omega

/-- The writer's change of a slot it has lent and got back. -/
theorem Owned.touchReturned (h : s.Owned g) (returned : s.Returned g w j) (value : s.sequence (g.pos j) = b + m)
    (held : s.Held g b m j) (write : s'.writeIndex = s.writeIndex) (read : s'.readIndex = s.readIndex)
    (reader : s'.reader = s.reader) (retained : s'.retained = s.retained)
    (writers : ∀ v, v ≠ w → s'.writers v = s.writers v)
    (others : ∀ p, p ≠ g.pos j → s'.sequence p = s.sequence p ∧ s'.owner p = s.owner p ∧ s'.cell p = s.cell p)
    (here : s'.Fits g (g.pos j)) (passed : b = s.writeIndex → s'.Passed g b)
    (head : m = 3 → b = s.readIndex → s'.PassedHead g) (pc : s'.WriterFits g w (s'.writers w).pc)
    (claims : (s'.writers w).claims = (s.writers w).claims) : s'.Owned g := by
  have two := held.phase
  have touch : Touch g s s' (g.pos j) b m := {
    write := write
    read := read
    others := others
    value := value
    here := held.same.symm
    small := held.phase_lt
    claimed := by omega
    passed := fun _ => passed }
  apply touch.byWriter h reader retained writers here (.inr (.inl ⟨j, returned.1⟩)) head pc
  · intro i mem
    rw [claims] at mem
    have lent := h.claims w i mem
    have apart : g.pos i ≠ g.pos j := by
      intro there
      rw [there, returned.1] at lent
      cases lent
      exact returned.2 mem
    exact (others _ apart).2.1.trans lent
  · rw [claims]
    exact h.once w

/-- A claim is handed over by the reference at `c`, which its writer is about to publish. -/
theorem Owned.refer (h : s.Owned g) (returned : s.Returned g w j) (who : s.owner (g.pos c) = .filling w)
    (value : s.sequence (g.pos c) = c) (behind : j < c) (near : c + 4 * g.slots < j + 2 ^ 31) :
    ({ s with owner := update s.owner (g.pos j) (.referred c j) }.setPc w (.won .lend c)).Owned g := by
  obtain ⟨b, m, value', held, unread⟩ := h.lent returned.1
  have apart := returned.apart who
  apply h.touchReturned returned value' held
  · rfl
  · rfl
  · rfl
  · rfl
  · exact fun v other => setPc_other _ other
  · exact fun p other => ⟨rfl, update_of_ne other _ _, rfl⟩
  · refine ⟨b, m, value', held.same.symm, ?_⟩
    change State g _ b m (update s.owner (g.pos j) (.referred c j) (g.pos j))
    rw [update_self]
    exact ⟨held.carry (Nat.le_refl s.writeIndex) (Nat.le_refl s.readIndex) id, unread, behind, near⟩
  · intro _
    rcases held.phase with two | three
    · left
      change s.sequence (g.pos b) = b + 2
      rw [← held.same, value', two]
    · right
      left
      change s.sequence (g.pos b) = b + 3
      rw [← held.same, value', three]
  · intro three head
    left
    change s.sequence (g.pos s.readIndex) = s.readIndex + 3
    rw [← head, ← held.same, value', three]
  · rw [setPc_pc]
    exact ⟨trivial, trivial, (update_of_ne apart.symm _ _).trans who, value⟩
  · exact setPc_claims _

theorem Owned.filled (h : s.Owned g) (pc : (s.writers w).pc = .filled t c)
    (near : ∀ j, t = .refer j → s.writeIndex + 4 * g.slots < j + 2 ^ 31) : (s.writerStep g w spurious).Owned g := by
  have fits := h.writer w
  rw [pc] at fits
  obtain ⟨mine, behind, who, value, written⟩ := fits
  have between := h.filling who value
  cases t with
  | record cell =>
    simp only [writerStep, pc]
    apply Owned.handOver
    apply h.unread who value
    intro j ref
    rw [written] at ref
    exact absurd ref (mine j)
  | lend => exact written.elim
  | refer j =>
    simp only [writerStep, pc]
    apply Owned.handOver
    have apart := mine.1.apart who
    have soon := near j rfl
    have referred := h.refer mine.1 who value behind (by omega)
    have published := referred.unread (c := c) (w := w) ((update_of_ne apart.symm _ _).trans who) value ?_
    · refine published.same rfl rfl rfl rfl ?_ ?_ rfl rfl
      · exact (update_comm apart _ _ _).symm
      · simp [Ring.setPc, Ring.setSequence]
    · intro i ref
      change s.cell (g.pos c) = .ref i at ref
      rw [written] at ref
      cases ref
      exact update_self _ _ _

theorem Owned.inPlace (h : s.Owned g) (pc : (s.writers w).pc = .inPlace j) : (s.writerStep g w spurious).Owned g := by
  have fits := h.writer w
  rw [pc] at fits
  simp only [writerStep, pc]
  split
  · exact h.setPc _ fits
  · exact h.setPc _ fits

theorem Owned.publish (h : s.Owned g) (pc : (s.writers w).pc = .publish j)
    (near : s.writeIndex + 4 * g.slots < j + 2 ^ 31) : (s.writerStep g w spurious).Owned g := by
  have fits := h.writer w
  rw [pc] at fits
  obtain ⟨returned, d, full⟩ := fits
  have slots := g.slots_le
  obtain ⟨least, limit⟩ := h.near j
  simp only [writerStep, pc]
  split
  · rename_i same
    apply Owned.handOver
    obtain ⟨b, m, value, held, unread⟩ := h.lent returned.1
    have claimed := held.claimed
    rw [word_eq_iff (by omega) (by omega)] at same
    obtain ⟨rfl, rfl⟩ := @Geometry.phase_unique g b j m 2 held.same.symm (by omega) held.phase_lt (by omega)
    have published : (s.setSequence g b (b + 1) .unread).owner (g.pos b) = .unread := update_self _ _ _
    apply h.touchReturned returned value held
    · rfl
    · rfl
    · rfl
    · rfl
    · exact fun v other => setPc_other _ other
    · exact fun p other => ⟨update_of_ne other _ _, update_of_ne other _ _, rfl⟩
    · refine ⟨b, 1, update_self _ _ _, rfl, ?_⟩
      change State g _ b 1 ((s.setSequence g b (b + 1) .unread).owner (g.pos b))
      rw [published]
      refine ⟨rfl, unread rfl, held.claimed, ?_⟩
      intro i ref
      change s.cell (g.pos b) = .ref i at ref
      rw [full] at ref
      cases ref
    · omega
    · omega
    · rw [setPc_pc]
      trivial
    · exact setPc_claims _
  · exact h.setPc _ ⟨returned, d, full⟩

/-- `segment_unhold()` of a held slot frees it for the first index no writer has passed. -/
theorem unhold_eq (value : s.sequence (g.pos j) = b + m) (held : s.Held g b m j) :
    s.unhold g j = s.setSequence g j (b + g.slots) .free := by
  have four := g.four_le_slots
  have phase := held.phase
  have mark : (word (b + m) - word j).toNat % g.slots = m :=
    Geometry.sub_mod_of_pos held.same held.after (by omega)
  unfold unhold
  dsimp only
  rw [value, mark, if_pos phase]
  congr 1
  omega

theorem Owned.giveBack (h : s.Owned g) (pc : (s.writers w).pc = .giveBack j) : (s.writerStep g w spurious).Owned g := by
  have returned := h.writer w
  rw [pc] at returned
  obtain ⟨b, m, value, held, _⟩ := h.lent returned.1
  have there := held.same
  simp only [writerStep, pc]
  rw [unhold_eq value held]
  have freed : (s.setSequence g j (b + g.slots) .free).owner (g.pos j) = .free := update_self _ _ _
  have given : (s.setSequence g j (b + g.slots) .free).sequence (g.pos b) = b + g.slots := by
    rw [← there]
    exact update_self _ _ _
  apply h.touchReturned returned value held
  · rfl
  · rfl
  · rfl
  · rfl
  · exact fun v other => setPc_other _ other
  · exact fun p other => ⟨update_of_ne other _ _, update_of_ne other _ _, rfl⟩
  · refine ⟨b + g.slots, 0, update_self _ _ _, by rw [Geometry.pos_add_slots, there], ?_⟩
    change State g _ (b + g.slots) 0 ((s.setSequence g j (b + g.slots) .free).owner (g.pos j))
    rw [freed]
    exact ⟨rfl, held.lower, Nat.add_le_add_right held.upper _⟩
  · exact fun _ => .inr (.inr given)
  · intro _ head
    subst head
    exact .inr given
  · rw [setPc_pc]
    trivial
  · exact setPc_claims _

theorem Owned.writerStep (h : s.Owned g) (timely : s.Timely g (.writer w spurious)) : (s.writerStep g w spurious).Owned g := by
  unfold Timely at timely
  dsimp only at timely
  cases pc : (s.writers w).pc with
  | idle =>
    simp only [Ring.writerStep, pc]
    exact h
  | load t => exact h.load pc
  | range t c => exact h.range pc
  | check t c =>
    rw [pc] at timely
    exact h.check pc timely
  | exchange t c =>
    rw [pc] at timely
    exact h.exchange pc timely
  | mark t c sequence =>
    rw [pc] at timely
    exact h.mark pc timely
  | skip t c =>
    rw [pc] at timely
    exact h.skip pc timely
  | won t c => exact h.won pc
  | filled t c =>
    apply h.filled pc
    rintro j rfl
    rw [pc] at timely
    exact timely
  | inPlace j => exact h.inPlace pc
  | publish j =>
    rw [pc] at timely
    exact h.publish pc timely
  | giveBack j => exact h.giveBack pc

end Ring

end Segment

end Tickle
