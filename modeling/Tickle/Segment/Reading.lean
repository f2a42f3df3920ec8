import Tickle.Segment.Steps

/-! # The steps of the reader

Every step of the reader keeps the ring in order, and so does what the applications do with the slots they were lent or have kept;
from these and the writers' steps, every timely run does.
-/

namespace Tickle

namespace Segment

namespace Ring

open Function

variable {δ : Type} {g : Geometry} {s s' : Ring δ} {q b m j w c i : Nat}

theorem Owned.setReader (h : s.Owned g) (idle : ∀ b, s.reader ≠ .reading b) (pc : ReaderPc) (fits : s.ReaderFits g pc) :
    { s with reader := pc }.Owned g := by
  refine ⟨h.lower, h.upper, ?_, ?_, ?_, h.claims, h.once, h.retained, h.retained_once⟩
  · intro p below
    obtain ⟨b, m, value, place, state⟩ := h.fits p below
    refine ⟨b, m, value, place, ?_⟩
    apply State.carry state
    · exact Nat.le_refl s.writeIndex
    · exact Nat.le_refl s.readIndex
    · exact fun _ ahead => ahead
    · exact fun lap => lap
    · exact fun _ behind _ => behind
    · exact fun _ _ target => target
    · exact fun who => absurd who (h.unless_reading idle below)
  · intro v
    apply WriterFits.carry (h.writer v)
    · exact Nat.le_refl s.writeIndex
    · exact Nat.le_refl s.readIndex
    · exact fun _ free => free
    · exact fun _ pass => pass
    · exact fun _ returned => ⟨returned, rfl⟩
    · exact fun _ own => ⟨own, rfl, rfl⟩
  · apply ReaderFits.carry fits
    · exact Nat.le_refl s.writeIndex
    · rfl
    · exact id
    · exact id
    · exact id
    · exact fun _ own => ⟨own, rfl⟩
    · exact fun _ _ own => own

/-- The reader's change of a slot that is no writer's. -/
theorem Owned.touchRead (h : s.Owned g) (value : s.sequence (g.pos b) = b + m) (some_ : m ≠ 0) (small : m < 4)
    (write : s'.writeIndex = s.writeIndex) (read : s'.readIndex = s.readIndex) (writers : s'.writers = s.writers)
    (others : ∀ p, p ≠ g.pos b → s'.sequence p = s.sequence p ∧ s'.owner p = s.owner p ∧ s'.cell p = s.cell p)
    (here : s'.Fits g (g.pos b)) (passed : 2 ≤ m → b = s.writeIndex → s'.Passed g b)
    (lent : ∀ v j, s.owner (g.pos b) = .lent v j → s'.owner (g.pos b) = .lent v j ∧ s'.cell (g.pos b) = s.cell (g.pos b))
    (referred : ∀ r j, s.owner (g.pos r) = .unread → s.sequence (g.pos r) = r + 1 → s.owner (g.pos b) = .referred r j →
      s'.owner (g.pos b) = .referred r j)
    (reading : s'.reader = s.reader ∨ ∀ p < g.slots, p ≠ g.pos b → s.owner p ≠ .reading)
    (pc : s'.ReaderFits g s'.reader)
    (retained : ∀ j ∈ s'.retained, j ∈ s.retained ∧ s.owner (g.pos b) ≠ .kept j ∨ s'.owner (g.pos j) = .kept j)
    (once : s'.retained.Nodup) : s'.Owned g := by
  have touch : Touch g s s' (g.pos b) b m := {
    write := write
    read := read
    others := others
    value := value
    here := rfl
    small := small
    claimed := by omega
    passed := passed }
  have state := h.state value small
  apply touch.byReader h writers here
  · intro v who
    rw [who] at state
    exact some_ state.1
  · exact lent
  · intro p r j other unread one place who
    subst place
    exact referred r j unread one who
  · intro p below other who
    rcases reading with same | none
    · exact same
    · exact absurd who (none p below other)
  · exact pc
  · intro j mem
    rcases retained j mem with ⟨old, apart⟩ | new
    · have kept := h.retained j old
      have other : g.pos j ≠ g.pos b := by
        intro there
        rw [there] at kept
        exact apart kept
      exact (others _ other).2.1.trans kept
    · exact new
  · exact once

/-- The reader looks at its head. -/
theorem Owned.look (h : s.Owned g) (idle : ∀ b, s.reader ≠ .reading b) :
    { s with reader := .looked (s.sequence (g.pos s.readIndex)) }.Owned g := by
  have upper := h.upper
  have lower := h.lower
  obtain ⟨least, limit⟩ := h.near s.readIndex
  apply h.setReader idle
  exact ⟨by omega, by omega, fun one => one, fun pass => pass⟩

/-- The reader gives its head back, read or not. -/
theorem Owned.releaseHead (h : s.Owned g) (idle : ∀ b, s.reader ≠ .reading b) (who : s.owner (g.pos s.readIndex) = .unread)
    (value : s.sequence (g.pos s.readIndex) = s.readIndex + 1) (pc : ReaderPc)
    (fits : (s.setSequence g s.readIndex (s.readIndex + g.slots) .free).ReaderFits g pc) :
    { s.setSequence g s.readIndex (s.readIndex + g.slots) .free with reader := pc }.Owned g := by
  have state := h.state value (by omega)
  rw [who] at state
  have freed : (s.setSequence g s.readIndex (s.readIndex + g.slots) .free).owner (g.pos s.readIndex) = .free :=
    update_self _ _ _
  apply h.touchRead value
  · omega
  · omega
  · rfl
  · rfl
  · rfl
  · exact fun p other => ⟨update_of_ne other _ _, update_of_ne other _ _, rfl⟩
  · refine ⟨s.readIndex + g.slots, 0, update_self _ _ _, Geometry.pos_add_slots g _, ?_⟩
    change State g _ (s.readIndex + g.slots) 0 ((s.setSequence g s.readIndex (s.readIndex + g.slots) .free).owner _)
    rw [freed]
    exact ⟨rfl, h.upper, Nat.add_le_add_right h.lower _⟩
  · omega
  · intro v j lent
    rw [who] at lent
    cases lent
  · intro r j _ _ referred
    rw [who] at referred
    cases referred
  · exact .inr fun p below _ => h.unless_reading idle below
  · exact fits.carry (Nat.le_refl s.writeIndex) rfl id id id (fun _ own => ⟨own, rfl⟩) (fun _ _ own => own)
  · intro j mem
    refine .inl ⟨mem, ?_⟩
    rw [who]
    simp
  · exact h.retained_once

/-- An index from the head on is published when its sequence says so, with a reference only to a claim that is referred there. -/
theorem Owned.published (h : s.Owned g) (ahead : s.readIndex ≤ i) (value : s.sequence (g.pos i) = i + 1) :
    s.owner (g.pos i) = .unread ∧ i < s.writeIndex ∧
      ∀ j, s.cell (g.pos i) = .ref j → s.owner (g.pos j) = .referred i j := by
  have state := h.state value (by omega)
  cases who : s.owner (g.pos i) with
  | free | filling w =>
    rw [who] at state
    exact absurd state.1 (by omega)
  | unread =>
    rw [who] at state
    exact ⟨rfl, state.2.2⟩
  | reading =>
    rw [who] at state
    have := state.2.1
    omega
  | lent w j | referred r j | referring j =>
    rw [who] at state
    exact absurd state.1.phase (by omega)
  | kept j =>
    rw [who] at state
    exact absurd state.phase (by omega)

/-- The reader takes up the claim that a reference it has given back names. -/
theorem Owned.takeUp (h : s.Owned g) (idle : ∀ b, s.reader ≠ .reading b) {r : Nat} (who : s.owner (g.pos j) = .referred r j)
    (gone : s.sequence (g.pos r) = r + g.slots) (pc : ReaderPc)
    (fits : { s with owner := update s.owner (g.pos j) (.referring j) }.ReaderFits g pc) :
    { s with owner := update s.owner (g.pos j) (.referring j), reader := pc }.Owned g := by
  have four := g.four_le_slots
  obtain ⟨b, m, value, place, state⟩ := h.fits _ (g.pos_lt j)
  rw [who] at state
  obtain ⟨held, unread, _, _⟩ := state
  have phase := held.phase
  rw [held.same] at value who
  apply h.touchRead value
  · omega
  · omega
  · rfl
  · rfl
  · rfl
  · rw [held.same]
    exact fun p other => ⟨rfl, update_of_ne other _ _, rfl⟩
  · refine ⟨b, m, value, rfl, ?_⟩
    change State g _ b m (update s.owner (g.pos j) (.referring j) (g.pos b))
    rw [held.same, update_self]
    exact ⟨held.carry (Nat.le_refl s.writeIndex) (Nat.le_refl s.readIndex) id, unread⟩
  · intro _ _
    change s.Passed g b
    unfold Passed
    rw [value]
    omega
  · intro v i lent
    rw [who] at lent
    cases lent
  · intro r' i unread' one referred
    rw [who] at referred
    cases referred
    omega
  · exact .inr fun p below _ => h.unless_reading idle below
  · exact fits.carry (Nat.le_refl s.writeIndex) rfl id id id (fun _ own => ⟨own, rfl⟩) (fun _ _ own => own)
  · intro i mem
    refine .inl ⟨mem, ?_⟩
    rw [who]
    simp
  · exact h.retained_once

theorem Owned.looked (h : s.Owned g) (pc : s.reader = .looked i) (choice : Choice) : (s.readerStep g choice).Owned g := by
  have idle : ∀ b, s.reader ≠ .reading b := by simp [pc]
  have fits := h.reader
  rw [pc] at fits
  obtain ⟨least, most, one, pass⟩ := fits
  have four := g.four_le_slots
  have slots := g.slots_le
  have given : (s.setSequence g s.readIndex (s.readIndex + g.slots) .free).sequence (g.pos s.readIndex) = s.readIndex + g.slots :=
    update_self _ _ _
  simp only [readerStep, pc]
  split
  · rename_i published
    rw [word_eq_iff (by omega) (by omega)] at published
    have value := one published
    obtain ⟨who, less, refs⟩ := h.published (Nat.le_refl _) value
    split
    · rename_i d full
      split
      · exact (h.releaseHead idle who value .advance ⟨less, .inr given⟩).same rfl rfl rfl rfl rfl rfl rfl rfl
      · have past : Past g s { s with
            readIndex := s.readIndex + 1
            owner := update s.owner (g.pos s.readIndex) .reading
            reader := .reading s.readIndex } := {
          write := rfl
          less := less
          read := rfl
          sequence := rfl
          cell := rfl
          others := fun p other => update_of_ne other _ _
          idle := idle
          change := .inr ⟨who, value, update_self _ _ _, rfl⟩ }
        have owned := past.owned h rfl rfl ⟨rfl, update_self _ _ _, value⟩
        exact owned.same rfl rfl rfl rfl rfl rfl rfl rfl
    · rename_i j ref
      have referred := refs j ref
      have apart : g.pos j ≠ g.pos s.readIndex := by
        intro there
        rw [there, who] at referred
        cases referred
      obtain ⟨_, _, _, _, state⟩ := h.fits _ (g.pos_lt j)
      rw [referred] at state
      obtain ⟨_, _, behind, near⟩ := state
      have released := h.releaseHead idle who value .idle trivial
      have taken := released.takeUp (by simp) (r := s.readIndex) ((update_of_ne apart _ _).trans referred) given
        (.refReleased j) ⟨less, given, update_self _ _ _, behind, near⟩
      exact taken.same rfl rfl rfl rfl (update_comm apart _ _ _) rfl rfl rfl
    · split
      · exact h.setReader idle .idle trivial
      · exact h.releaseHead idle who value .advance ⟨less, .inr given⟩
  · split
    · rename_i _ held
      rw [word_eq_iff (by omega) (by omega)] at held
      split
      · rename_i same
        obtain ⟨near, far⟩ := h.near s.readIndex
        have lower := h.lower
        have upper := h.upper
        rw [word_eq_iff (by omega) (by omega)] at same
        have value : s.sequence (g.pos s.readIndex) = s.readIndex + 2 := same.trans held
        have state := h.state value (by omega)
        have marked : (s.setSequence g s.readIndex (s.readIndex + 3) (s.owner (g.pos s.readIndex))).owner (g.pos s.readIndex) =
            s.owner (g.pos s.readIndex) := update_self _ _ _
        have three : (s.setSequence g s.readIndex (s.readIndex + 3) (s.owner (g.pos s.readIndex))).sequence (g.pos s.readIndex) =
            s.readIndex + 3 := update_self _ _ _
        apply h.touchRead value
        · omega
        · omega
        · rfl
        · rfl
        · rfl
        · exact fun p other => ⟨update_of_ne other _ _, update_of_ne other _ _, rfl⟩
        · refine ⟨s.readIndex, 3, three, rfl, ?_⟩
          dsimp only
          rw [marked]
          apply state.remark (by omega)
          · intro j hold
            exact ⟨.inr rfl, hold.same, hold.after, hold.claimed, hold.upper, hold.lower, fun _ => Nat.le_refl s.readIndex⟩
          · omega
        · intro _ here
          right
          left
          exact three
        · exact fun v j lent => ⟨marked.trans lent, rfl⟩
        · exact fun r j _ _ referred => marked.trans referred
        · exact .inr fun p below _ => h.unless_reading idle below
        · exact .inl three
        · intro j mem
          right
          have kept := h.retained j mem
          by_cases there : g.pos j = g.pos s.readIndex
          · rw [there] at kept ⊢
            exact marked.trans kept
          · exact (update_of_ne there _ _).trans kept
        · exact h.retained_once
      · exact h.look idle
    · split
      · rename_i _ other passed
        apply h.setReader idle
        rw [word_eq_iff (by omega) (by omega)] at other
        simp only [seqPassed, Bool.or_eq_true, decide_eq_true_eq] at passed
        rw [word_add, sub_two_le_one_iff (by omega) (by omega), word_eq_iff (by omega) (by omega)] at passed
        apply pass
        omega
      · exact h.setReader idle .idle trivial

theorem Owned.passing (h : s.Owned g) (pc : s.reader = .passing) (choice : Choice) : (s.readerStep g choice).Owned g := by
  have idle : ∀ b, s.reader ≠ .reading b := by simp [pc]
  have passed := h.reader
  rw [pc] at passed
  have four := g.four_le_slots
  have slots := g.slots_le
  have lower := h.lower
  have upper := h.upper
  simp only [readerStep, pc]
  split
  · rename_i same
    rw [word_eq_iff (by omega) (by omega)] at same
    have next : Next g s { s with writeIndex := s.writeIndex + 1, reader := .advance } := {
      write := rfl
      room := by omega
      read := rfl
      sequence := rfl
      cell := rfl
      others := fun _ _ => rfl
      change := .inl ⟨by
        unfold Passed
        rw [same]
        rcases passed with three | given
        · exact .inr (.inl three)
        · exact .inr (.inr given), rfl⟩ }
    exact next.owned h rfl rfl (.inr ⟨idle, by change s.readIndex < s.writeIndex + 1; omega, passed⟩)
  · rename_i other
    rw [word_eq_iff (by omega) (by omega)] at other
    exact h.setReader idle .advance ⟨by omega, passed⟩

/-- The reader moves on from a head that is passed or given back. -/
theorem Owned.past (h : s.Owned g) (idle : ∀ b, s.reader ≠ .reading b) (less : s.readIndex < s.writeIndex)
    (passed : s.PassedHead g) (pc : ReaderPc)
    (fits : { s with readIndex := s.readIndex + 1, reader := pc }.ReaderFits g pc) :
    { s with readIndex := s.readIndex + 1, reader := pc }.Owned g := by
  have past : Past g s { s with readIndex := s.readIndex + 1, reader := pc } := {
    write := rfl
    less := less
    read := rfl
    sequence := rfl
    cell := rfl
    others := fun _ _ => rfl
    idle := idle
    change := .inl ⟨passed, rfl⟩ }
  exact past.owned h rfl rfl fits

theorem Owned.advance (h : s.Owned g) (pc : s.reader = .advance) (choice : Choice) : (s.readerStep g choice).Owned g := by
  have fits := h.reader
  rw [pc] at fits
  simp only [readerStep, pc]
  exact h.past (by simp [pc]) fits.1 fits.2 .idle trivial

theorem Owned.refReleased (h : s.Owned g) (pc : s.reader = .refReleased j) (choice : Choice) :
    (s.readerStep g choice).Owned g := by
  have fits := h.reader
  rw [pc] at fits
  obtain ⟨less, given, who, behind, near⟩ := fits
  simp only [readerStep, pc]
  exact h.past (by simp [pc]) less (.inr given) (.referring j s.readIndex) ⟨rfl, who, behind, near⟩

/-- The slot read in place is the reader's one. -/
theorem Owned.only_reading (h : s.Owned g) (pc : s.reader = .reading b) {p : Nat} (below : p < g.slots) (other : p ≠ g.pos b) :
    s.owner p ≠ .reading := by
  intro who
  obtain ⟨b', m, _, place, state⟩ := h.fits p below
  rw [who] at state
  have same := state.2.2.2
  rw [pc] at same
  cases same
  exact other place.symm

theorem Owned.reading (h : s.Owned g) (pc : s.reader = .reading b) (choice : Choice) : (s.readerStep g choice).Owned g := by
  have fits := h.reader
  rw [pc] at fits
  obtain ⟨head, who, value⟩ := fits
  have four := g.four_le_slots
  have lower := h.lower
  have state := h.state value (by omega)
  rw [who] at state
  obtain ⟨_, _, lap, _⟩ := state
  simp only [readerStep, pc]
  split
  · have kept : (s.setSequence g b (b + 2) (.kept b)).owner (g.pos b) = .kept b := update_self _ _ _
    apply h.touchRead value
    · omega
    · omega
    · rfl
    · rfl
    · rfl
    · exact fun p other => ⟨update_of_ne other _ _, update_of_ne other _ _, rfl⟩
    · refine ⟨b, 2, update_self _ _ _, rfl, ?_⟩
      dsimp only
      rw [kept]
      exact ⟨.inl rfl, rfl, Nat.le_refl _, by change b < s.writeIndex; omega, by change b ≤ s.writeIndex; omega, lap, by omega⟩
    · omega
    · intro v j lent
      rw [who] at lent
      cases lent
    · intro r j _ _ referred
      rw [who] at referred
      cases referred
    · exact .inr fun p below other => h.only_reading pc below other
    · trivial
    · intro j mem
      rcases List.mem_cons.mp mem with rfl | old
      · exact .inr kept
      · refine .inl ⟨old, ?_⟩
        rw [who]
        simp
    · refine List.nodup_cons.mpr ⟨?_, h.retained_once⟩
      intro mem
      have kept := h.retained b mem
      rw [who] at kept
      cases kept
  · have freed : (s.setSequence g b (b + g.slots) .free).owner (g.pos b) = .free := update_self _ _ _
    apply h.touchRead value
    · omega
    · omega
    · rfl
    · rfl
    · rfl
    · exact fun p other => ⟨update_of_ne other _ _, update_of_ne other _ _, rfl⟩
    · refine ⟨b + g.slots, 0, update_self _ _ _, Geometry.pos_add_slots g _, ?_⟩
      dsimp only
      rw [freed]
      exact ⟨rfl, lap, by change b + g.slots ≤ s.writeIndex + g.slots; omega⟩
    · omega
    · intro v j lent
      rw [who] at lent
      cases lent
    · intro r j _ _ referred
      rw [who] at referred
      cases referred
    · exact .inr fun p below other => h.only_reading pc below other
    · trivial
    · intro j mem
      refine .inl ⟨mem, ?_⟩
      rw [who]
      simp
    · exact h.retained_once

theorem Owned.referring (h : s.Owned g) {r : Nat} (pc : s.reader = .referring j r) (choice : Choice) :
    (s.readerStep g choice).Owned g := by
  have idle : ∀ b, s.reader ≠ .reading b := by simp [pc]
  have fits := h.reader
  rw [pc] at fits
  simp only [readerStep, pc]
  split
  · split
    · exact (h.setReader idle (.readingRef j) fits.2.1).same rfl rfl rfl rfl rfl rfl rfl rfl
    · exact h.setReader idle (.readingRef j) fits.2.1
  · exact h.setReader idle .idle trivial

/-- A held slot that is no writer's, and that no reference is for, changes hands. -/
theorem Owned.touchHeld (h : s.Owned g) (value : s.sequence (g.pos j) = b + m) (held : s.Held g b m j)
    (who : s.owner (g.pos j) = .referring j ∨ s.owner (g.pos j) = .kept j)
    (write : s'.writeIndex = s.writeIndex) (read : s'.readIndex = s.readIndex) (writers : s'.writers = s.writers)
    (others : ∀ p, p ≠ g.pos j → s'.sequence p = s.sequence p ∧ s'.owner p = s.owner p ∧ s'.cell p = s.cell p)
    (here : s'.Fits g (g.pos j)) (passed : b = s.writeIndex → s'.Passed g b)
    (reading : s'.reader = s.reader ∨ ∀ i, s.reader ≠ .reading i) (pc : s'.ReaderFits g s'.reader)
    (retained : ∀ i ∈ s'.retained, i ∈ s.retained ∧ i ≠ j ∨ s'.owner (g.pos i) = .kept i)
    (once : s'.retained.Nodup) : s'.Owned g := by
  have phase := held.phase
  rw [held.same] at value who others here
  apply h.touchRead value (by omega) (by omega) write read writers others here (fun _ => passed)
  · intro v i lent
    rcases who with referring | kept
    · rw [referring] at lent
      cases lent
    · rw [kept] at lent
      cases lent
  · intro r i _ _ referred
    rcases who with referring | kept
    · rw [referring] at referred
      cases referred
    · rw [kept] at referred
      cases referred
  · rcases reading with same | idle
    · exact .inl same
    · exact .inr fun p below _ => h.unless_reading idle below
  · exact pc
  · intro i mem
    rcases retained i mem with ⟨old, other⟩ | new
    · refine .inl ⟨old, ?_⟩
      intro kept
      rcases who with referring | kept'
      · rw [referring] at kept
        cases kept
      · rw [kept'] at kept
        cases kept
        exact other rfl
    · exact .inr new
  · exact once

/-- What is held of a slot the reader reads by reference or has kept. -/
theorem Owned.held (h : s.Owned g) (who : s.owner (g.pos j) = .referring j ∨ s.owner (g.pos j) = .kept j) :
    ∃ b m, s.sequence (g.pos j) = b + m ∧ s.Held g b m j := by
  obtain ⟨b, m, value, _, state⟩ := h.fits _ (g.pos_lt j)
  rcases who with referring | kept
  · rw [referring] at state
    exact ⟨b, m, value, state.1⟩
  · rw [kept] at state
    exact ⟨b, m, value, state⟩

/-- A held slot is given back to the writers. -/
theorem Owned.unhold (h : s.Owned g) (who : s.owner (g.pos j) = .referring j ∨ s.owner (g.pos j) = .kept j) {pc : ReaderPc}
    {kept : List Nat} (reading : pc = s.reader ∨ ∀ i, s.reader ≠ .reading i)
    (fits : { s.unhold g j with reader := pc, retained := kept }.ReaderFits g pc)
    (retained : ∀ i ∈ kept, i ∈ s.retained ∧ i ≠ j) (once : kept.Nodup) :
    { s.unhold g j with reader := pc, retained := kept }.Owned g := by
  obtain ⟨b, m, value, held⟩ := h.held who
  have there := held.same
  rw [unhold_eq value held] at fits ⊢
  have freed : (s.setSequence g j (b + g.slots) .free).owner (g.pos j) = .free := update_self _ _ _
  have given : (s.setSequence g j (b + g.slots) .free).sequence (g.pos b) = b + g.slots := by
    rw [← there]
    exact update_self _ _ _
  apply h.touchHeld value held who
  · rfl
  · rfl
  · rfl
  · exact fun p other => ⟨update_of_ne other _ _, update_of_ne other _ _, rfl⟩
  · refine ⟨b + g.slots, 0, update_self _ _ _, by rw [Geometry.pos_add_slots, there], ?_⟩
    dsimp only
    rw [freed]
    exact ⟨rfl, held.lower, Nat.add_le_add_right held.upper _⟩
  · exact fun _ => .inr (.inr given)
  · exact reading
  · exact fits
  · exact fun i mem => .inl (retained i mem)
  · exact once

theorem Owned.readingRef (h : s.Owned g) (pc : s.reader = .readingRef j) (choice : Choice) :
    (s.readerStep g choice).Owned g := by
  have idle : ∀ b, s.reader ≠ .reading b := by simp [pc]
  have who := h.reader
  rw [pc] at who
  have unkept : j ∉ s.retained := by
    intro mem
    have kept := h.retained j mem
    rw [who] at kept
    cases kept
  simp only [readerStep, pc]
  split
  · obtain ⟨b, m, value, held⟩ := h.held (.inl who)
    apply h.touchHeld value held (.inl who)
    · rfl
    · rfl
    · rfl
    · exact fun p other => ⟨rfl, update_of_ne other _ _, rfl⟩
    · refine ⟨b, m, value, held.same.symm, ?_⟩
      dsimp only
      rw [update_self]
      exact held.carry (Nat.le_refl s.writeIndex) (Nat.le_refl s.readIndex) id
    · intro _
      have phase := held.phase
      change s.sequence (g.pos b) = b + 2 ∨ s.sequence (g.pos b) = b + 3 ∨ s.sequence (g.pos b) = b + g.slots
      rw [← held.same, value]
      omega
    · exact .inr idle
    · trivial
    · intro i mem
      rcases List.mem_cons.mp mem with rfl | old
      · exact .inr (update_self _ _ _)
      · refine .inl ⟨old, ?_⟩
        rintro rfl
        exact unkept old
    · exact List.nodup_cons.mpr ⟨unkept, h.retained_once⟩
  · refine h.unhold (.inl who) (.inr idle) trivial ?_ h.retained_once
    intro i mem
    refine ⟨mem, ?_⟩
    rintro rfl
    exact unkept mem

theorem Owned.readerStep (h : s.Owned g) (choice : Choice) : (s.readerStep g choice).Owned g := by
  cases pc : s.reader with
  | idle =>
    simp only [Ring.readerStep, pc]
    exact h.look (by simp [pc])
  | looked sequence => exact h.looked pc choice
  | passing => exact h.passing pc choice
  | advance => exact h.advance pc choice
  | reading index => exact h.reading pc choice
  | refReleased index => exact h.refReleased pc choice
  | referring index ref => exact h.referring pc choice
  | readingRef index => exact h.readingRef pc choice

/-! ## The application -/

theorem Owned.release (h : s.Owned g) (mem : j ∈ s.retained) :
    { s.unhold g j with retained := s.retained.erase j }.Owned g := by
  have who := h.retained j mem
  obtain ⟨b, m, value, held⟩ := h.held (.inr who)
  have phase := held.phase
  refine h.unhold (.inr who) (.inl rfl) ?_ ?_ (h.retained_once.erase j)
  · rw [unhold_eq value held]
    have given : (s.setSequence g j (b + g.slots) .free).sequence (g.pos b) = b + g.slots := by
      rw [← held.same]
      exact update_self _ _ _
    have touch : Touch g s { s.setSequence g j (b + g.slots) .free with retained := s.retained.erase j } (g.pos j) b m := {
      write := rfl
      read := rfl
      others := fun p other => ⟨update_of_ne other _ _, update_of_ne other _ _, rfl⟩
      value := value
      here := held.same.symm
      small := held.phase_lt
      claimed := by omega
      passed := fun _ _ => .inr (.inr given) }
    apply touch.reader h.reader h.upper (by omega)
    · rintro _ rfl
      exact .inr given
    · rw [who]
      simp
    · intro i referring
      rw [who] at referring
      cases referring
  · intro i old
    refine ⟨List.mem_of_mem_erase old, ?_⟩
    rintro rfl
    exact h.retained_once.not_mem_erase old

/-- The application's change of a slot lent to it. -/
theorem Owned.touchLent (h : s.Owned g) (mem : j ∈ (s.writers w).claims) (write : s'.writeIndex = s.writeIndex)
    (read : s'.readIndex = s.readIndex) (reader : s'.reader = s.reader) (retained : s'.retained = s.retained)
    (sequence : s'.sequence = s.sequence) (owner : s'.owner = s.owner)
    (cell : ∀ p, p ≠ g.pos j → s'.cell p = s.cell p) (writers : ∀ v, v ≠ w → s'.writers v = s.writers v)
    (pc : s'.WriterFits g w (s'.writers w).pc) (claims : ∀ i ∈ (s'.writers w).claims, i ∈ (s.writers w).claims)
    (once : (s'.writers w).claims.Nodup) : s'.Owned g := by
  have who := h.claims w j mem
  obtain ⟨b, m, value, held, unread⟩ := h.lent who
  have phase := held.phase
  have passed : s.Passed g b := by
    unfold Passed
    rw [← held.same, value]
    omega
  have touch : Touch g s s' (g.pos j) b m := {
    write := write
    read := read
    others := fun p other => ⟨by rw [sequence], by rw [owner], cell p other⟩
    value := value
    here := held.same.symm
    small := held.phase_lt
    claimed := by omega
    passed := fun _ _ => by
      unfold Passed
      rw [sequence]
      exact passed }
  apply touch.byWriter h reader retained writers _ (.inr (.inl ⟨j, who⟩)) _ pc _ once
  · refine ⟨b, m, by rw [sequence]; exact value, held.same.symm, ?_⟩
    rw [owner, who]
    refine ⟨held.carry write.ge read.ge (by rw [write]; exact id), ?_⟩
    rw [read]
    exact unread
  · rintro three rfl
    left
    rw [read, sequence, ← held.same, value, three]
  · intro i old
    rw [owner]
    exact h.claims w i (claims i old)

theorem Owned.fill (h : s.Owned g) (mem : j ∈ (s.writers w).claims) (d : δ) : (s.setCell g j (.datagram d)).Owned g := by
  have who := h.claims w j mem
  refine h.touchLent mem rfl rfl rfl rfl rfl rfl ?_ ?_ ?_ ?_ ?_
  · exact fun p other => update_of_ne other _ _
  · exact fun _ _ => rfl
  · apply WriterFits.carry (h.writer w)
    · exact Nat.le_refl s.writeIndex
    · exact Nat.le_refl s.readIndex
    · exact fun _ free => free
    · exact fun _ pass => pass
    · intro i returned
      refine ⟨returned, update_of_ne ?_ _ _⟩
      intro there
      have lent := returned.1
      rw [there, who] at lent
      cases lent
      exact returned.2 mem
    · intro p own
      refine ⟨own, rfl, update_of_ne ?_ _ _⟩
      rintro rfl
      rw [who] at own
      cases own
  · exact fun _ old => old
  · exact h.once w

theorem Owned.start (h : s.Owned g) (op : Op δ) : (s.start g w op).Owned g := by
  unfold Ring.start
  split
  · exact h.setPc _ (by simp [WriterFits, Mine])
  · exact h.setPc _ (by simp [WriterFits, Mine])
  · exact h.setPc _ trivial
  · rename_i index d _
    split
    · rename_i mem
      refine h.touchLent mem rfl rfl rfl rfl rfl rfl ?_ ?_ ?_ ?_ ?_
      · exact fun p other => update_of_ne other _ _
      · exact fun v other => update_of_ne other _ _
      · simp only [update_self]
        refine ⟨⟨h.claims w index mem, ?_⟩, d, update_self _ _ _⟩
        simp only [update_self]
        exact (h.once w).not_mem_erase
      · intro i old
        simp only [update_self] at old
        exact List.mem_of_mem_erase old
      · simp only [update_self]
        exact (h.once w).erase index
    · exact h
  · rename_i index _
    split
    · rename_i mem
      refine h.touchLent mem rfl rfl rfl rfl rfl rfl ?_ ?_ ?_ ?_ ?_
      · exact fun _ _ => rfl
      · exact fun v other => update_of_ne other _ _
      · simp only [update_self]
        refine ⟨h.claims w index mem, ?_⟩
        simp only [update_self]
        exact (h.once w).not_mem_erase
      · intro i old
        simp only [update_self] at old
        exact List.mem_of_mem_erase old
      · simp only [update_self]
        exact (h.once w).erase index
    · exact h
  · exact h

/-! ## Runs -/

theorem Owned.step (h : s.Owned g) (event : RingEvent δ) (timely : s.Timely g event) : (s.step g event).Owned g := by
  cases event with
  | start w op => exact h.start op
  | fill w index d =>
    simp only [Ring.step]
    split
    · exact h.fill ‹_› d
    · exact h
  | writer w spurious => exact h.writerStep timely
  | reader choice => exact h.readerStep choice
  | release index =>
    simp only [Ring.step]
    split
    · exact h.release ‹_›
    · exact h

/-- In every run in which no index comes round while a writer has it loaded, every slot is whose it is said to be. -/
theorem owned_after {events : List (RingEvent δ)} (timely : Run.Sound (step g) (Timely g) create events) :
    (Run.after (step g) create events).Owned g :=
  Run.keeps (fun _ event h timely => h.step event timely) create_owned timely

end Ring

end Segment

end Tickle
