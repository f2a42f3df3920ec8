import Tickle.Segment.Records

/-! # Refused claims

`segment_claim()` gives up at an index that it has loaded from `write_index` a moment before. While that is still `write_index`, no slot
is left for it: each stands at an index the reader has not passed, or is being read. Once another writer has moved `write_index` on, the
slots behind it may be free.
-/

namespace Tickle

namespace Segment

namespace Ring

variable {δ : Type} {g : Geometry} {s : Ring δ} {w c : Nat}

variable (g s) in
/-- A writer's next step gives its claim up, at `c`: it is done, or has its own slot to give back. -/
def GivesUp (w c : Nat) (spurious : Bool) : Prop :=
  ∃ t, ((s.writers w).pc = .range t c ∨ (s.writers w).pc = .check t c) ∧
    (((s.writerStep g w spurious).writers w).pc = .idle ∨ ∃ j, ((s.writerStep g w spurious).writers w).pc = .giveBack j)

/-- A claim is given up when the ring is full by its indices, or when the slot is neither free nor passed over. -/
theorem givesUp_cases {spurious : Bool} (gives : s.GivesUp g w c spurious) :
    (∃ t, (s.writers w).pc = .range t c ∧ g.slots ≤ (word c - word s.readIndex).toNat) ∨
    ∃ t, (s.writers w).pc = .check t c ∧ word (s.sequence (g.pos c)) ≠ word c ∧
      ¬ word (s.sequence (g.pos c)) - (word c - BitVec.ofNat 32 g.slots) - 2 ≤ 1 ∧ ¬ seqPassed g (s.sequence (g.pos c)) c = true := by
  have goesOn : ∀ pc : WriterPc δ, pc ≠ .idle → (∀ j, pc ≠ .giveBack j) →
      ¬ (((s.setPc w pc).writers w).pc = .idle ∨ ∃ j, ((s.setPc w pc).writers w).pc = .giveBack j) := by
    intro pc busy keeps
    rw [setPc_pc]
    rintro (idle | ⟨j, back⟩)
    · exact busy idle
    · exact keeps j back
  obtain ⟨t, pc | pc, ended⟩ := gives
  · refine .inl ⟨t, pc, ?_⟩
    by_contra room
    simp only [writerStep, pc] at ended
    rw [if_neg room] at ended
    exact goesOn _ (by simp) (by simp) ended
  · refine .inr ⟨t, pc, ?_⟩
    simp only [writerStep, pc] at ended
    refine ⟨?_, ?_, ?_⟩
    · intro free
      rw [if_pos free] at ended
      exact goesOn _ (by simp) (by simp) ended
    · intro marked
      rw [if_pos marked] at ended
      split at ended
      · exact goesOn _ (by simp) (by simp) ended
      · exact goesOn _ (by simp) (by simp) ended
    · intro passed
      rw [if_pos passed] at ended
      split at ended
      · exact goesOn _ (by simp) (by simp) ended
      · split at ended
        · exact goesOn _ (by simp) (by simp) ended
        · exact goesOn _ (by simp) (by simp) ended

variable (g s) in
/-- Every slot stands at an index that the reader has not passed, or is being read in place. -/
def NoRoom : Prop :=
  ∀ p < g.slots, (∃ i, s.readIndex ≤ i ∧ i < s.writeIndex ∧ g.pos i = p) ∨ ∃ b, s.reader = .reading b ∧ g.pos b = p

/-- The slot at `write_index` is not to be had only while it is being read. -/
theorem Owned.reading_at (h : s.Owned g) (room : s.writeIndex < s.readIndex + g.slots)
    (taken : s.sequence (g.pos s.writeIndex) ≠ s.writeIndex) (unmarked : s.sequence (g.pos s.writeIndex) + g.slots ≠ s.writeIndex + 2 ∧
      s.sequence (g.pos s.writeIndex) + g.slots ≠ s.writeIndex + 3) (current : ¬ s.Passed g s.writeIndex) :
    ∃ b, s.reader = .reading b ∧ b + g.slots = s.writeIndex := by
  have four := g.four_le_slots
  obtain ⟨b, m, value, place, state⟩ := h.fits _ (g.pos_lt s.writeIndex)
  unfold Passed at current
  rw [value] at taken unmarked current
  have held : ∀ j, ¬ s.Held g b m j := by
    intro j hold
    have phase := hold.phase
    have upper := hold.upper
    have lower := hold.lower
    by_cases here : b = s.writeIndex
    · omega
    · have := Geometry.pos_lap place (by omega)
      omega
  have ahead : b < s.writeIndex → b + g.slots ≤ s.writeIndex := fun before => Geometry.pos_lap place before
  cases who : s.owner (g.pos s.writeIndex) with
  | free =>
    rw [who] at state
    obtain ⟨zero, least, most⟩ := state
    by_cases here : b = s.writeIndex
    · omega
    · have := Geometry.pos_lap place.symm (by omega)
      omega
  | filling v =>
    rw [who] at state
    have := ahead state.2.2
    have := state.2.1
    omega
  | unread =>
    rw [who] at state
    have := ahead state.2.2.1
    have := state.2.1
    omega
  | reading =>
    rw [who] at state
    obtain ⟨_, head, lap, reading⟩ := state
    have lower := h.lower
    have := ahead (by omega)
    exact ⟨b, reading, by omega⟩
  | lent v j | referred r j | referring j =>
    rw [who] at state
    exact absurd state.1 (held j)
  | kept j =>
    rw [who] at state
    exact absurd state (held j)

/-- A claim given up at what is still `write_index` finds no slot. -/
theorem Owned.noRoom (h : s.Owned g) {spurious : Bool} (gives : s.GivesUp g w s.writeIndex spurious) : s.NoRoom g := by
  have four := g.four_le_slots
  have slots := g.slots_le
  have lower := h.lower
  have upper := h.upper
  intro p below
  rcases givesUp_cases gives with ⟨t, pc, full⟩ | ⟨t, pc, taken, unmarked, current⟩
  · rw [sub_word_of_le (by omega) (by omega)] at full
    obtain ⟨i, least, most, there⟩ := g.pos_in_lap s.readIndex below
    exact .inl ⟨i, least, by omega, there⟩
  · have fits := h.writer w
    rw [pc] at fits
    obtain ⟨least, limit⟩ := h.near s.writeIndex
    have lap : word (s.sequence (g.pos s.writeIndex)) - (word s.writeIndex - BitVec.ofNat 32 g.slots) =
        word (s.sequence (g.pos s.writeIndex) + g.slots) - word s.writeIndex := by
      rw [← word_add]
      abel
    rw [lap, sub_two_le_one_iff (by omega) (by omega)] at unmarked
    simp only [seqPassed, Bool.or_eq_true, decide_eq_true_eq] at current
    rw [word_add, sub_two_le_one_iff (by omega) (by omega), word_eq_iff (by omega) (by omega)] at current
    rw [Ne, word_eq_iff (by omega) (by omega)] at taken
    obtain ⟨b, reading, turn⟩ := h.reading_at fits.2.2.2 taken (by omega) (by unfold Passed; omega)
    obtain ⟨i, first, last, there⟩ := g.pos_in_lap b below
    by_cases here : i = b
    · exact .inr ⟨b, reading, by rw [← here]; exact there⟩
    · have state := h.reader
      rw [reading] at state
      have head := state.1
      exact .inl ⟨i, by omega, by omega, there⟩

theorem Owned.givesUp_le (h : s.Owned g) {spurious : Bool} (gives : s.GivesUp g w c spurious) : c ≤ s.writeIndex := by
  have fits := h.writer w
  obtain ⟨t, pc | pc, -⟩ := gives
  · rw [pc] at fits
    exact fits.2.2
  · rw [pc] at fits
    exact fits.2.2.1

theorem two_le_ten : 2 ≤ 10 := by decide

/-- The least ring. -/
def fourSlots : Geometry := ⟨2, Nat.le_refl 2, two_le_ten⟩

/-- A writer's way to a slot and through it: it sets out, loads `write_index` and `read_index`, looks at the slot, claims, fills and
publishes it. -/
def written (w : Nat) (d : δ) : List (RingEvent δ) :=
  [.start w (.write d), .writer w false, .writer w false, .writer w false, .writer w false, .writer w false, .writer w false]

/-- Four records, and one more. -/
def filledUp : List (RingEvent Nat) :=
  written 0 1 ++ written 0 2 ++ written 0 3 ++ written 0 4 ++ [.start 1 (.write 5), .writer 1 false]

end Ring

end Segment

end Tickle
