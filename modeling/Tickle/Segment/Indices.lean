import Mathlib

/-! # The indices of a ring

A ring's words are indices modulo 2^32, and an index has its slot modulo the ring's slots. Indices closer
than 2^32 are told apart by their words (`word_eq_iff`), and a lap of indices by their slots (`pos_inj`).
-/

namespace Tickle

namespace Segment

/-- An index as the ring has it. -/
def word (n : Nat) : BitVec 32 := BitVec.ofNat 32 n

theorem word_toNat (n : Nat) : (word n).toNat = n % 2 ^ 32 := BitVec.toNat_ofNat n 32

theorem word_eq_iff {a b : Nat} (h : a < b + 2 ^ 32) (h' : b < a + 2 ^ 32) : word a = word b ↔ a = b := by
  constructor
  · intro same
    have mods := congrArg BitVec.toNat same
    rw [word_toNat, word_toNat] at mods
    omega
  · exact congrArg word

theorem word_add (a n : Nat) : word a + BitVec.ofNat 32 n = word (a + n) := by
  unfold word
  rw [BitVec.ofNat_add]

theorem sub_word_toNat (a b : Nat) : (word a - word b).toNat = (2 ^ 32 - b % 2 ^ 32 + a % 2 ^ 32) % 2 ^ 32 := by
  rw [BitVec.toNat_sub, word_toNat, word_toNat]

/-- The unsigned difference of an index and an earlier one. -/
theorem sub_word_of_le {a b : Nat} (h : b ≤ a) (near : a < b + 2 ^ 32) : (word a - word b).toNat = a - b := by
  rw [sub_word_toNat]
  omega

/-- The unsigned difference of an index and a later one. -/
theorem sub_word_of_lt {a b : Nat} (h : a < b) (near : b ≤ a + 2 ^ 32) :
    (word a - word b).toNat = (2 ^ 32 - (b - a)) % 2 ^ 32 := by
  rw [sub_word_toNat]
  omega

/-- `sequence - index - 2 <= 1`. -/
theorem sub_two_le_one_iff {a b : Nat} (h : a + 4 < b + 2 ^ 32) (h' : b + 4 < a + 2 ^ 32) :
    word a - word b - 2 ≤ 1 ↔ a = b + 2 ∨ a = b + 3 := by
  have two : word a - word b - 2 = word a - word (b + 2) := by
    have later : word (b + 2) = word b + 2 := (word_add b 2).symm
    rw [later, sub_sub]
  rw [two, BitVec.le_def, show (1 : BitVec 32).toNat = 1 from rfl]
  by_cases before : b + 2 ≤ a
  · rw [sub_word_of_le before (by omega)]
    omega
  · rw [sub_word_of_lt (by omega) (by omega)]
    omega

/-- `slots`, a power of two that `validate_segment_options()` takes. -/
structure Geometry where
  exponent : Nat
  least : 2 ≤ exponent
  most : exponent ≤ 10

namespace Geometry

variable (g : Geometry) {i j : Nat}

def slots : Nat := 2 ^ g.exponent

/-- `segment_slot()`. -/
def pos (index : Nat) : Nat := index % g.slots

theorem four_le_slots : 4 ≤ g.slots := by
  have := Nat.pow_le_pow_right (show 0 < 2 by omega) g.least
  exact this

theorem slots_le : g.slots ≤ 1024 := by
  have := Nat.pow_le_pow_right (show 0 < 2 by omega) g.most
  exact this

theorem slots_dvd : g.slots ∣ 2 ^ 32 := by
  have most := g.most
  exact Nat.pow_dvd_pow 2 (by omega)

theorem pos_lt (i : Nat) : g.pos i < g.slots := by
  have := g.four_le_slots
  exact Nat.mod_lt i (by omega)

@[simp] theorem pos_add_slots (i : Nat) : g.pos (i + g.slots) = g.pos i := Nat.add_mod_right i g.slots

variable {g}

/-- Two indices of one slot within a lap are the same. -/
theorem pos_inj (same : g.pos i = g.pos j) (le : i ≤ j) (near : j < i + g.slots) : i = j := by
  have multiple : g.slots ∣ j - i := (Nat.modEq_iff_dvd' le).mp same
  have := Nat.eq_zero_of_dvd_of_lt multiple (by omega)
  omega

/-- A lap of indices has every slot. -/
theorem pos_in_lap (g : Geometry) (first : Nat) {p : Nat} (below : p < g.slots) :
    ∃ i, first ≤ i ∧ i < first + g.slots ∧ g.pos i = p := by
  have small : g.pos first < g.slots := g.pos_lt first
  have turn : ∀ k, g.pos (first + k) = (g.pos first + k) % g.slots := fun k => (Nat.mod_add_mod first g.slots k).symm
  by_cases before : g.pos first ≤ p
  · refine ⟨first + (p - g.pos first), by omega, by omega, ?_⟩
    rw [turn, show g.pos first + (p - g.pos first) = p by omega]
    exact Nat.mod_eq_of_lt below
  · refine ⟨first + (p + g.slots - g.pos first), by omega, by omega, ?_⟩
    rw [turn, show g.pos first + (p + g.slots - g.pos first) = p + g.slots by omega, Nat.add_mod_right]
    exact Nat.mod_eq_of_lt below

/-- An index of one slot after another is a lap later at least. -/
theorem pos_lap (same : g.pos i = g.pos j) (lt : i < j) : i + g.slots ≤ j := by
  by_contra near
  have := pos_inj same (by omega) (by omega)
  omega

theorem pos_word (i : Nat) : (word i).toNat % g.slots = g.pos i := by
  rw [word_toNat, Nat.mod_mod_of_dvd _ g.slots_dvd]
  rfl

/-- Words of different slots differ. -/
theorem pos_of_word (same : word i = word j) : g.pos i = g.pos j := by
  rw [← pos_word i, ← pos_word j, same]

/-- Where in its lap a later index stands. -/
theorem sub_mod_of_pos {k : Nat} (same : g.pos i = g.pos j) (le : i ≤ j) (small : k < g.slots) :
    (word (j + k) - word i).toNat % g.slots = k := by
  have apart : (word (j + k) - word i).toNat = (j + k - i) % 2 ^ 32 := by
    rw [sub_word_toNat]
    omega
  obtain ⟨m, laps⟩ : g.slots ∣ j - i := (Nat.modEq_iff_dvd' le).mp same
  rw [apart, Nat.mod_mod_of_dvd _ g.slots_dvd, show j + k - i = k + g.slots * m by omega,
    Nat.add_mul_mod_self_left]
  exact Nat.mod_eq_of_lt small

/-- An index and its phase are told from their sum. -/
theorem phase_unique {m n : Nat} (same : g.pos i = g.pos j) (sum : i + m = j + n) (hm : m < 4) (hn : n < 4) :
    i = j ∧ m = n := by
  have four := g.four_le_slots
  rcases Nat.le_total i j with le | le
  · have := pos_inj same le (by omega)
    omega
  · have := pos_inj same.symm le (by omega)
    omega

end Geometry

end Segment

end Tickle
