import Mathlib

/-! # Serial numbers

A 32-bit counter that wraps to 0 and goes on. Two values are compared by their wrapped difference
read as a signed number, which is right while they lie within `2 ^ 31` of each other. `steps a b` is
how many increments lead from `a` to `b`.
-/

/-- A writer's `uint32_t` sequence number. -/
abbrev SeqNo := BitVec 32

namespace Serial

/-- `seq_delta()`: how far `a` lies after `b`, negative when it lies before. -/
def seqDelta (a b : SeqNo) : Int := (a - b).toInt

/-- Increments from `a` to `b`. -/
def steps (a b : SeqNo) : Nat := (b - a).toNat

theorem steps_lt (a b : SeqNo) : steps a b < 2 ^ 32 := (b - a).isLt

@[simp] theorem steps_self (a : SeqNo) : steps a a = 0 := by simp [steps]

theorem steps_eq_zero {a b : SeqNo} : steps a b = 0 ↔ a = b := by
  unfold steps
  bv_omega

theorem seqDelta_neg (a b : SeqNo) : seqDelta a b < 0 ↔ 2 ^ 31 ≤ steps b a := by
  unfold seqDelta steps
  rw [BitVec.toInt_eq_toNat_cond]
  have := (a - b).isLt
  split <;> omega

theorem seqDelta_nonneg (a b : SeqNo) : 0 ≤ seqDelta a b ↔ steps b a < 2 ^ 31 := by
  have := seqDelta_neg a b
  omega

theorem steps_succ_left {a b : SeqNo} (h : a ≠ b) : steps (a + 1) b + 1 = steps a b := by
  unfold steps
  bv_omega

theorem steps_succ_right {a b : SeqNo} (h : steps a b + 1 < 2 ^ 32) :
    steps a (b + 1) = steps a b + 1 := by
  unfold steps at *
  bv_omega

/-- Distances add up as long as the sum does not pass a whole turn. -/
theorem steps_trans {a b c : SeqNo} (h : steps a b + steps b c < 2 ^ 32) :
    steps a c = steps a b + steps b c := by
  unfold steps at *
  bv_omega

/-- `b` lies on the way from `a` to `c`. -/
theorem steps_split {a b c : SeqNo} (h : steps a b ≤ steps a c) :
    steps a c = steps a b + steps b c := by
  unfold steps at *
  bv_omega

theorem steps_split_back {a b c : SeqNo} (h : steps b c ≤ steps a c) :
    steps a c = steps a b + steps b c := by
  unfold steps at *
  bv_omega

/-- `x` lies before `b` on the way from `a`: reaching it from `b` takes the rest of the turn. -/
theorem steps_past {a b x : SeqNo} (h : steps a x < steps a b) :
    steps b x = 2 ^ 32 - (steps a b - steps a x) := by
  unfold steps at *
  bv_omega

theorem steps_swap {a b : SeqNo} (h : a ≠ b) : steps a b + steps b a = 2 ^ 32 := by
  unfold steps
  bv_omega

/-- `n` increments after `a`. -/
def plus (a : SeqNo) (n : Nat) : SeqNo := a + BitVec.ofNat 32 n

theorem steps_plus (a : SeqNo) {n : Nat} (h : n < 2 ^ 32) : steps a (plus a n) = n := by
  unfold steps plus
  bv_omega

/-- Moving on by less than a turn. -/
theorem steps_plus_of {o x : SeqNo} {i : Nat} (h : steps o x + i < 2 ^ 32) :
    steps o (plus x i) = steps o x + i := by
  unfold steps plus at *
  bv_omega

@[simp] theorem plus_zero (a : SeqNo) : plus a 0 = a := by simp [plus]

theorem plus_steps (a b : SeqNo) : plus a (steps a b) = b := by
  unfold steps plus
  bv_omega

theorem plus_succ (a : SeqNo) (n : Nat) : plus a (n + 1) = plus (a + 1) n := by
  unfold plus
  bv_omega

theorem plus_succ_right (a : SeqNo) (n : Nat) : plus a (n + 1) = plus a n + 1 := by
  unfold plus
  bv_omega

theorem steps_succ (a : SeqNo) : steps a (a + 1) = 1 := by
  unfold steps
  bv_omega

theorem sub_succ_le (a b : SeqNo) : (b - a + 1).toNat ≤ steps a b + 1 := by
  unfold steps
  generalize b - a = x
  bv_omega

theorem sub_succ {a b : SeqNo} (h : steps a b + 1 < 2 ^ 32) :
    (b - a + 1).toNat = steps a b + 1 := by
  unfold steps at *
  generalize b - a = x at *
  bv_omega

theorem plus_add (a : SeqNo) (m n : Nat) : plus a (m + n) = plus (plus a m) n := by
  unfold plus
  bv_omega

theorem plus_right_cancel {a b : SeqNo} {n : Nat} (h : plus a n = plus b n) : a = b := by
  unfold plus at h
  exact (BitVec.add_left_inj _).mp h

/-! ## Signed distances -/

theorem seqDelta_self (a : SeqNo) : seqDelta a a = 0 := by simp [seqDelta]

theorem seqDelta_range (a b : SeqNo) : -2 ^ 31 ≤ seqDelta a b ∧ seqDelta a b < 2 ^ 31 := by
  unfold seqDelta
  constructor
  · simpa using BitVec.le_toInt (a - b)
  · simpa using BitVec.toInt_lt (x := a - b)

/-- Signed distances add up as long as the sum stays in range. -/
theorem seqDelta_add {a b c : SeqNo} (h : -2 ^ 31 ≤ seqDelta a b + seqDelta b c)
    (h' : seqDelta a b + seqDelta b c < 2 ^ 31) : seqDelta a c = seqDelta a b + seqDelta b c := by
  unfold seqDelta at *
  have hsum : a - c = (a - b) + (b - c) := by bv_omega
  rw [hsum, BitVec.toInt_add]
  exact Int.bmod_eq_of_le (by simpa using h) (by simpa using h')

theorem seqDelta_eq_steps {a b : SeqNo} (h : steps b a < 2 ^ 31) : seqDelta a b = steps b a := by
  unfold seqDelta steps at *
  rw [BitVec.toInt_eq_toNat_cond]
  split <;> omega

theorem seqDelta_eq_neg_steps {a b : SeqNo} (h0 : 0 < steps a b) (h : steps a b ≤ 2 ^ 31) :
    seqDelta a b = -(steps a b : Int) := by
  have hne : a ≠ b := by rintro rfl; simp at h0
  have hswap := steps_swap hne
  unfold seqDelta steps at *
  rw [BitVec.toInt_eq_toNat_cond]
  split <;> omega

theorem seqDelta_swap {a b : SeqNo} (h : seqDelta a b ≠ -2 ^ 31) :
    seqDelta b a = -seqDelta a b := by
  have hr := seqDelta_range a b
  unfold seqDelta at *
  have hneg : b - a = -(a - b) := by bv_omega
  rw [hneg, BitVec.toInt_neg]
  exact Int.bmod_eq_of_le (by simp only [Nat.reducePow]; omega) (by omega)

/-- Two values near one origin compare by their distances from it. -/
theorem seqDelta_sub {a b o : SeqNo} (h : -2 ^ 31 ≤ seqDelta a o - seqDelta b o)
    (h' : seqDelta a o - seqDelta b o < 2 ^ 31) (hb : seqDelta b o ≠ -2 ^ 31) :
    seqDelta a b = seqDelta a o - seqDelta b o := by
  have hs := seqDelta_swap hb
  rw [@seqDelta_add a o b (by omega) (by omega), hs]
  omega

theorem seqDelta_plus (a : SeqNo) {n : Nat} (h : n < 2 ^ 31) : seqDelta (plus a n) a = n := by
  have h1 := steps_plus a (n := n) (by omega)
  rw [seqDelta_eq_steps (by omega), h1]

end Serial
