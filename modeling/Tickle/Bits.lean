import Mathlib

/-! # Bits in a row of words

A row of 64-bit words read as one string of bits, word 0 first and each word from its lowest bit:

* two rows with the same bits are the same row (`ext_bit`), and a word is zero when its bits are clear (`word_eq_zero`);
* a loop that rewrites a row in place from word 0 up, and reads only what it has not rewritten yet, rewrites each word
  from the row it was given (`sweep_apply`);
* the bits set among the first words are counted a word at a time (`count_words`).
-/

namespace Bits

abbrev Words := Nat → BitVec 64

def bit (b : Words) (i : Nat) : Bool := (b (i / 64)).getLsbD (i % 64)

def none_ : Words := fun _ => 0

@[simp] theorem bit_none (i : Nat) : bit none_ i = false := BitVec.getLsbD_zero

theorem getLsbD_eq_bit (b : Words) (w : Nat) {k : Nat} (within : k < 64) : (b w).getLsbD k = bit b (64 * w + k) := by
  have word : (64 * w + k) / 64 = w := by omega
  have place : (64 * w + k) % 64 = k := by omega
  rw [bit, word, place]

theorem word_ext {b b' : Words} {w : Nat} (same : ∀ k < 64, bit b (64 * w + k) = bit b' (64 * w + k)) : b w = b' w := by
  apply BitVec.eq_of_getLsbD_eq
  intro k within
  rw [getLsbD_eq_bit b w within, getLsbD_eq_bit b' w within]
  exact same k within

theorem ext_bit {b b' : Words} (same : ∀ i, bit b i = bit b' i) : b = b' :=
  funext fun _ => word_ext fun _ _ => same _

theorem word_eq_zero {b : Words} {w : Nat} : b w = 0 ↔ ∀ k < 64, bit b (64 * w + k) = false := by
  constructor
  · intro zero k within
    rw [← getLsbD_eq_bit b w within, zero]
    exact BitVec.getLsbD_zero
  · intro clear
    have same : b w = none_ w := by
      apply word_ext
      intro k within
      rw [clear k within, bit_none]
    exact same

/-- The words from `n` on are zero when the bits from `64 * n` on are clear. -/
theorem words_eq_zero {b : Words} {n : Nat} : (∀ w, n ≤ w → b w = 0) ↔ ∀ i, 64 * n ≤ i → bit b i = false := by
  constructor
  · intro zero i past
    have word := word_eq_zero.mp (zero (i / 64) (by omega)) (i % 64) (by omega)
    rwa [Nat.div_add_mod] at word
  · intro clear w past
    exact word_eq_zero.mpr fun k _ => clear _ (by omega)

/-- Bits of a row with one word written. -/
theorem bit_update (b : Words) (w : Nat) (x : BitVec 64) (i : Nat) :
    bit (Function.update b w x) i = if i / 64 = w then x.getLsbD (i % 64) else bit b i := by
  unfold bit
  by_cases here : i / 64 = w
  · rw [if_pos here, here, Function.update_self]
  · rw [if_neg here, Function.update_of_ne here]

/-! ## Loops in place -/

section Sweep

variable {α : Type*}

/-- `for (i = 0; i < n; i++) b[i] = f(b, i)`. -/
def sweep (f : (Nat → α) → Nat → α) : Nat → (Nat → α) → Nat → α
  | 0, b => b
  | n + 1, b => Function.update (sweep f n b) n (f (sweep f n b) n)

/-- What `f` reads for a place is not behind it. -/
def Ahead (f : (Nat → α) → Nat → α) : Prop := ∀ b b' i, (∀ k, i ≤ k → b k = b' k) → f b i = f b' i

theorem sweep_ahead (f : (Nat → α) → Nat → α) (n : Nat) (b : Nat → α) {i : Nat} (past : n ≤ i) :
    sweep f n b i = b i := by
  induction n with
  | zero => rfl
  | succ n ih =>
    rw [sweep, Function.update_of_ne (by omega)]
    exact ih (by omega)

theorem sweep_apply {f : (Nat → α) → Nat → α} (reads : Ahead f) (n : Nat) (b : Nat → α) (i : Nat) :
    sweep f n b i = if i < n then f b i else b i := by
  induction n with
  | zero => rfl
  | succ n ih =>
    rw [sweep]
    by_cases here : i = n
    · subst here
      rw [Function.update_self, if_pos (Nat.lt_succ_self i)]
      exact reads _ _ i fun k past => sweep_ahead f i b past
    · rw [Function.update_of_ne here, ih]
      by_cases before : i < n
      · rw [if_pos before, if_pos (by omega)]
      · rw [if_neg before, if_neg (by omega)]

end Sweep

/-! ## Counting -/

/-- `__builtin_popcountll`. -/
def popcount (x : BitVec 64) : Nat := Nat.count (fun k => x.getLsbD k = true) 64

theorem popcount_eq (b : Words) (w : Nat) :
    popcount (b w) = Nat.count (fun k => bit b (64 * w + k) = true) 64 := by
  unfold popcount
  rw [Nat.count_eq_card_filter_range, Nat.count_eq_card_filter_range]
  congr 1
  apply Finset.filter_congr
  intro k member
  rw [getLsbD_eq_bit b w (Finset.mem_range.mp member)]

theorem count_words (b : Words) (n : Nat) :
    ((List.range n).map fun w => popcount (b w)).sum = Nat.count (fun i => bit b i = true) (64 * n) := by
  induction n with
  | zero => rfl
  | succ n ih =>
    rw [List.range_succ, List.map_append, List.sum_append, ih, Nat.mul_succ, Nat.count_add, ← popcount_eq]
    simp

/-! ## The highest bit -/

/-- The highest bit set below `n`, or -1. -/
def top (x : BitVec 64) : Nat → Int
  | 0 => -1
  | n + 1 => if x.getLsbD n then n else top x n

theorem top_spec (x : BitVec 64) (n : Nat) : (∀ k < n, x.getLsbD k = true → (k : Int) ≤ top x n) ∧
    (top x n = -1 ∨ ∃ k < n, top x n = k ∧ x.getLsbD k = true) := by
  induction n with
  | zero => exact ⟨fun k below => absurd below (Nat.not_lt_zero k), Or.inl rfl⟩
  | succ n ih =>
    obtain ⟨bounds, found⟩ := ih
    unfold top
    by_cases set : x.getLsbD n = true
    · rw [if_pos set]
      exact ⟨fun k below _ => by omega, Or.inr ⟨n, Nat.lt_succ_self n, rfl, set⟩⟩
    · rw [if_neg set]
      constructor
      · intro k below here
        by_cases last : k = n
        · exact absurd (last ▸ here) set
        · exact bounds k (by omega) here
      · obtain none_ | ⟨k, below, same, here⟩ := found
        · exact Or.inl none_
        · exact Or.inr ⟨k, by omega, same, here⟩

end Bits
