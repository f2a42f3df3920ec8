import Tickle.Bits

/-! # The bitmap helpers

`bitmap_*` of the RELIABLE reader, over the words of one writer's window. Each has one lemma that says what it does to
the bits; the loops over words, the carries between them and the masks of a partial word are not looked at again.
-/

namespace Tickle

namespace Reader

open Bits

/-- `tt_RELIABLE_BITMAP_WORD_BITS`. -/
def wordBits : Nat := 64

/-- `1ULL << n`. -/
def oneAt (n : Nat) : BitVec 64 := 1#64 <<< n

/-- `bitmap_clear`. -/
def bitmapClear (bitmap : Words) (words : Nat) : Words := sweep (fun _ _ => 0) words bitmap

/-- `bitmap_lowest_bit_set`. -/
def bitmapLowestBitSet (bitmap : Words) : Bool := bitmap 0 &&& 1 != 0

/-- `bitmap_test_bit`. -/
def bitmapTestBit (bitmap : Words) (offset : Nat) : Bool :=
  bitmap (offset / wordBits) &&& oneAt (offset % wordBits) != 0

/-- `bitmap_clear_bit`. -/
def bitmapClearBit (bitmap : Words) (offset : Nat) : Words :=
  Function.update bitmap (offset / wordBits) (bitmap (offset / wordBits) &&& ~~~(oneAt (offset % wordBits)))

/-- `bitmap_set_bit`. -/
def bitmapSetBit (bitmap : Words) (offset : Nat) : Words :=
  Function.update bitmap (offset / wordBits) (bitmap (offset / wordBits) ||| oneAt (offset % wordBits))

/-- `bitmap_shift_right_one`. -/
def bitmapShiftRightOne (bitmap : Words) (words : Nat) : Words :=
  let carried := sweep (fun (b : Words) word => b word >>> 1 ||| b (word + 1) <<< (wordBits - 1)) (words - 1) bitmap
  Function.update carried (words - 1) (carried (words - 1) >>> 1)

/-- What `bitmap_shift_right` puts in a word. -/
def shiftedWord (words shiftBits : Nat) (bitmap : Words) (word : Nat) : BitVec 64 :=
  let src := word + shiftBits / wordBits
  let bitShift := shiftBits % wordBits
  let value := if src < words then bitmap src >>> bitShift else 0
  if bitShift ≠ 0 ∧ src + 1 < words then value ||| bitmap (src + 1) <<< (wordBits - bitShift) else value

/-- `bitmap_shift_right`. -/
def bitmapShiftRight (bitmap : Words) (words shiftBits : Nat) : Words :=
  sweep (shiftedWord words shiftBits) words bitmap

/-- `bitmap_highest_bit`. -/
def bitmapHighestBit (bitmap : Words) : (words : Nat) → Int
  | 0 => -1
  | word + 1 => if bitmap word = 0 then bitmapHighestBit bitmap word else wordBits * word + top (bitmap word) wordBits

/-- `bitmap_low_mask`. -/
def bitmapLowMask (words : Nat) (highest : Int) : Words :=
  if highest < 0 then none_
  else
    let fullWords := (highest.toNat + 1) / wordBits
    let remainingBits := (highest.toNat + 1) % wordBits
    let full : Words := fun word => if word < fullWords ∧ word < words then BitVec.allOnes 64 else 0
    if remainingBits ≠ 0 ∧ fullWords < words then Function.update full fullWords (oneAt remainingBits - 1) else full

/-- The bits of a word up to `last`. -/
def onesUpto (last : Int) : BitVec 64 := if last = wordBits - 1 then BitVec.allOnes 64 else oneAt (last + 1).toNat - 1

/-- `bitmap_range_in_word`. -/
def bitmapRangeInWord (word : Nat) (low high : Int) : BitVec 64 :=
  let base : Int := word * wordBits
  let first := if low > base then low - base else 0
  let last := if high - base < wordBits - 1 then high - base else wordBits - 1
  if low > high ∨ first > last then 0
  else
    onesUpto last &&& ~~~(oneAt first.toNat - 1)

/-! ## What they do to the bits -/

theorem getLsbD_oneAt (n : Nat) {k : Nat} (within : k < 64) : (oneAt n).getLsbD k = decide (k = n) := by
  unfold oneAt
  rw [← BitVec.twoPow_eq, BitVec.getLsbD_twoPow]
  by_cases same : k = n
  · subst same
    simp [within]
  · have other : n ≠ k := fun h => same h.symm
    simp [same, other]

theorem getLsbD_oneAt_pred {n : Nat} (below : n < 64) (k : Nat) : (oneAt n - 1).getLsbD k = decide (k < n) := by
  have power : 2 ^ n < 2 ^ 64 := Nat.pow_lt_pow_right (by decide) below
  have positive : 0 < 2 ^ n := Nat.two_pow_pos n
  have number : (oneAt n - 1).toNat = 2 ^ n - 1 := by
    unfold oneAt
    rw [← BitVec.twoPow_eq, BitVec.toNat_sub, BitVec.toNat_twoPow, Nat.mod_eq_of_lt power]
    have one : (1 : BitVec 64).toNat = 1 := rfl
    omega
  rw [← BitVec.testBit_toNat, number, Nat.testBit_two_pow_sub_one]

theorem and_oneAt_ne_zero (x : BitVec 64) {n : Nat} (below : n < 64) : (x &&& oneAt n != 0) = x.getLsbD n := by
  cases set : x.getLsbD n with
  | true =>
    rw [bne_iff_ne]
    intro zero
    have bit := congrArg (BitVec.getLsbD · n) zero
    simp only [BitVec.getLsbD_and, set, getLsbD_oneAt n below, decide_true, Bool.and_self] at bit
    exact absurd bit (by simp)
  | false =>
    have zero : x &&& oneAt n = 0 := by
      apply BitVec.eq_of_getLsbD_eq
      intro k within
      rw [BitVec.getLsbD_and, getLsbD_oneAt n within]
      by_cases same : k = n
      · subst same
        simp [set]
      · simp [same]
    rw [zero]
    rfl

@[simp] theorem bitmapTestBit_eq (bitmap : Words) (offset : Nat) : bitmapTestBit bitmap offset = bit bitmap offset :=
  and_oneAt_ne_zero _ (Nat.mod_lt offset (by decide))

@[simp] theorem bitmapLowestBitSet_eq (bitmap : Words) : bitmapLowestBitSet bitmap = bit bitmap 0 :=
  and_oneAt_ne_zero (bitmap 0) (n := 0) (by decide)

/-- A bit written into a word is a bit of the row. -/
theorem place_eq {i offset : Nat} (word : i / 64 = offset / 64) : i % 64 = offset % 64 ↔ i = offset := by omega

@[simp] theorem bit_setBit (bitmap : Words) (offset i : Nat) :
    bit (bitmapSetBit bitmap offset) i = (decide (i = offset) || bit bitmap i) := by
  unfold bitmapSetBit wordBits
  rw [bit_update]
  by_cases word : i / 64 = offset / 64
  · rw [if_pos word, BitVec.getLsbD_or, getLsbD_oneAt _ (Nat.mod_lt i (by decide)), ← word, Bool.or_comm]
    change (decide (i % 64 = offset % 64) || bit bitmap i) = _
    rw [decide_eq_decide.mpr (place_eq word)]
  · rw [if_neg word]
    have other : i ≠ offset := fun same => word (by rw [same])
    simp [other]

@[simp] theorem bit_clearBit (bitmap : Words) (offset i : Nat) :
    bit (bitmapClearBit bitmap offset) i = (!decide (i = offset) && bit bitmap i) := by
  unfold bitmapClearBit wordBits
  rw [bit_update]
  by_cases word : i / 64 = offset / 64
  · have within : i % 64 < 64 := Nat.mod_lt i (by decide)
    rw [if_pos word, BitVec.getLsbD_and, BitVec.getLsbD_not, getLsbD_oneAt _ within, ← word, Bool.and_comm]
    change (decide (i % 64 < 64) && !decide (i % 64 = offset % 64) && bit bitmap i) = _
    rw [decide_eq_decide.mpr (place_eq word), decide_eq_true within, Bool.true_and]
  · rw [if_neg word]
    have other : i ≠ offset := fun same => word (by rw [same])
    simp [other]

theorem bitmapClear_apply (bitmap : Words) (words word : Nat) :
    bitmapClear bitmap words word = if word < words then 0 else bitmap word :=
  sweep_apply (fun _ _ _ _ => rfl) words bitmap word

@[simp] theorem bit_clear (bitmap : Words) (words i : Nat) :
    bit (bitmapClear bitmap words) i = (!decide (i < 64 * words) && bit bitmap i) := by
  unfold bit
  rw [bitmapClear_apply]
  by_cases before : i < 64 * words
  · rw [if_pos (by omega)]
    simp [before]
  · rw [if_neg (by omega)]
    simp [before]

/-! ## Shifts -/

theorem shiftedWord_ahead (words shiftBits : Nat) : Ahead (shiftedWord words shiftBits) := by
  intro b b' i same
  have here := same (i + shiftBits / wordBits) (Nat.le_add_right i _)
  have next := same (i + shiftBits / wordBits + 1) (Nat.le_add_right_of_le (Nat.le_add_right i _))
  simp only [shiftedWord, here, next]

/-- A word shifted is read from two words of the row. -/
theorem getLsbD_shifted (bitmap : Words) (src shift k : Nat) :
    (bitmap src >>> shift).getLsbD k = (decide (k + shift < 64) && bit bitmap (64 * src + (k + shift))) := by
  rw [BitVec.getLsbD_ushiftRight]
  by_cases here : k + shift < 64
  · rw [Nat.add_comm shift k, getLsbD_eq_bit bitmap src here]
    simp [here]
  · rw [BitVec.getLsbD_of_ge _ _ (by omega)]
    simp [here]

theorem getLsbD_carried (bitmap : Words) (src : Nat) {shift k : Nat} (low : shift < 64) (within : k < 64) :
    (bitmap (src + 1) <<< (64 - shift)).getLsbD k = (decide (64 ≤ k + shift) && bit bitmap (64 * src + (k + shift))) := by
  rw [BitVec.getLsbD_shiftLeft]
  by_cases here : 64 ≤ k + shift
  · have place : k - (64 - shift) < 64 := by omega
    rw [getLsbD_eq_bit bitmap (src + 1) place]
    have same : 64 * (src + 1) + (k - (64 - shift)) = 64 * src + (k + shift) := by omega
    rw [same]
    have below : ¬ k < 64 - shift := by omega
    simp [here, within, below]
  · have below : k < 64 - shift := by omega
    simp [here, below]

theorem getLsbD_shiftedWord (bitmap : Words) (words shiftBits word : Nat) {k : Nat} (within : k < 64) :
    (shiftedWord words shiftBits bitmap word).getLsbD k =
      (decide (64 * word + k + shiftBits < 64 * words) && bit bitmap (64 * word + k + shiftBits)) := by
  have low : shiftBits % 64 < 64 := Nat.mod_lt _ (by decide)
  have place : 64 * (word + shiftBits / 64) + (k + shiftBits % 64) = 64 * word + k + shiftBits := by omega
  have here := getLsbD_shifted bitmap (word + shiftBits / 64) (shiftBits % 64) k
  rw [place] at here
  unfold shiftedWord wordBits
  by_cases inside : word + shiftBits / 64 < words
  · simp only [inside, if_true]
    by_cases carries : shiftBits % 64 ≠ 0 ∧ word + shiftBits / 64 + 1 < words
    · have there := getLsbD_carried bitmap (word + shiftBits / 64) low within
      rw [place] at there
      rw [if_pos carries, BitVec.getLsbD_or, here, there]
      have covered : 64 * word + k + shiftBits < 64 * words := by omega
      by_cases first : k + shiftBits % 64 < 64
      · have notNext : ¬ 64 ≤ k + shiftBits % 64 := by omega
        simp [first, notNext, covered]
      · have next : 64 ≤ k + shiftBits % 64 := by omega
        simp [first, next, covered]
    · rw [if_neg carries, here]
      by_cases first : k + shiftBits % 64 < 64
      · have covered : 64 * word + k + shiftBits < 64 * words := by omega
        simp [first, covered]
      · have past : ¬ 64 * word + k + shiftBits < 64 * words := by omega
        simp [first, past]
  · have noCarry : ¬ (shiftBits % 64 ≠ 0 ∧ word + shiftBits / 64 + 1 < words) := by omega
    have past : ¬ 64 * word + k + shiftBits < 64 * words := by omega
    simp only [inside, if_false, if_neg noCarry]
    simp [past]

@[simp] theorem bit_shiftRight (bitmap : Words) (words shiftBits i : Nat) : bit (bitmapShiftRight bitmap words shiftBits) i =
    if i < 64 * words then decide (i + shiftBits < 64 * words) && bit bitmap (i + shiftBits) else bit bitmap i := by
  have within : i % 64 < 64 := Nat.mod_lt i (by decide)
  have place : 64 * (i / 64) + i % 64 = i := Nat.div_add_mod i 64
  unfold bitmapShiftRight
  rw [bit, sweep_apply (shiftedWord_ahead words shiftBits)]
  by_cases before : i < 64 * words
  · rw [if_pos (by omega), if_pos before, getLsbD_shiftedWord bitmap words shiftBits _ within, place]
  · rw [if_neg (by omega), if_neg before, ← bit]

theorem bit_shiftRightOne (bitmap : Words) {words : Nat} (some_ : words ≠ 0) (i : Nat) :
    bit (bitmapShiftRightOne bitmap words) i =
      if i < 64 * words then decide (i + 1 < 64 * words) && bit bitmap (i + 1) else bit bitmap i := by
  have within : i % 64 < 64 := Nat.mod_lt i (by decide)
  have place : 64 * (i / 64) + (i % 64 + 1) = i + 1 := by omega
  have reads : Ahead fun (b : Words) word => b word >>> 1 ||| b (word + 1) <<< (64 - 1) := by
    intro b b' i same
    simp only [same i (Nat.le_refl i), same (i + 1) (Nat.le_succ i)]
  have one : 1 < 64 := by decide
  unfold bitmapShiftRightOne wordBits
  simp only [bit_update]
  by_cases last : i / 64 = words - 1
  · rw [if_pos last, sweep_ahead _ _ _ (Nat.le_refl _), ← last, getLsbD_shifted, place,
      if_pos (by omega)]
    by_cases more : i + 1 < 64 * words
    · have here : i % 64 + 1 < 64 := by omega
      simp [more, here]
    · have past : ¬ i % 64 + 1 < 64 := by omega
      simp [more, past]
  · rw [if_neg last, bit, sweep_apply reads]
    by_cases before : i / 64 < words - 1
    · rw [if_pos before, BitVec.getLsbD_or, getLsbD_shifted,
        getLsbD_carried bitmap _ one within, place, if_pos (by omega)]
      have more : i + 1 < 64 * words := by omega
      by_cases here : i % 64 + 1 < 64
      · have notNext : ¬ 64 ≤ i % 64 + 1 := by omega
        simp [more, here, notNext]
      · have next : 64 ≤ i % 64 + 1 := by omega
        simp [more, here, next]
    · rw [if_neg before, if_neg (by omega), ← bit]

/-! ## Masks and the highest bit -/

theorem bitmapHighestBit_spec (bitmap : Words) (words : Nat) :
    (∀ i < 64 * words, bit bitmap i = true → (i : Int) ≤ bitmapHighestBit bitmap words) ∧
      (bitmapHighestBit bitmap words = -1 ∨
        ∃ i < 64 * words, bitmapHighestBit bitmap words = i ∧ bit bitmap i = true) := by
  induction words with
  | zero => exact ⟨fun i below => absurd below (Nat.not_lt_zero i), Or.inl rfl⟩
  | succ word ih =>
    obtain ⟨bounds, found⟩ := ih
    unfold bitmapHighestBit
    by_cases zero : bitmap word = 0
    · rw [if_pos zero]
      constructor
      · intro i below set
        by_cases before : i < 64 * word
        · exact bounds i before set
        · have clear := word_eq_zero.mp zero (i - 64 * word) (by omega)
          rw [Nat.add_sub_cancel' (by omega), set] at clear
          exact absurd clear (by decide)
      · obtain none_ | ⟨i, below, same, set⟩ := found
        · exact Or.inl none_
        · exact Or.inr ⟨i, by omega, same, set⟩
    · rw [if_neg zero]
      obtain ⟨highest, there⟩ := top_spec (bitmap word) 64
      obtain ⟨k, below, same, set⟩ : ∃ k : Nat, k < 64 ∧ top (bitmap word) 64 = k ∧ (bitmap word).getLsbD k = true := by
        obtain none_ | found := there
        · exfalso
          apply zero
          apply BitVec.eq_of_getLsbD_eq
          intro k within
          by_contra set
          rw [show BitVec.getLsbD 0 k = false from BitVec.getLsbD_zero, Bool.not_eq_false] at set
          have := highest k within set
          omega
        · exact found
      unfold wordBits
      rw [same]
      constructor
      · intro i past set
        by_cases before : i < 64 * word
        · omega
        · have place : 64 * word + (i - 64 * word) = i := by omega
          have := highest (i - 64 * word) (by omega) (by rw [getLsbD_eq_bit bitmap word (by omega), place]; exact set)
          omega
      · refine Or.inr ⟨64 * word + k, by omega, by push_cast; rfl, ?_⟩
        rw [← getLsbD_eq_bit bitmap word below]
        exact set

@[simp] theorem bit_lowMask (words : Nat) (highest : Int) (i : Nat) :
    bit (bitmapLowMask words highest) i = decide (i < 64 * words ∧ (i : Int) ≤ highest) := by
  have within : i % 64 < 64 := Nat.mod_lt i (by decide)
  unfold bitmapLowMask wordBits
  by_cases negative : highest < 0
  · have past : ¬ (i : Int) ≤ highest := by omega
    simp [negative, past]
  · obtain ⟨h, rfl⟩ := Int.eq_ofNat_of_zero_le (not_lt.mp negative)
    rw [if_neg negative]
    simp only [Int.toNat_natCast, Nat.cast_le]
    have full : bit (fun word => if word < (h + 1) / 64 ∧ word < words then BitVec.allOnes 64 else 0) i =
        decide (i / 64 < (h + 1) / 64 ∧ i / 64 < words) := by
      unfold bit
      by_cases whole : i / 64 < (h + 1) / 64 ∧ i / 64 < words
      · simp only [whole, and_self, if_true, BitVec.getLsbD_allOnes, within, decide_true]
      · simp only [whole, if_false, decide_false]
        exact BitVec.getLsbD_zero
    by_cases partial_ : (h + 1) % 64 ≠ 0 ∧ (h + 1) / 64 < words
    · rw [if_pos partial_, bit_update]
      by_cases here : i / 64 = (h + 1) / 64
      · rw [if_pos here, getLsbD_oneAt_pred (by omega), decide_eq_decide]
        omega
      · rw [if_neg here, full, decide_eq_decide]
        omega
    · rw [if_neg partial_, full, decide_eq_decide]
      omega

theorem getLsbD_onesUpto {last : Int} (first : 0 ≤ last) (most : last < 64) {k : Nat} (within : k < 64) :
    (onesUpto last).getLsbD k = decide ((k : Int) ≤ last) := by
  unfold onesUpto wordBits
  by_cases whole : last = (64 : Nat) - 1
  · rw [if_pos whole, BitVec.getLsbD_allOnes, decide_eq_decide]
    omega
  · rw [if_neg whole, getLsbD_oneAt_pred (by omega), decide_eq_decide]
    omega

theorem getLsbD_rangeInWord (word : Nat) (low high : Int) {k : Nat} (within : k < 64) :
    (bitmapRangeInWord word low high).getLsbD k =
      decide (low ≤ ((64 * word + k : Nat) : Int) ∧ ((64 * word + k : Nat) : Int) ≤ high) := by
  unfold bitmapRangeInWord wordBits
  simp only
  generalize lowest : (if low > (word : Int) * (64 : Nat) then low - word * (64 : Nat) else 0) = first
  generalize highest : (if high - (word : Int) * (64 : Nat) < (64 : Nat) - 1 then high - word * (64 : Nat)
    else (64 : Nat) - 1) = last
  have from_ : 0 ≤ first ∧ (first ≤ k ↔ low ≤ ((64 * word + k : Nat) : Int)) := by
    split at lowest <;> omega
  have upto : last < 64 ∧ ((k : Int) ≤ last ↔ ((64 * word + k : Nat) : Int) ≤ high) := by
    split at highest <;> omega
  by_cases empty : low > high ∨ first > last
  · rw [if_pos empty, show BitVec.getLsbD (0 : BitVec 64) k = false from BitVec.getLsbD_zero, eq_comm,
      decide_eq_false_iff_not]
    omega
  · rw [if_neg empty, BitVec.getLsbD_and, BitVec.getLsbD_not, getLsbD_onesUpto (by omega) upto.1 within,
      getLsbD_oneAt_pred (by omega), decide_eq_true within, Bool.true_and, ← decide_not, ← Bool.decide_and,
      decide_eq_decide]
    omega

end Reader

end Tickle
