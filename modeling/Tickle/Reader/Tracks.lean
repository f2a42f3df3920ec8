import Tickle.Watermark
import Tickle.Reader.Proxy

/-! # The bitmap and what is recorded

A proxy tracks a watermark and a set of positions (`Tracks`) when the bits of its window are the positions recorded past
the watermark and the words it counts as in use hold them all. Positions are those of the stream, not cut to 32 bits.
Every function that moves the watermark or records keeps it.
-/

namespace Tickle

namespace Reader

open Bits Serial Watermark

/-- The seq_no at a position of the stream. -/
def wrap (p : Nat) : SeqNo := BitVec.ofNat 32 p

theorem wrap_add (p n : Nat) : wrap (p + n) = plus (wrap p) n := by
  unfold wrap plus
  exact BitVec.ofNat_add ..

theorem wrap_succ (p : Nat) : wrap (p + 1) = wrap p + 1 := by
  rw [wrap_add]
  rfl

theorem wrap_steps (p : Nat) (seqNo : SeqNo) : wrap (p + steps (wrap p) seqNo) = seqNo := by
  rw [wrap_add, plus_steps]

structure Tracks (proxy : WriterProxy) (w : Nat) (r : Finset Nat) : Prop where
  positive : 0 < proxy.words
  narrow : proxy.words < 2 ^ 16
  ack : proxy.ackSeqNo = wrap w
  bits : ∀ j, bit proxy.receivedBitmap j = true ↔ j < 64 * proxy.words ∧ w + j ∈ r
  used : ∀ j, 64 * proxy.receivedWords ≤ j → bit proxy.receivedBitmap j = false
  inUse : proxy.receivedWords ≤ proxy.words
  ahead : ∀ p ∈ r, p < w + 64 * proxy.words

/-- A proxy that differs in none of the fields that track. -/
structure SameTrack (proxy proxy' : WriterProxy) : Prop where
  words : proxy'.words = proxy.words
  ack : proxy'.ackSeqNo = proxy.ackSeqNo
  bitmap : proxy'.receivedBitmap = proxy.receivedBitmap
  used : proxy'.receivedWords = proxy.receivedWords

variable {proxy proxy' : WriterProxy} {w : Nat} {r : Finset Nat}

theorem Tracks.same (tracks : Tracks proxy w r) (same : SameTrack proxy proxy') : Tracks proxy' w r := by
  obtain ⟨words, ack, bitmap, used⟩ := same
  constructor
  · rw [words]; exact tracks.positive
  · rw [words]; exact tracks.narrow
  · rw [ack]; exact tracks.ack
  · rw [words, bitmap]; exact tracks.bits
  · rw [used, bitmap]; exact tracks.used
  · rw [used, words]; exact tracks.inUse
  · rw [words]; exact tracks.ahead

theorem windowBits_eq (proxy : WriterProxy) : proxy.windowBits = 64 * proxy.words := Nat.mul_comm _ _

theorem Tracks.bit_iff (tracks : Tracks proxy w r) {j : Nat} (within : j < 64 * proxy.words) :
    bit proxy.receivedBitmap j = true ↔ w + j ∈ r := by
  rw [tracks.bits]
  exact ⟨fun h => h.2, fun h => ⟨within, h⟩⟩

/-! ## Words in use -/

theorem trimmed_le (bitmap : Words) (words : Nat) : WriterProxy.trimmed bitmap words ≤ words := by
  induction words with
  | zero => exact Nat.le_refl 0
  | succ words ih =>
    unfold WriterProxy.trimmed
    split
    · exact Nat.le_succ_of_le ih
    · exact Nat.le_refl _

/-- What the trim leaves out is zero. -/
theorem trimmed_clear {bitmap : Words} {words : Nat} (clear : ∀ j, 64 * words ≤ j → bit bitmap j = false) :
    ∀ j, 64 * WriterProxy.trimmed bitmap words ≤ j → bit bitmap j = false := by
  induction words with
  | zero => exact clear
  | succ words ih =>
    unfold WriterProxy.trimmed
    split
    · next zero =>
      apply ih
      intro j past
      by_cases here : j < 64 * (words + 1)
      · have word := word_eq_zero.mp zero (j - 64 * words) (by omega)
        rwa [Nat.add_sub_cancel' (by omega)] at word
      · exact clear j (by omega)
    · exact clear

/-- A bitmap that is right up to the words counted as in use is right when they are trimmed. -/
theorem Tracks.trim (tracks : Tracks proxy w r) : Tracks proxy.trimReceived w r where
  positive := tracks.positive
  narrow := tracks.narrow
  ack := tracks.ack
  bits := tracks.bits
  used := trimmed_clear tracks.used
  inUse := (trimmed_le _ _).trans tracks.inUse
  ahead := tracks.ahead

theorem Tracks.clearBit (tracks : Tracks proxy w r) (offset : Nat) :
    Tracks { proxy with receivedBitmap := bitmapClearBit proxy.receivedBitmap offset } w (r.erase (w + offset)) where
  positive := tracks.positive
  narrow := tracks.narrow
  ack := tracks.ack
  bits := by
    intro j
    change bit (bitmapClearBit proxy.receivedBitmap offset) j = true ↔ _
    rw [bit_clearBit, Bool.and_eq_true, tracks.bits, Bool.not_eq_true', decide_eq_false_iff_not, Finset.mem_erase]
    constructor
    · rintro ⟨other, within, member⟩
      exact ⟨within, by omega, member⟩
    · rintro ⟨within, other, member⟩
      exact ⟨by omega, within, member⟩
  used := by
    intro j past
    rw [bit_clearBit, tracks.used j past, Bool.and_false]
  inUse := tracks.inUse
  ahead := fun p member => tracks.ahead p (Finset.mem_of_mem_erase member)

theorem markReceived_words (proxy : WriterProxy) (offset : Nat) :
    (proxy.markReceived offset).receivedWords = max proxy.receivedWords (offset / 64 + 1) := by
  change (if proxy.receivedWords ≤ offset / 64 then offset / 64 + 1 else proxy.receivedWords) = _
  split <;> omega

theorem Tracks.mark (tracks : Tracks proxy w r) {offset : Nat} (within : offset < 64 * proxy.words) :
    Tracks (proxy.markReceived offset) w (insert (w + offset) r) where
  positive := tracks.positive
  narrow := tracks.narrow
  ack := tracks.ack
  bits := by
    intro j
    change bit (bitmapSetBit proxy.receivedBitmap offset) j = true ↔ _
    rw [bit_setBit, Bool.or_eq_true, tracks.bits, decide_eq_true_iff, Finset.mem_insert]
    constructor
    · rintro (rfl | ⟨inside, member⟩)
      · exact ⟨within, Or.inl rfl⟩
      · exact ⟨inside, Or.inr member⟩
    · rintro ⟨inside, same | member⟩
      · exact Or.inl (by omega)
      · exact Or.inr ⟨inside, member⟩
  used := by
    intro j past
    change bit (bitmapSetBit proxy.receivedBitmap offset) j = false
    rw [markReceived_words] at past
    have other : j ≠ offset := by omega
    rw [bit_setBit, tracks.used j (by omega), decide_eq_false other, Bool.or_false]
  inUse := by
    have before := tracks.inUse
    rw [markReceived_words]
    change max proxy.receivedWords (offset / 64 + 1) ≤ proxy.words
    omega
  ahead := by
    intro p member
    rw [Finset.mem_insert] at member
    obtain rfl | member := member
    · exact Nat.add_lt_add_left within w
    · exact tracks.ahead p member

/-! ## Moving the watermark -/

/-- A bitmap shifted with the watermark, whatever counts its words. -/
theorem Tracks.shifted (tracks : Tracks proxy w r) {bitmap : Words} {n : Nat}
    (moved : ∀ j, bit bitmap j = bit proxy.receivedBitmap (j + n)) :
    Tracks { proxy with receivedBitmap := bitmap, ackSeqNo := wrap (w + n) } (w + n) r where
  positive := tracks.positive
  narrow := tracks.narrow
  ack := rfl
  bits := by
    intro j
    change bit bitmap j = true ↔ _
    rw [moved, tracks.bits, Nat.add_assoc, Nat.add_comm n j]
    constructor
    · rintro ⟨inside, member⟩
      exact ⟨Nat.lt_of_le_of_lt (Nat.le_add_right j n) inside, member⟩
    · rintro ⟨inside, member⟩
      have := tracks.ahead _ member
      exact ⟨by omega, member⟩
  used := by
    intro j past
    change bit bitmap j = false
    rw [moved]
    exact tracks.used _ (by have past : 64 * proxy.receivedWords ≤ j := past; omega)
  inUse := tracks.inUse
  ahead := fun p member => Nat.lt_of_lt_of_le (tracks.ahead p member) (by simp only; omega)

/-- A row whose bits from some word on are clear is shifted as a whole by shifting the words before it. -/
theorem bit_shiftRightOne_clear {bitmap : Words} {words : Nat} (some_ : words ≠ 0)
    (clear : ∀ j, 64 * words ≤ j → bit bitmap j = false) (j : Nat) :
    bit (bitmapShiftRightOne bitmap words) j = bit bitmap (j + 1) := by
  rw [bit_shiftRightOne _ some_]
  by_cases inside : j < 64 * words
  · rw [if_pos inside]
    by_cases more : j + 1 < 64 * words
    · simp [more]
    · simp [more, clear (j + 1) (by omega)]
  · rw [if_neg inside, clear j (by omega), clear (j + 1) (by omega)]

theorem Tracks.bit_shiftReceivedOne (tracks : Tracks proxy w r) (j : Nat) :
    bit proxy.shiftReceivedOne.receivedBitmap j = bit proxy.receivedBitmap (j + 1) := by
  unfold WriterProxy.shiftReceivedOne
  by_cases empty : proxy.receivedWords = 0
  · rw [if_pos empty, tracks.used j (by omega), tracks.used (j + 1) (by omega)]
  · rw [if_neg empty]
    exact bit_shiftRightOne_clear empty tracks.used j

theorem Tracks.shiftOne (tracks : Tracks proxy w r) :
    Tracks { proxy.shiftReceivedOne with ackSeqNo := proxy.ackSeqNo + 1 } (w + 1) r := by
  have next : wrap (w + 1) = proxy.ackSeqNo + 1 := by rw [wrap_succ, tracks.ack]
  have shifted := tracks.shifted tracks.bit_shiftReceivedOne
  rw [next] at shifted
  unfold WriterProxy.shiftReceivedOne at shifted ⊢
  by_cases empty : proxy.receivedWords = 0
  · rw [if_pos empty] at shifted ⊢
    exact shifted
  · rw [if_neg empty] at shifted ⊢
    exact shifted.trim.same ⟨rfl, rfl, rfl, rfl⟩

theorem Tracks.absorbOne (tracks : Tracks proxy w r) : Tracks proxy.absorbOne (w + 1) r := by
  have shifted := tracks.shiftOne
  have ack : proxy.shiftReceivedOne.ackSeqNo = proxy.ackSeqNo := by
    unfold WriterProxy.shiftReceivedOne
    split
    · rfl
    · rfl
  unfold WriterProxy.absorbOne
  simp only [ack]
  exact shifted

/-- The loop ends at the first position not recorded. -/
theorem Tracks.absorbLoop {fuel : Nat} (tracks : Tracks proxy w r) (enough : settle r w ≤ w + fuel) :
    Tracks (Loop.whileN WriterProxy.lowestReceived WriterProxy.absorbOne fuel proxy) (settle r w) r := by
  induction fuel generalizing proxy w with
  | zero =>
    have here : settle r w = w := le_antisymm enough (le_settle r w)
    rw [here]
    exact tracks
  | succ fuel ih =>
    have lowest : proxy.lowestReceived = true ↔ w ∈ r := by
      unfold WriterProxy.lowestReceived
      rw [bitmapLowestBitSet_eq]
      exact tracks.bit_iff (j := 0) (by have := tracks.positive; omega)
    by_cases member : w ∈ r
    · rw [Loop.whileN_step (lowest.mpr member), settle_of_mem member]
      apply ih tracks.absorbOne
      rw [← settle_of_mem member]
      omega
    · have out : proxy.lowestReceived = false := by
        rw [← Bool.not_eq_true]
        exact fun set => member (lowest.mp set)
      rw [Loop.whileN_of_not out, settle_of_notMem member]
      exact tracks

theorem Tracks.absorb (tracks : Tracks proxy w r) : Tracks proxy.absorb (settle r w) r := by
  unfold WriterProxy.absorb
  apply tracks.absorbLoop
  rw [windowBits_eq]
  exact settle_le tracks.ahead (Nat.le_add_right _ _)

/-- The watermark moved past everything recorded. -/
theorem Tracks.cleared (tracks : Tracks proxy w r) {w' : Nat} (past : ∀ p ∈ r, p < w') :
    Tracks { proxy.clearReceived with ackSeqNo := wrap w' } w' r where
  positive := tracks.positive
  narrow := tracks.narrow
  ack := rfl
  bits := by
    intro j
    change bit (bitmapClear proxy.receivedBitmap proxy.words) j = true ↔ _
    rw [bit_clear, Bool.and_eq_true, tracks.bits, Bool.not_eq_true', decide_eq_false_iff_not]
    constructor
    · rintro ⟨out, inside, -⟩
      exact absurd inside out
    · rintro ⟨-, member⟩
      exact absurd (past _ member) (by omega)
  used := by
    intro j _
    change bit (bitmapClear proxy.receivedBitmap proxy.words) j = false
    rw [bit_clear]
    by_cases inside : j < 64 * proxy.words
    · simp [inside]
    · have clear : bit proxy.receivedBitmap j = false := by
        rw [← Bool.not_eq_true, tracks.bits]
        exact fun set => inside set.1
      rw [clear, Bool.and_false]
  inUse := Nat.zero_le _
  ahead := fun p member => (past p member).trans_le (Nat.le_add_right _ _)

/-! ## What is counted, asked for and announced -/

theorem bit_and (b b' : Words) (i : Nat) : bit (fun word => b word &&& b' word) i = (bit b i && bit b' i) :=
  BitVec.getLsbD_and

theorem Tracks.receivedInFirst (tracks : Tracks proxy w r) (span : Nat) :
    proxy.receivedInFirst span = passed r w (w + span) := by
  unfold WriterProxy.receivedInFirst
  by_cases nothing : span = 0
  · rw [if_pos nothing, nothing, Nat.add_zero, passed_self]
  · rw [if_neg nothing]
    simp only [windowBits_eq]
    rw [count_words fun word => proxy.receivedBitmap word &&& bitmapLowMask proxy.words
      (if 64 * proxy.words ≤ span then ((64 * proxy.words : Nat) : Int) - 1 else (span : Int) - 1) word]
    rw [Nat.count_eq_card_filter_range]
    unfold passed
    rw [← Finset.card_image_of_injective _ (add_right_injective w)]
    congr 1
    ext p
    simp only [Finset.mem_image, Finset.mem_filter, Finset.mem_range, bit_and, Bool.and_eq_true, tracks.bits, bit_lowMask,
      decide_eq_true_iff]
    constructor
    · rintro ⟨j, ⟨inside, ⟨-, member⟩, -, masked⟩, rfl⟩
      split at masked
      · exact ⟨member, by omega, by omega⟩
      · exact ⟨member, by omega, by omega⟩
    · rintro ⟨member, after, before⟩
      have below := tracks.ahead p member
      refine ⟨p - w, ⟨by omega, ⟨by omega, ?_⟩, by omega, ?_⟩, by omega⟩
      · rw [Nat.add_sub_cancel' after]
        exact member
      · split <;> omega

theorem Tracks.highestReceived (tracks : Tracks proxy w r) :
    (∀ j, w + j ∈ r → (j : Int) ≤ proxy.highestReceived) ∧
      (proxy.highestReceived = -1 ∨ ∃ j : Nat, j < 64 * proxy.words ∧ proxy.highestReceived = j ∧ w + j ∈ r) := by
  obtain ⟨bounds, found⟩ := bitmapHighestBit_spec proxy.receivedBitmap proxy.receivedWords
  constructor
  · intro j member
    have inside : j < 64 * proxy.words := by
      have := tracks.ahead _ member
      omega
    have set := (tracks.bit_iff inside).mpr member
    apply bounds j _ set
    by_contra past
    rw [tracks.used j (not_lt.mp past)] at set
    exact absurd set (by decide)
  · obtain none_ | ⟨j, -, same, set⟩ := found
    · exact Or.inl none_
    · obtain ⟨inside, member⟩ := (tracks.bits j).mp set
      exact Or.inr ⟨j, inside, same, member⟩

end Reader

end Tickle
