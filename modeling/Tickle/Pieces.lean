import Mathlib

/-! # A list put together from its pieces

A buffer into which pieces of a list are written where they belong, in any order and any number of
times. It agrees with the list wherever a piece has been written (`agrees_write`, `Agrees.write`), so once
the pieces cover the list it holds the list (`Agrees.take_eq`).
-/

namespace Pieces

variable {α : Type*} {buffer whole : List α} {start length a b c : Nat}

/-- The elements of `whole` from `start` on, `length` of them. -/
def piece (whole : List α) (start length : Nat) : List α := (whole.drop start).take length

def write (buffer : List α) (start : Nat) (written : List α) : List α :=
  buffer.take start ++ written ++ buffer.drop (start + written.length)

theorem piece_length (fits : start + length ≤ whole.length) : (piece whole start length).length = length := by
  simp only [piece, List.length_take, List.length_drop]
  omega

theorem take_piece {k : Nat} (short : k ≤ length) : (piece whole start length).take k = piece whole start k := by
  unfold piece
  rw [List.take_take, min_eq_left short]

theorem drop_piece (k : Nat) : (piece whole start length).drop k = piece whole (start + k) (length - k) := by
  unfold piece
  rw [List.drop_take, List.drop_drop]

theorem getElem?_piece (i : Nat) :
    (piece whole start length)[i]? = if i < length then whole[start + i]? else none := by
  unfold piece
  rw [List.getElem?_take]
  split
  · rw [List.getElem?_drop]
  · rfl

theorem write_length {written : List α} (fits : start + written.length ≤ buffer.length) :
    (write buffer start written).length = buffer.length := by
  simp only [write, List.length_append, List.length_take, List.length_drop]
  omega

theorem getElem?_write {written : List α} (fits : start + written.length ≤ buffer.length) (i : Nat) :
    (write buffer start written)[i]? =
      if start ≤ i ∧ i < start + written.length then written[i - start]? else buffer[i]? := by
  have front : (buffer.take start).length = start := by
    rw [List.length_take]
    omega
  unfold write
  rw [List.append_assoc, List.getElem?_append]
  by_cases before : i < start
  · rw [if_pos (by omega), List.getElem?_take, if_pos before, if_neg (by omega)]
  · rw [if_neg (by omega), List.getElem?_append, front]
    by_cases within : i - start < written.length
    · rw [if_pos within, if_pos (by omega)]
    · rw [if_neg within, if_neg (by omega), List.getElem?_drop]
      congr 1
      omega

/-- What was written is there. -/
theorem piece_write {written : List α} (fits : start + written.length ≤ buffer.length) :
    piece (write buffer start written) start written.length = written := by
  have front : (buffer.take start).length = start := by
    rw [List.length_take]
    omega
  unfold piece write
  rw [List.append_assoc, List.drop_left' front, List.take_left' rfl]

/-- The buffer has the list's elements from `a` to `b`. -/
def Agrees (buffer whole : List α) (a b : Nat) : Prop := ∀ i, a ≤ i → i < b → buffer[i]? = whole[i]?

theorem Agrees.append (front : Agrees buffer whole a b) (back : Agrees buffer whole b c) :
    Agrees buffer whole a c := by
  intro i from_a to_c
  by_cases before : i < b
  · exact front i from_a before
  · exact back i (by omega) to_c

theorem Agrees.mono {a' b' : Nat} (h : Agrees buffer whole a b) (later : a ≤ a') (earlier : b' ≤ b) :
    Agrees buffer whole a' b' := by
  intro i from_a to_b
  exact h i (by omega) (by omega)

/-- A piece of the list written where it belongs. -/
theorem agrees_write (fits : start + length ≤ buffer.length) (within : start + length ≤ whole.length) :
    Agrees (write buffer start (piece whole start length)) whole start (start + length) := by
  have size := piece_length within
  intro i from_start to_end
  rw [getElem?_write (by omega), if_pos (by omega), getElem?_piece, if_pos (by omega)]
  congr 1
  omega

/-- It takes nothing away. -/
theorem Agrees.write (h : Agrees buffer whole a b) (fits : start + length ≤ buffer.length)
    (within : start + length ≤ whole.length) :
    Agrees (write buffer start (piece whole start length)) whole a b := by
  have size := piece_length within
  intro i from_a to_b
  by_cases written : start ≤ i ∧ i < start + length
  · exact agrees_write fits within i written.1 written.2
  · rw [getElem?_write (by omega), if_neg (by omega)]
    exact h i from_a to_b

/-- The front of a buffer copied into another. -/
theorem Agrees.copy {dest : List α} {stop : Nat} (h : Agrees buffer whole a b) (copied : b ≤ stop)
    (inside : b ≤ buffer.length) (fits : (buffer.take stop).length ≤ dest.length) :
    Agrees (Pieces.write dest 0 (buffer.take stop)) whole a b := by
  intro i from_a to_b
  have size : (buffer.take stop).length = min stop buffer.length := List.length_take ..
  rw [getElem?_write (by omega), if_pos (by omega), Nat.sub_zero, List.getElem?_take, if_pos (by omega)]
  exact h i from_a to_b

/-- A buffer that agrees up to `b` is as long. -/
theorem Agrees.le_length (h : Agrees buffer whole a b) (some : a < b) (within : b ≤ whole.length) :
    b ≤ buffer.length := by
  have last := h (b - 1) (by omega) (by omega)
  rw [List.getElem?_eq_getElem (show b - 1 < whole.length by omega)] at last
  have := (List.getElem?_eq_some_iff.mp last).1
  omega

theorem Agrees.piece_eq (h : Agrees buffer whole a (a + length)) :
    piece buffer a length = piece whole a length := by
  apply List.ext_getElem?
  intro i
  rw [getElem?_piece, getElem?_piece]
  split
  · exact h (a + i) (by omega) (by omega)
  · rfl

theorem Agrees.take_eq (h : Agrees buffer whole 0 whole.length) : buffer.take whole.length = whole := by
  have same := (show Agrees buffer whole 0 (0 + whole.length) by simpa using h).piece_eq
  simpa [piece] using same

/-- Pieces that lie one behind another cover the list. -/
theorem agrees_cover {starts : Nat → Nat} {count : Nat}
    (h : ∀ i < count, Agrees buffer whole (starts i) (starts (i + 1))) :
    Agrees buffer whole (starts 0) (starts count) := by
  induction count with
  | zero =>
    intro i from_start to_start
    omega
  | succ count ih =>
    have front := ih fun i lt => h i (by omega)
    exact front.append (h count (by omega))

end Pieces
