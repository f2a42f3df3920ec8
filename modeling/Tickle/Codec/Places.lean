import Tickle.Codec.Bound

/-! # Where the encoder puts what

Every integer and float a message is written as, with its offset from the start of the payload. Inside one message each is at a
multiple of its alignment from where that message starts, and so in the payload only as far as the messages themselves start aligned.
`struct_self_align` places a message by its fields, and a variable array counts there with its count alone: what its elements
need is left out.
-/

namespace Tickle

namespace TypeSupport

open Cursor

/-! ## Definitions -/

/-- An integer or float in the payload. -/
structure Placed where
  offset : Nat
  size : Nat
  value : Nat
  deriving DecidableEq, Repr

def Placed.shift (k : Nat) (p : Placed) : Placed := { p with offset := k + p.offset }

/-- `min(size, 4)` divides its offset, in a message that starts at `base`. -/
def Placed.AlignedFrom (base : Nat) (p : Placed) : Prop := (base + p.offset) % min p.size 4 = 0

/-- Elements one behind another. -/
def placeEach {α : Type} (image : Bool → α → Nat → Bytes) (place : Bool → α → Nat → List Placed) :
    Bool → List α → Nat → List Placed
  | _, [], _ => []
  | first, a :: l, encoded => place first a encoded ++ placeEach image place false l (encoded + (image first a encoded).length)

/-- The length of a string; NULL has none. -/
def pointerPlaced (v : Option (Text none)) (encoded : Nat) : List Placed :=
  match v with
  | none => []
  | some t => [⟨encoded, 2, t.bytes.length + 1⟩]

/-- The count in front of a variable array. -/
def countPlaced (mode : ArrayMode) (count encoded : Nat) : List Placed :=
  match mode with
  | .fixed _ => []
  | .varying _ => [⟨encoded, 2, count⟩]

def wordsPlaced {w : Nat} : List (Word w) → Nat → List Placed
  | [], _ => []
  | v :: l, encoded => ⟨encoded, w, v.val⟩ :: wordsPlaced l (encoded + w)

/-- Where a nested element starts. -/
def elementStart (align : Nat) (first : Bool) (encoded : Nat) : Nat := if first then encoded else alignUp encoded align

mutual

/-- The stores of the field's encode, at the cursor `encoded`. -/
def WireField.placed (host : ByteOrder) : (f : WireField) → f.Val → Nat → List Placed
  | .scalar t, v, encoded => [⟨encoded, t.size, v.val⟩]
  | .string none, v, encoded => pointerPlaced v encoded
  | .string (some _), v, encoded => [⟨encoded, 2, v.bytes.length + 1⟩]
  | .nested s, v, encoded => (s.placed host v 0).map (Placed.shift encoded)
  | .array m e, v, encoded => countPlaced m (ArrayMode.elements v).length encoded ++
      e.placed host (ArrayMode.elements v) (m.elementsStart e.headAlign encoded)

def Element.placed (host : ByteOrder) : (e : Element) → List e.Val → Nat → List Placed
  | .scalar _, l, encoded => wordsPlaced l encoded
  | .string, l, encoded => placeEach (fun _ v => pointerImage host v) (fun _ v => pointerPlaced v) true l encoded
  | .nested s, l, encoded =>
    placeEach (fun first v => andThen (gapImage s.selfAlign first) fun _ => s.image host v 0)
      (fun first v encoded => (s.placed host v 0).map (Placed.shift (elementStart s.selfAlign first encoded))) true l encoded

def WireStruct.placed (host : ByteOrder) : (s : WireStruct) → s.Val → Nat → List Placed
  | .nil, _, _ => []
  | .cons f rest, v, encoded =>
    f.placed host v.1 (alignUp encoded f.wireAlign) ++
      rest.placed host v.2 (alignUp encoded f.wireAlign + (f.image host v.1 (alignUp encoded f.wireAlign)).length)

end

/-! ## The encoder stores them there -/

variable (host : ByteOrder)

/-- What stands in an image at the places. -/
def Stores (image : Nat → Bytes) (placed : Nat → List Placed) : Prop :=
  ∀ before after, ∀ p ∈ placed before.length,
    bytesAt (before ++ image before.length ++ after) p.offset p.size = host.store p.size p.value

theorem Stores.andThen {first second : Nat → Bytes} {placed placed' : Nat → List Placed} (one : Stores host first placed)
    (two : Stores host second placed') :
    Stores host (andThen first second) fun cursor => placed cursor ++ placed' (cursor + (first cursor).length) := by
  intro before after p member
  rcases List.mem_append.mp member with here | there
  · have stored := one before (second (before.length + (first before.length).length) ++ after) p here
    simpa [Cursor.andThen] using stored
  · have length : (before ++ first before.length).length = before.length + (first before.length).length := List.length_append
    have stored := two (before ++ first before.length) after p (by rwa [length])
    rw [length] at stored
    simpa [Cursor.andThen] using stored

theorem stores_nothing (image : Nat → Bytes) : Stores host image fun _ => [] := by
  intro before after p member
  cases member

theorem stores_word (w n : Nat) : Stores host (fun _ => host.store w n) fun cursor => [⟨cursor, w, n⟩] := by
  intro before after p member
  cases List.mem_singleton.mp member
  exact bytesAt_here before _ after (host.store_length w n)

/-- A message written from its own offset 0. -/
theorem stores_nested {image : Nat → Bytes} {placed : Nat → List Placed} (inner : Stores host image placed) :
    Stores host (fun _ => image 0) fun cursor => (placed 0).map (Placed.shift cursor) := by
  intro before after p member
  obtain ⟨q, here, rfl⟩ := List.mem_map.mp member
  have stored := inner [] after q here
  change bytesAt (before ++ image 0 ++ after) (before.length + q.offset) q.size = host.store q.size q.value
  rw [← stored]
  unfold bytesAt
  rw [List.append_assoc, List.drop_append, List.drop_eq_nil_of_le (Nat.le_add_right _ _), Nat.add_sub_cancel_left]
  rfl

theorem Stores.congr {image image' : Nat → Bytes} {placed placed' : Nat → List Placed} (stores : Stores host image placed)
    (sameImage : ∀ cursor, image' cursor = image cursor) (same : ∀ cursor, placed' cursor = placed cursor) :
    Stores host image' placed' := by
  intro before after p member
  rw [same] at member
  rw [sameImage]
  exact stores before after p member

theorem stores_each {α : Type} {image : Bool → α → Nat → Bytes} {place : Bool → α → Nat → List Placed} {l : List α}
    (one : ∀ first, ∀ a ∈ l, Stores host (image first a) (place first a)) (first : Bool) :
    Stores host (imageEach image first l) (placeEach image place first l) := by
  induction l generalizing first with
  | nil => exact stores_nothing host _
  | cons a l ih =>
    have head := one first a List.mem_cons_self
    have tail := ih (fun first b member => one first b (List.mem_cons_of_mem a member)) false
    exact head.andThen host tail

theorem stores_text (bytes : Bytes) : Stores host (textImage host bytes) fun cursor => [⟨cursor, 2, bytes.length + 1⟩] :=
  ((stores_word host 2 (bytes.length + 1)).andThen host (stores_nothing host _)).congr host (fun _ => rfl) fun _ => rfl

theorem stores_pointer (v : Option (Text none)) : Stores host (pointerImage host v) (pointerPlaced v) := by
  cases v with
  | none => exact stores_nothing host _
  | some t => exact stores_text host t.bytes

theorem stores_words {w : Nat} (l : List (Word w)) :
    Stores host (fun _ => l.flatMap fun v => host.store w v.val) (wordsPlaced l) := by
  induction l with
  | nil => exact stores_nothing host _
  | cons v l ih =>
    apply ((stores_word host w v.val).andThen host ih).congr host
    · intro cursor
      rfl
    · intro cursor
      simp only [wordsPlaced, ByteOrder.store_length, List.singleton_append]

theorem headImage_end (m : ArrayMode) (count : Nat) {align : Nat} (positive : 0 < align) (cursor : Nat) :
    cursor + (headImage host m count align cursor).length = m.elementsStart align cursor := by
  cases m with
  | fixed n => rfl
  | varying c =>
    simp only [headImage, ArrayMode.elementsStart, andThen_length, ByteOrder.store_length, zeros_length,
      alignUp_eq _ positive, ← Nat.add_assoc, countSize]

theorem stores_count (m : ArrayMode) (count align : Nat) : Stores host (headImage host m count align) (countPlaced m count) := by
  cases m with
  | fixed n => exact stores_nothing host _
  | varying c =>
    have padded := stores_nothing host fun cursor => zeros (padding cursor align)
    exact ((stores_word host 2 count).andThen host padded).congr host (fun _ => rfl) fun _ => rfl

theorem gapImage_end {align : Nat} (positive : 0 < align) (first : Bool) (cursor : Nat) :
    cursor + (gapImage align first cursor).length = elementStart align first cursor := by
  cases first with
  | true => rfl
  | false =>
    change cursor + (zeros (padding cursor align)).length = alignUp cursor align
    rw [zeros_length, alignUp_eq cursor positive]

mutual

theorem WireField.image_stores : (f : WireField) → (v : f.Val) → Stores host (f.image host v) (f.placed host v)
  | .scalar t, v => stores_word host t.size v.val
  | .string none, v => stores_pointer host v
  | .string (some _), v => stores_text host v.bytes
  | .nested s, v => stores_nested host (s.image_stores v)
  | .array m e, v => by
    change m.Of e.Val at v
    have head := stores_count host m (ArrayMode.elements v).length e.headAlign
    apply (head.andThen host (e.image_stores (ArrayMode.elements v))).congr host
    · intro cursor
      rfl
    · intro cursor
      rw [headImage_end host m _ e.headAlign_pos]
      rfl

theorem Element.image_stores : (e : Element) → (l : List e.Val) → Stores host (e.image host l) (e.placed host l)
  | .scalar _, l => stores_words host l
  | .string, l => stores_each host (fun _ v _ => stores_pointer host v) true
  | .nested s, l => by
    apply stores_each host
    intro first v _
    have gap := stores_nothing host (gapImage s.selfAlign first)
    apply (gap.andThen host (stores_nested host (s.image_stores v))).congr host
    · intro cursor
      rfl
    · intro cursor
      rw [gapImage_end s.selfAlign_pos]
      rfl

theorem WireStruct.image_stores : (s : WireStruct) → (v : s.Val) → Stores host (s.image host v) (s.placed host v)
  | .nil, _ => stores_nothing host _
  | .cons f rest, v => by
    have gap := stores_nothing host (padImage f.wireAlign)
    apply (gap.andThen host ((f.image_stores v.1).andThen host (rest.image_stores v.2))).congr host
    · intro cursor
      rfl
    · intro cursor
      simp only [padImage, zeros_length, ← alignUp_eq cursor f.wireAlign_pos]
      rfl

end

/-! ## Where a message can start

Only what an offset is modulo 4 matters, and only the counts of arrays decide that: a string ends at a multiple of 4. -/

/-- How many elements an array can have. -/
def ArrayMode.Holds : ArrayMode → Nat → Prop
  | .fixed arraySize, n => n = arraySize
  | .varying capacity, n => n ≤ capacity.max ∧ n < 256 ^ 2

/-- Where `n` messages of such sizes can end, modulo 4. -/
def EndsEach (size : Nat → Prop) (align : Nat) : Bool → Nat → (cursor ends : Nat) → Prop
  | _, 0, cursor, ends => ends ≡ cursor [MOD 4]
  | first, n + 1, cursor, ends => ∃ k, size k ∧ EndsEach size align false n (elementStart align first cursor + k) ends

mutual

/-- Where the field can end, modulo 4, from the cursor on. -/
def WireField.Ends : WireField → (cursor ends : Nat) → Prop
  | .scalar t, cursor, ends => ends ≡ cursor + t.size [MOD 4]
  | .string _, _, ends => ends ≡ 0 [MOD 4]
  | .nested s, cursor, ends => ∃ k, s.Ends 0 k ∧ ends ≡ cursor + k [MOD 4]
  | .array m e, cursor, ends => ∃ n, m.Holds n ∧ e.Ends n (m.elementsStart e.headAlign cursor) ends

def Element.Ends : Element → Nat → (cursor ends : Nat) → Prop
  | .scalar t, n, cursor, ends => ends ≡ cursor + n * t.size [MOD 4]
  | .string, n, cursor, ends => ends ≡ (if n = 0 then cursor else 0) [MOD 4]
  | .nested s, n, cursor, ends => EndsEach (s.Ends 0) s.selfAlign true n cursor ends

def WireStruct.Ends : WireStruct → (cursor ends : Nat) → Prop
  | .nil, cursor, ends => ends ≡ cursor [MOD 4]
  | .cons f rest, cursor, ends => ∃ between, f.Ends (alignUp cursor f.wireAlign) between ∧ rest.Ends between ends

end

/-- Each of `n` messages is settled where it can start. -/
def SettledEach (settled size : Nat → Prop) (align : Nat) : Bool → Nat → (cursor : Nat) → Prop
  | _, 0, _ => True
  | first, n + 1, cursor => settled (elementStart align first cursor) ∧
      ∀ k, size k → SettledEach settled size align false n (elementStart align first cursor + k)

/-- The count of an array, in a message that starts at `base`. -/
def ArrayMode.CountSettled : ArrayMode → (base : Nat) → Prop
  | .fixed _, _ => True
  | .varying _, base => countSize ∣ base

mutual

/-- A message that starts at `base` starts at a multiple of what its own scalars, lengths, counts and array elements are
aligned to, and so does each message in it, wherever it can start. -/
def WireField.Settled : WireField → (base cursor : Nat) → Prop
  | .scalar t, base, _ => t.align ∣ base
  | .string _, base, _ => countSize ∣ base
  | .nested s, base, cursor => s.Settled (base + cursor) 0
  | .array m e, base, cursor => m.CountSettled base ∧
      ∀ n, m.Holds n → e.Settled n base (m.elementsStart e.headAlign cursor)

def Element.Settled : Element → Nat → (base cursor : Nat) → Prop
  | .scalar t, n, base, _ => n = 0 ∨ t.align ∣ base
  | .string, n, base, _ => n = 0 ∨ countSize ∣ base
  | .nested s, n, base, cursor =>
    SettledEach (fun start => s.Settled (base + start) 0) (s.Ends 0) s.selfAlign true n cursor

def WireStruct.Settled : WireStruct → (base cursor : Nat) → Prop
  | .nil, _, _ => True
  | .cons f rest, base, cursor => f.Settled base (alignUp cursor f.wireAlign) ∧
      ∀ ends, f.Ends (alignUp cursor f.wireAlign) ends → rest.Settled base ends

end

/-! ### Modulo 4 -/

theorem cases_dvd_four {a : Nat} (divides : a ∣ 4) : a = 1 ∨ a = 2 ∨ a = 4 := by
  have most := Nat.le_of_dvd (by decide) divides
  interval_cases a <;> simp_all

theorem max_dvd_four {a b : Nat} (one : a ∣ 4) (two : b ∣ 4) : max a b ∣ 4 := by
  rcases max_choice a b with eq | eq
  · rwa [eq]
  · rwa [eq]

theorem countSize_dvd : countSize ∣ 4 := by decide

theorem ScalarType.align_dvd (t : ScalarType) : t.align ∣ 4 := by
  cases t <;> decide

mutual

theorem WireField.wireAlign_dvd : (f : WireField) → f.wireAlign ∣ 4
  | .scalar t => t.align_dvd
  | .string _ => countSize_dvd
  | .nested s => by
    simp only [WireField.wireAlign]
    exact s.selfAlign_dvd
  | .array (.fixed _) e => by
    simp only [WireField.wireAlign]
    exact e.align_dvd
  | .array (.varying _) _ => countSize_dvd

theorem Element.align_dvd : (e : Element) → e.align ∣ 4
  | .scalar t => t.align_dvd
  | .string => by decide
  | .nested s => by
    simp only [Element.align]
    exact s.selfAlign_dvd

theorem WireStruct.selfAlign_dvd : (s : WireStruct) → s.selfAlign ∣ 4
  | .nil => by decide
  | .cons f rest => by
    simp only [WireStruct.selfAlign]
    exact max_dvd_four f.wireAlign_dvd rest.selfAlign_dvd

end

theorem Element.headAlign_dvd (e : Element) : e.headAlign ∣ 4 := by
  cases e with
  | scalar t => exact t.align_dvd
  | string => exact one_dvd 4
  | nested s => exact s.selfAlign_dvd

theorem alignUp_modEq {a c c' : Nat} (divides : a ∣ 4) (same : c ≡ c' [MOD 4]) : alignUp c a ≡ alignUp c' a [MOD 4] := by
  unfold alignUp Nat.ModEq at *
  rcases cases_dvd_four divides with rfl | rfl | rfl <;> omega

theorem dvd_modEq {a c c' : Nat} (divides : a ∣ 4) (same : c ≡ c' [MOD 4]) (dvd : a ∣ c) : a ∣ c' :=
  (Nat.ModEq.dvd_iff same divides).mp dvd

theorem ArrayMode.elementsStart_modEq (m : ArrayMode) {a c c' : Nat} (divides : a ∣ 4) (same : c ≡ c' [MOD 4]) :
    m.elementsStart a c ≡ m.elementsStart a c' [MOD 4] := by
  cases m with
  | fixed n => exact same
  | varying k => exact alignUp_modEq divides (same.add_right countSize)

theorem elementStart_modEq {a c c' : Nat} (divides : a ∣ 4) (first : Bool) (same : c ≡ c' [MOD 4]) :
    elementStart a first c ≡ elementStart a first c' [MOD 4] := by
  cases first with
  | true => exact same
  | false => exact alignUp_modEq divides same

theorem EndsEach.congr {size : Nat → Prop} {align : Nat} (divides : align ∣ 4) {n : Nat} {first : Bool} {c c' ends : Nat}
    (same : c ≡ c' [MOD 4]) (reached : EndsEach size align first n c ends) : EndsEach size align first n c' ends := by
  induction n generalizing first c c' with
  | zero => exact reached.trans same
  | succ n ih =>
    obtain ⟨k, sized, rest⟩ := reached
    exact ⟨k, sized, ih ((elementStart_modEq divides first same).add_right k) rest⟩

theorem Element.ends_congr {e : Element} {n c c' ends : Nat} (same : c ≡ c' [MOD 4]) (reached : e.Ends n c ends) :
    e.Ends n c' ends := by
  cases e with
  | scalar t => exact reached.trans (same.add_right _)
  | string =>
    simp only [Element.Ends] at reached ⊢
    by_cases none : n = 0
    · rw [if_pos none] at reached ⊢
      exact reached.trans same
    · rw [if_neg none] at reached ⊢
      exact reached
  | nested s =>
    simp only [Element.Ends] at reached ⊢
    exact reached.congr s.selfAlign_dvd same

theorem WireField.ends_congr {f : WireField} {c c' ends : Nat} (same : c ≡ c' [MOD 4]) (reached : f.Ends c ends) :
    f.Ends c' ends := by
  cases f with
  | scalar t => exact reached.trans (same.add_right _)
  | string k => exact reached
  | nested s =>
    simp only [WireField.Ends] at reached ⊢
    obtain ⟨k, sized, ends⟩ := reached
    exact ⟨k, sized, ends.trans (same.add_right k)⟩
  | array m e =>
    simp only [WireField.Ends] at reached ⊢
    obtain ⟨n, holds, ends⟩ := reached
    exact ⟨n, holds, Element.ends_congr (m.elementsStart_modEq e.headAlign_dvd same) ends⟩

theorem WireStruct.ends_congr : (s : WireStruct) → {c c' ends : Nat} → c ≡ c' [MOD 4] → s.Ends c ends → s.Ends c' ends
  | .nil, _, _, _, same, reached => reached.trans same
  | .cons f rest, c, c', ends, same, reached => by
    simp only [WireStruct.Ends] at reached ⊢
    obtain ⟨between, here, behind⟩ := reached
    exact ⟨between, WireField.ends_congr (alignUp_modEq f.wireAlign_dvd same) here, behind⟩

theorem SettledEach.congr {settled settled' size : Nat → Prop} {align : Nat} (divides : align ∣ 4)
    (one : ∀ {c c'}, c ≡ c' [MOD 4] → settled c → settled' c') {n : Nat} {first : Bool} {c c' : Nat}
    (same : c ≡ c' [MOD 4]) (all : SettledEach settled size align first n c) : SettledEach settled' size align first n c' := by
  induction n generalizing first c c' with
  | zero => trivial
  | succ n ih =>
    have start := elementStart_modEq divides first same
    exact ⟨one start all.1, fun k sized => ih (start.add_right k) (all.2 k sized)⟩

mutual

theorem WireField.settled_congr : (f : WireField) → {b b' c c' : Nat} → b ≡ b' [MOD 4] → c ≡ c' [MOD 4] →
    f.Settled b c → f.Settled b' c'
  | .scalar t, _, _, _, _, base, _, settled => dvd_modEq t.align_dvd base settled
  | .string _, _, _, _, _, base, _, settled => dvd_modEq countSize_dvd base settled
  | .nested s, _, _, _, _, base, cursor, settled => by
    simp only [WireField.Settled] at settled ⊢
    exact s.settled_congr (base.add cursor) rfl settled
  | .array m e, b, b', c, c', base, cursor, settled => by
    simp only [WireField.Settled] at settled ⊢
    refine ⟨?_, fun n holds => e.settled_congr base (m.elementsStart_modEq e.headAlign_dvd cursor) (settled.2 n holds)⟩
    cases m with
    | fixed n => trivial
    | varying k => exact dvd_modEq countSize_dvd base settled.1

theorem Element.settled_congr : (e : Element) → {n b b' c c' : Nat} → b ≡ b' [MOD 4] → c ≡ c' [MOD 4] →
    e.Settled n b c → e.Settled n b' c'
  | .scalar t, _, _, _, _, _, base, _, settled => settled.imp_right (dvd_modEq t.align_dvd base)
  | .string, _, _, _, _, _, base, _, settled => settled.imp_right (dvd_modEq countSize_dvd base)
  | .nested s, n, b, b', c, c', base, cursor, settled => by
    simp only [Element.Settled] at settled ⊢
    exact settled.congr s.selfAlign_dvd (fun same one => s.settled_congr (base.add same) rfl one) cursor

theorem WireStruct.settled_congr : (s : WireStruct) → {b b' c c' : Nat} → b ≡ b' [MOD 4] → c ≡ c' [MOD 4] →
    s.Settled b c → s.Settled b' c'
  | .nil, _, _, _, _, _, _, _ => trivial
  | .cons f rest, b, b', c, c', base, cursor, settled => by
    simp only [WireStruct.Settled] at settled ⊢
    have start := alignUp_modEq f.wireAlign_dvd cursor
    refine ⟨f.settled_congr base start settled.1, fun ends reached => ?_⟩
    exact rest.settled_congr base rfl (settled.2 ends (WireField.ends_congr start.symm reached))

end

/-! ### Every value ends at one of them -/

theorem textImage_end (bytes : Bytes) (cursor : Nat) : cursor + (textImage host bytes cursor).length ≡ 0 [MOD 4] := by
  have whole := add_padding_mod (cursor + 2 + (bytes.length + 1)) (by decide : 0 < 4)
  have length : cursor + (textImage host bytes cursor).length =
      cursor + 2 + (bytes.length + 1) + padding (cursor + 2 + (bytes.length + 1)) 4 := by
    simp only [textImage, andThen_length, ByteOrder.store_length, List.length_append, List.length_singleton, zeros_length]
    omega
  rw [length]
  exact whole

theorem pointerImage_end {v : Option (Text none)} (pointer : Pointer v) (cursor : Nat) :
    cursor + (pointerImage host v cursor).length ≡ 0 [MOD 4] := by
  obtain ⟨t, rfl, -⟩ := pointer
  exact textImage_end host t.bytes cursor

theorem ends_strings {l : List (Option (Text none))} (sendable : ∀ v ∈ l, Pointer v) (first : Bool) (cursor : Nat) :
    cursor + (imageEach (fun _ v => pointerImage host v) first l cursor).length ≡ (if l.length = 0 then cursor else 0) [MOD 4] := by
  induction l generalizing first cursor with
  | nil => rfl
  | cons v l ih =>
    have here := pointerImage_end host (sendable v List.mem_cons_self) cursor
    have rest := ih (fun w member => sendable w (List.mem_cons_of_mem v member)) false (cursor + (pointerImage host v cursor).length)
    simp only [imageEach, andThen_length, List.length_cons, Nat.add_one_ne_zero, if_false, ← Nat.add_assoc]
    by_cases none : l.length = 0
    · rw [if_pos none] at rest
      exact rest.trans here
    · rw [if_neg none] at rest
      exact rest

theorem ends_each {α : Type} {size : Nat → Prop} {align : Nat} (positive : 0 < align) (body : α → Bytes) {l : List α}
    (sized : ∀ a ∈ l, size (body a).length) (first : Bool) (cursor : Nat) :
    EndsEach size align first l.length cursor
      (cursor + (imageEach (fun first a => andThen (gapImage align first) fun _ => body a) first l cursor).length) := by
  induction l generalizing first cursor with
  | nil => exact Nat.ModEq.refl _
  | cons a l ih =>
    refine ⟨_, sized a List.mem_cons_self, ?_⟩
    have rest := ih (fun b member => sized b (List.mem_cons_of_mem a member)) false
      (elementStart align first cursor + (body a).length)
    have reach : cursor + (andThen (gapImage align first) (fun _ => body a) cursor).length =
        elementStart align first cursor + (body a).length := by
      rw [andThen_length, ← Nat.add_assoc, gapImage_end positive]
    simp only [imageEach]
    rw [andThen_length, ← Nat.add_assoc, reach]
    exact rest

theorem ArrayMode.holds_elements {α : Type} {m : ArrayMode} (v : m.Of α) : m.Holds (ArrayMode.elements v).length := by
  cases m with
  | fixed n => exact v.2
  | varying c => exact v.2

mutual

theorem WireField.ends_image : (f : WireField) → (v : f.Val) → f.Sendable v → (cursor : Nat) →
    f.Ends cursor (cursor + (f.image host v cursor).length)
  | .scalar t, v, _, cursor => by
    simp only [WireField.Ends, WireField.image, ByteOrder.store_length]
    exact Nat.ModEq.refl _
  | .string none, v, sendable, cursor => pointerImage_end host sendable cursor
  | .string (some _), v, _, cursor => textImage_end host v.bytes cursor
  | .nested s, v, sendable, cursor => by
    have inner := s.ends_image v sendable 0
    rw [Nat.zero_add] at inner
    simp only [WireField.Ends, WireField.image]
    exact ⟨_, inner, Nat.ModEq.refl _⟩
  | .array m e, v, sendable, cursor => by
    change m.Of e.Val at v
    simp only [WireField.Ends, WireField.image]
    refine ⟨(ArrayMode.elements v).length, ArrayMode.holds_elements v, ?_⟩
    rw [andThen_length, ← Nat.add_assoc, headImage_end host m _ e.headAlign_pos]
    exact e.ends_image (ArrayMode.elements v) sendable _

theorem Element.ends_image : (e : Element) → (l : List e.Val) → (∀ a ∈ l, e.Sendable a) → (cursor : Nat) →
    e.Ends l.length cursor (cursor + (e.image host l cursor).length)
  | .scalar t, l, _, cursor => by
    change List (Word t.size) at l
    have length := flatMap_store_length host l
    change cursor + (l.flatMap fun v => host.store t.size v.val).length ≡ cursor + l.length * t.size [MOD 4]
    rw [length]
  | .string, l, sendable, cursor => ends_strings host sendable true cursor
  | .nested s, l, sendable, cursor => by
    simp only [Element.Ends]
    apply ends_each s.selfAlign_pos
    intro a member
    have inner := s.ends_image a (sendable a member) 0
    rw [Nat.zero_add] at inner
    exact inner

theorem WireStruct.ends_image : (s : WireStruct) → (v : s.Val) → s.Sendable v → (cursor : Nat) →
    s.Ends cursor (cursor + (s.image host v cursor).length)
  | .nil, _, _, _ => Nat.ModEq.refl _
  | .cons f rest, v, sendable, cursor => by
    have here := f.ends_image v.1 sendable.1 (alignUp cursor f.wireAlign)
    have behind := rest.ends_image v.2 sendable.2
      (alignUp cursor f.wireAlign + (f.image host v.1 (alignUp cursor f.wireAlign)).length)
    simp only [WireStruct.Ends]
    refine ⟨_, here, ?_⟩
    simp only [WireStruct.image, andThen_length, zeros_length, ← Nat.add_assoc, ← alignUp_eq cursor f.wireAlign_pos]
    exact behind

end

/-! ### Some value ends at each of them -/

theorem emptyText_noNul : (0 : UInt8) ∉ [] := List.not_mem_nil

theorem emptyText_fits (bound : Option Nat) : ∀ n ∈ bound, ([] : Bytes).length ≤ n := fun n _ => Nat.zero_le n

def emptyText (bound : Option Nat) : Text bound := ⟨[], emptyText_noNul, emptyText_fits bound⟩

theorem emptyText_pointer : Pointer (some (emptyText none)) := ⟨_, rfl, by decide⟩

theorem ArrayMode.exists_elements {α : Type} {m : ArrayMode} {l : List α} (holds : m.Holds l.length) :
    ∃ v : m.Of α, ArrayMode.elements v = l := by
  cases m with
  | fixed n => exact ⟨⟨l, holds⟩, rfl⟩
  | varying c => exact ⟨⟨l, holds⟩, rfl⟩

theorem ArrayMode.exists_holds (m : ArrayMode) : ∃ n, m.Holds n := by
  cases m with
  | fixed n => exact ⟨n, rfl⟩
  | varying c => exact ⟨0, Nat.zero_le _, by decide⟩

mutual

theorem WireField.exists_sendable : (f : WireField) → ∃ v, f.Sendable v
  | .scalar t => ⟨word t.size 0, trivial⟩
  | .string none => ⟨some (emptyText none), emptyText_pointer⟩
  | .string (some c) => ⟨emptyText (some c.max), trivial⟩
  | .nested s => s.exists_sendable
  | .array m e => by
    obtain ⟨n, holds⟩ := m.exists_holds
    obtain ⟨a, sendable⟩ := e.exists_sendable
    have counted : m.Holds (List.replicate n a).length := by rwa [List.length_replicate]
    obtain ⟨v, elements⟩ := ArrayMode.exists_elements counted
    refine ⟨v, ?_⟩
    intro b member
    rw [elements] at member
    rw [List.eq_of_mem_replicate member]
    exact sendable

theorem Element.exists_sendable : (e : Element) → ∃ v, e.Sendable v
  | .scalar t => ⟨word t.size 0, trivial⟩
  | .string => ⟨some (emptyText none), emptyText_pointer⟩
  | .nested s => s.exists_sendable

theorem WireStruct.exists_sendable : (s : WireStruct) → ∃ v, s.Sendable v
  | .nil => ⟨(), trivial⟩
  | .cons f rest => by
    obtain ⟨v, sendable⟩ := f.exists_sendable
    obtain ⟨w, others⟩ := rest.exists_sendable
    exact ⟨(v, w), sendable, others⟩

end

/-- `n` values of an element, all of them sendable. -/
theorem Element.exists_list (e : Element) (n : Nat) : ∃ l : List e.Val, l.length = n ∧ ∀ a ∈ l, e.Sendable a := by
  obtain ⟨a, sendable⟩ := e.exists_sendable
  refine ⟨List.replicate n a, List.length_replicate, ?_⟩
  intro b member
  rw [List.eq_of_mem_replicate member]
  exact sendable

theorem exists_ends_each {α : Type} {good : α → Prop} {size : Nat → Prop} {align : Nat} (divides : align ∣ 4) (positive : 0 < align)
    (body : α → Bytes) (one : ∀ k, size k → ∃ a, good a ∧ (body a).length ≡ k [MOD 4]) {n : Nat} {first : Bool} {cursor ends : Nat}
    (reached : EndsEach size align first n cursor ends) : ∃ l : List α, l.length = n ∧ (∀ a ∈ l, good a) ∧
      cursor + (imageEach (fun first a => andThen (gapImage align first) fun _ => body a) first l cursor).length ≡ ends [MOD 4] := by
  induction n generalizing first cursor with
  | zero => exact ⟨[], rfl, by simp, reached.symm⟩
  | succ n ih =>
    obtain ⟨k, sized, rest⟩ := reached
    obtain ⟨a, fine, length⟩ := one k sized
    have onward := rest.congr divides (length.symm.add_left (elementStart align first cursor))
    obtain ⟨l, count, all, total⟩ := ih onward
    refine ⟨a :: l, by rw [List.length_cons, count], List.forall_mem_cons.mpr ⟨fine, all⟩, ?_⟩
    have reach : cursor + (andThen (gapImage align first) (fun _ => body a) cursor).length =
        elementStart align first cursor + (body a).length := by
      rw [andThen_length, ← Nat.add_assoc, gapImage_end positive]
    simp only [imageEach]
    rw [andThen_length, ← Nat.add_assoc, reach]
    exact total

mutual

theorem WireField.exists_ends : (f : WireField) → {cursor ends : Nat} → f.Ends cursor ends →
    ∃ v, f.Sendable v ∧ cursor + (f.image host v cursor).length ≡ ends [MOD 4]
  | .scalar t, cursor, ends, reached => by
    refine ⟨word t.size 0, trivial, ?_⟩
    simp only [WireField.image, ByteOrder.store_length]
    exact reached.symm
  | .string none, cursor, ends, reached =>
    ⟨some (emptyText none), emptyText_pointer, (pointerImage_end host emptyText_pointer cursor).trans reached.symm⟩
  | .string (some c), cursor, ends, reached =>
    ⟨emptyText (some c.max), trivial, (textImage_end host [] cursor).trans reached.symm⟩
  | .nested s, cursor, ends, reached => by
    simp only [WireField.Ends] at reached
    obtain ⟨k, sized, total⟩ := reached
    obtain ⟨v, sendable, length⟩ := s.exists_ends sized
    rw [Nat.zero_add] at length
    exact ⟨v, sendable, (length.add_left cursor).trans total.symm⟩
  | .array m e, cursor, ends, reached => by
    simp only [WireField.Ends] at reached
    obtain ⟨n, holds, total⟩ := reached
    obtain ⟨l, rfl, sendable, length⟩ := e.exists_ends total
    obtain ⟨v, rfl⟩ := ArrayMode.exists_elements holds
    refine ⟨v, sendable, ?_⟩
    simp only [WireField.image]
    rw [andThen_length, ← Nat.add_assoc, headImage_end host m _ e.headAlign_pos]
    exact length

theorem Element.exists_ends : (e : Element) → {n cursor ends : Nat} → e.Ends n cursor ends →
    ∃ l : List e.Val, l.length = n ∧ (∀ a ∈ l, e.Sendable a) ∧ cursor + (e.image host l cursor).length ≡ ends [MOD 4]
  | .scalar t, n, cursor, ends, reached => by
    refine ⟨List.replicate n (word t.size 0), List.length_replicate, fun _ _ => trivial, ?_⟩
    have length := flatMap_store_length host (List.replicate n (word t.size 0))
    rw [List.length_replicate] at length
    change cursor + ((List.replicate n (word t.size 0)).flatMap fun v => host.store t.size v.val).length ≡ ends [MOD 4]
    rw [length]
    exact reached.symm
  | .string, n, cursor, ends, reached => by
    have sendable : ∀ v ∈ List.replicate n (some (emptyText none)), Pointer v := by
      intro v member
      rw [List.eq_of_mem_replicate member]
      exact emptyText_pointer
    have total := ends_strings host sendable true cursor
    rw [List.length_replicate] at total
    exact ⟨_, List.length_replicate, sendable, total.trans reached.symm⟩
  | .nested s, n, cursor, ends, reached => by
    simp only [Element.Ends] at reached
    apply exists_ends_each s.selfAlign_dvd s.selfAlign_pos (fun v => s.image host v 0) _ reached
    intro k sized
    obtain ⟨v, sendable, length⟩ := s.exists_ends sized
    rw [Nat.zero_add] at length
    exact ⟨v, sendable, length⟩

theorem WireStruct.exists_ends : (s : WireStruct) → {cursor ends : Nat} → s.Ends cursor ends →
    ∃ v, s.Sendable v ∧ cursor + (s.image host v cursor).length ≡ ends [MOD 4]
  | .nil, cursor, ends, reached => ⟨(), trivial, reached.symm⟩
  | .cons f rest, cursor, ends, reached => by
    simp only [WireStruct.Ends] at reached
    obtain ⟨between, here, behind⟩ := reached
    obtain ⟨v, sendable, length⟩ := f.exists_ends here
    obtain ⟨w, others, total⟩ := rest.exists_ends (rest.ends_congr length.symm behind)
    refine ⟨(v, w), ⟨sendable, others⟩, ?_⟩
    simp only [WireStruct.image, andThen_length, zeros_length, ← Nat.add_assoc, ← alignUp_eq cursor f.wireAlign_pos]
    exact total

end

/-! ## Aligned where the messages are -/

def AllAligned (base : Nat) (placed : List Placed) : Prop := ∀ p ∈ placed, p.AlignedFrom base

theorem allAligned_append {base : Nat} {l l' : List Placed} : AllAligned base (l ++ l') ↔ AllAligned base l ∧ AllAligned base l' :=
  List.forall_mem_append

theorem allAligned_shift {base k : Nat} {l : List Placed} : AllAligned base (l.map (Placed.shift k)) ↔ AllAligned (base + k) l := by
  unfold AllAligned
  rw [List.forall_mem_map]
  simp only [Placed.AlignedFrom, Placed.shift, Nat.add_assoc]

/-- One that is aligned from where its message starts. -/
theorem allAligned_word {base cursor size value : Nat} (aligned : cursor % min size 4 = 0) :
    AllAligned base [⟨cursor, size, value⟩] ↔ min size 4 ∣ base := by
  have divides := Nat.dvd_of_mod_eq_zero aligned
  unfold AllAligned
  rw [List.forall_mem_singleton]
  exact Nat.dvd_iff_mod_eq_zero.symm.trans (Nat.dvd_add_left divides)

theorem ScalarType.size_mod (t : ScalarType) : t.size % t.align = 0 := by
  cases t <;> decide

theorem aligned_words {w : Nat} (whole : w % min w 4 = 0) (l : List (Word w)) {base cursor : Nat} (aligned : cursor % min w 4 = 0) :
    AllAligned base (wordsPlaced l cursor) ↔ l.length = 0 ∨ min w 4 ∣ base := by
  induction l generalizing cursor with
  | nil => exact ⟨fun _ => .inl rfl, fun _ => List.forall_mem_nil _⟩
  | cons v l ih =>
    have next : (cursor + w) % min w 4 = 0 := by
      rw [Nat.add_mod, aligned, whole]
      simp
    have here := @allAligned_word base cursor w v.val aligned
    change AllAligned base ([⟨cursor, w, v.val⟩] ++ wordsPlaced l (cursor + w)) ↔ _
    rw [allAligned_append, here, ih next]
    simp only [List.length_cons, Nat.add_one_ne_zero, false_or]
    exact ⟨And.left, fun divides => ⟨divides, .inr divides⟩⟩

theorem aligned_strings {l : List (Option (Text none))} (sendable : ∀ v ∈ l, Pointer v) (first : Bool) {base cursor : Nat}
    (aligned : cursor % countSize = 0) :
    AllAligned base (placeEach (fun _ v => pointerImage host v) (fun _ v => pointerPlaced v) first l cursor) ↔
      l.length = 0 ∨ countSize ∣ base := by
  induction l generalizing cursor first with
  | nil => exact ⟨fun _ => .inl rfl, fun _ => List.forall_mem_nil _⟩
  | cons v l ih =>
    have ends := pointerImage_end host (sendable v List.mem_cons_self) cursor
    have next : (cursor + (pointerImage host v cursor).length) % countSize = 0 := by
      unfold Nat.ModEq at ends
      unfold countSize
      omega
    have rest := ih (fun w member => sendable w (List.mem_cons_of_mem v member)) false next
    obtain ⟨t, rfl, -⟩ := sendable v List.mem_cons_self
    have here := @allAligned_word base cursor 2 (t.bytes.length + 1) aligned
    simp only [placeEach]
    rw [allAligned_append, rest]
    simp only [List.length_cons, Nat.add_one_ne_zero, false_or]
    exact ⟨fun both => here.mp both.1, fun divides => ⟨here.mpr divides, .inr divides⟩⟩

/-- Messages one behind another, each aligned in itself where it starts. -/
theorem aligned_each {α : Type} {good : α → Prop} {settled size : Nat → Prop} {align : Nat} (divides : align ∣ 4) (positive : 0 < align)
    (body : α → Bytes) (place : α → List Placed) (base : Nat)
    (one : ∀ start, (∀ a, good a → AllAligned (base + start) (place a)) ↔ settled start)
    (residue : ∀ {c c'}, c ≡ c' [MOD 4] → settled c → settled c') (sized : ∀ a, good a → size (body a).length)
    (reached : ∀ k, size k → ∃ a, good a ∧ (body a).length ≡ k [MOD 4]) (some_ : ∃ a, good a) (n : Nat) (first : Bool)
    (cursor : Nat) :
    (∀ l : List α, l.length = n → (∀ a ∈ l, good a) →
      AllAligned base (placeEach (fun first a => andThen (gapImage align first) fun _ => body a)
        (fun first a encoded => (place a).map (Placed.shift (elementStart align first encoded))) first l cursor)) ↔
      SettledEach settled size align first n cursor := by
  induction n generalizing first cursor with
  | zero =>
    refine ⟨fun _ => trivial, fun _ l empty _ => ?_⟩
    cases List.length_eq_zero_iff.mp empty
    exact List.forall_mem_nil _
  | succ n ih =>
    have reach : ∀ a, cursor + (andThen (gapImage align first) (fun _ => body a) cursor).length =
        elementStart align first cursor + (body a).length := by
      intro a
      rw [andThen_length, ← Nat.add_assoc, gapImage_end positive]
    constructor
    · intro all
      have both : ∀ a, good a → ∀ l : List α, l.length = n → (∀ b ∈ l, good b) → AllAligned (base + elementStart align first cursor)
          (place a) ∧ AllAligned base (placeEach (fun first a => andThen (gapImage align first) fun _ => body a)
            (fun first a encoded => (place a).map (Placed.shift (elementStart align first encoded))) false l
            (elementStart align first cursor + (body a).length)) := by
        intro a fine l count others
        have placed := all (a :: l) (by rw [List.length_cons, count]) (List.forall_mem_cons.mpr ⟨fine, others⟩)
        simp only [placeEach] at placed
        rw [allAligned_append, allAligned_shift, reach] at placed
        exact placed
      obtain ⟨b, good_⟩ := some_
      have rest : ∀ c ∈ List.replicate n b, good c := fun c member => by rwa [List.eq_of_mem_replicate member]
      refine ⟨(one _).mp fun a fine => (both a fine _ List.length_replicate rest).1, ?_⟩
      intro k size_
      obtain ⟨a, fine, length⟩ := reached k size_
      have behind := (ih false _).mp fun l count others => (both a fine l count others).2
      exact behind.congr divides residue (length.add_left _)
    · intro settled_ l count fine
      cases l with
      | nil => cases count
      | cons a l =>
        obtain ⟨here, others⟩ := List.forall_mem_cons.mp fine
        simp only [placeEach]
        rw [allAligned_append, allAligned_shift, reach]
        refine ⟨(one _).mpr settled_.1 a here, ?_⟩
        exact (ih false _).mpr (settled_.2 _ (sized a here)) l (Nat.succ_injective count) others

theorem aligned_count {m : ArrayMode} {n base cursor : Nat} (aligned : (∃ c, m = .varying c) → cursor % countSize = 0) :
    AllAligned base (countPlaced m n cursor) ↔ m.CountSettled base := by
  cases m with
  | fixed k => exact ⟨fun _ => trivial, fun _ => List.forall_mem_nil _⟩
  | varying c => exact allAligned_word (aligned ⟨c, rfl⟩)

/-- The elements of a field that is aligned are aligned. -/
theorem ArrayMode.elementsStart_aligned (m : ArrayMode) (e : Element) {cursor : Nat}
    (aligned : cursor % (WireField.array m e).wireAlign = 0) : m.elementsStart e.headAlign cursor % e.align = 0 := by
  cases m with
  | fixed n => exact aligned
  | varying c =>
    cases e with
    | scalar t => exact alignUp_mod _ t.align_pos
    | nested s => exact alignUp_mod _ s.selfAlign_pos
    | string =>
      change alignUp (cursor + countSize) 1 % countSize = 0
      change cursor % countSize = 0 at aligned
      unfold alignUp countSize at *
      omega

mutual

theorem WireField.aligned_iff : (f : WireField) → (base cursor : Nat) → cursor % f.wireAlign = 0 →
    ((∀ v, f.Sendable v → AllAligned base (f.placed host v cursor)) ↔ f.Settled base cursor)
  | .scalar t, base, cursor, aligned => by
    constructor
    · intro all
      exact (allAligned_word aligned).mp (all (word t.size 0) trivial)
    · intro settled v _
      exact (allAligned_word aligned).mpr settled
  | .string none, base, cursor, aligned => by
    constructor
    · intro all
      exact (allAligned_word aligned).mp (all (some (emptyText none)) emptyText_pointer)
    · rintro settled v ⟨t, rfl, -⟩
      exact (allAligned_word aligned).mpr settled
  | .string (some c), base, cursor, aligned => by
    constructor
    · intro all
      exact (allAligned_word aligned).mp (all (emptyText (some c.max)) trivial)
    · intro settled v _
      exact (allAligned_word aligned).mpr settled
  | .nested s, base, cursor, aligned => by
    simp only [WireField.Settled, WireField.placed, allAligned_shift]
    exact s.aligned_iff (base + cursor) 0
  | .array m e, base, cursor, aligned => by
    have even : (∃ c, m = .varying c) → cursor % countSize = 0 := by
      rintro ⟨c, rfl⟩
      exact aligned
    have elements := fun n => e.aligned_iff n base _ (m.elementsStart_aligned e aligned)
    simp only [WireField.Settled]
    constructor
    · intro all
      have both : ∀ l : List e.Val, m.Holds l.length → (∀ a ∈ l, e.Sendable a) → m.CountSettled base ∧
          AllAligned base (e.placed host l (m.elementsStart e.headAlign cursor)) := by
        intro l holds sendable
        obtain ⟨v, rfl⟩ := ArrayMode.exists_elements holds
        have placed := allAligned_append.mp (all v sendable)
        exact ⟨(aligned_count even).mp placed.1, placed.2⟩
      constructor
      · obtain ⟨n, holds⟩ := m.exists_holds
        obtain ⟨l, rfl, sendable⟩ := e.exists_list n
        exact (both l holds sendable).1
      · intro n holds
        apply (elements n).mp
        rintro l rfl sendable
        exact (both l holds sendable).2
    · rintro ⟨count, settled⟩ v sendable
      change m.Of e.Val at v
      exact allAligned_append.mpr ⟨(aligned_count even).mpr count,
        (elements _).mpr (settled _ (ArrayMode.holds_elements v)) (ArrayMode.elements v) rfl sendable⟩

theorem Element.aligned_iff : (e : Element) → (n base cursor : Nat) → cursor % e.align = 0 →
    ((∀ l : List e.Val, l.length = n → (∀ a ∈ l, e.Sendable a) → AllAligned base (e.placed host l cursor)) ↔
      e.Settled n base cursor)
  | .scalar t, n, base, cursor, aligned => by
    constructor
    · intro all
      have placed := all (List.replicate n (word t.size 0)) List.length_replicate fun _ _ => trivial
      have divides := (aligned_words t.size_mod (List.replicate n (word t.size 0)) aligned).mp placed
      rw [List.length_replicate] at divides
      exact divides
    · rintro settled l rfl _
      exact (aligned_words t.size_mod l aligned).mpr settled
  | .string, n, base, cursor, aligned => by
    constructor
    · intro all
      obtain ⟨l, rfl, sendable⟩ := Element.string.exists_list n
      exact (aligned_strings host sendable true aligned).mp (all l rfl sendable)
    · rintro settled l rfl sendable
      exact (aligned_strings host sendable true aligned).mpr settled
  | .nested s, n, base, cursor, aligned => by
    simp only [Element.Settled]
    apply aligned_each s.selfAlign_dvd s.selfAlign_pos (fun v => s.image host v 0) (fun v => s.placed host v 0) base
    · intro start
      exact s.aligned_iff (base + start) 0
    · intro c c' same settled
      exact s.settled_congr (same.add_left base) rfl settled
    · intro a sendable
      have inner := s.ends_image host a sendable 0
      rw [Nat.zero_add] at inner
      exact inner
    · intro k sized
      obtain ⟨v, sendable, length⟩ := s.exists_ends host sized
      rw [Nat.zero_add] at length
      exact ⟨v, sendable, length⟩
    · exact s.exists_sendable

theorem WireStruct.aligned_iff : (s : WireStruct) → (base cursor : Nat) →
    ((∀ v, s.Sendable v → AllAligned base (s.placed host v cursor)) ↔ s.Settled base cursor)
  | .nil, base, cursor => ⟨fun _ => trivial, fun _ _ _ => List.forall_mem_nil _⟩
  | .cons f rest, base, cursor => by
    have here := f.aligned_iff base (alignUp cursor f.wireAlign) (alignUp_mod cursor f.wireAlign_pos)
    simp only [WireStruct.Settled]
    constructor
    · intro all
      have both : ∀ v w, f.Sendable v → rest.Sendable w → AllAligned base (f.placed host v (alignUp cursor f.wireAlign)) ∧
          AllAligned base (rest.placed host w
            (alignUp cursor f.wireAlign + (f.image host v (alignUp cursor f.wireAlign)).length)) :=
        fun v w sendable others => allAligned_append.mp (all (v, w) ⟨sendable, others⟩)
      constructor
      · obtain ⟨w, others⟩ := rest.exists_sendable
        exact here.mp fun v sendable => (both v w sendable others).1
      · intro ends reached
        obtain ⟨v, sendable, length⟩ := f.exists_ends host reached
        have behind := (rest.aligned_iff base _).mp fun w others => (both v w sendable others).2
        exact rest.settled_congr rfl length behind
    · rintro ⟨settled, behind⟩ v sendable
      refine allAligned_append.mpr ⟨here.mpr settled v.1 sendable.1, ?_⟩
      exact (rest.aligned_iff base _).mpr (behind _ (f.ends_image host v.1 sendable.1 _)) v.2 sendable.2

end

namespace WireStruct

/-- The encoder stores each integer and float at its place, and the places are aligned in every value of the type exactly if
the messages in it are settled. -/
theorem aligned_iff_settled (s : WireStruct) :
    (∀ (host : ByteOrder) (v : s.Val) (n len : Nat), s.encodeSize v = .ok n → n ≤ len → ∃ bytes, s.encode host v len = .ok bytes ∧
      ∀ p ∈ s.placed host v 0, bytesAt bytes p.offset p.size = host.store p.size p.value) ∧
    ((∀ (host : ByteOrder) (v : s.Val), s.Sendable v → ∀ p ∈ s.placed host v 0, p.offset % min p.size 4 = 0) ↔ s.Settled 0 0) := by
  constructor
  · intro host v n len measured room
    refine ⟨s.image host v 0, ?_, ?_⟩
    · rw [encode_eq host measured len, if_pos room]
    · intro p member
      have stored := s.image_stores host v [] [] p member
      simpa using stored
  · have same : ∀ (host : ByteOrder) (v : s.Val), AllAligned 0 (s.placed host v 0) ↔
        ∀ p ∈ s.placed host v 0, p.offset % min p.size 4 = 0 := by
      intro host v
      simp only [AllAligned, Placed.AlignedFrom, Nat.zero_add]
    constructor
    · intro all
      exact (s.aligned_iff .little 0 0).mp fun v sendable => (same .little v).mpr (all .little v sendable)
    · intro settled host v sendable
      exact (same host v).mp ((s.aligned_iff host 0 0).mpr settled v sendable)

/-- A message of readings: a variable array counts with its count's alignment, so the message is placed at even offsets. -/
def readingsOnly : WireStruct := .cons (.array (.varying ⟨3, .bounded⟩) (.scalar .uint32)) .nil

/-- `uint16 a` and the readings. -/
def stamped : WireStruct := .cons (.scalar .uint16) (.cons (.nested readingsOnly) .nil)

def stampedValue : stamped.Val := (word 2 1, (readings, ()), ())

/-- The readings' own elements stand 6 and 10 bytes into the payload. -/
theorem stamped_misaligned : ∃ bytes, stamped.encode .little stampedValue 64 = .ok bytes ∧ bytesAt bytes 6 4 = [5, 0, 0, 0] ∧
    stamped.placed .little stampedValue 0 = [⟨0, 2, 1⟩, ⟨2, 2, 2⟩, ⟨6, 4, 5⟩, ⟨10, 4, 6⟩] ∧ 6 % min 4 4 ≠ 0 := by
  refine ⟨[1, 0, 2, 0, 0, 0, 5, 0, 0, 0, 6, 0, 0, 0], ?_, rfl, rfl, by decide⟩
  rfl

/-- With a `uint32` beside the readings the message is placed at multiples of 4. -/
def paired : WireStruct := .cons (.scalar .uint16) (.cons (.nested (.cons (.scalar .uint32) readingsOnly)) .nil)

def pairedValue : paired.Val := (word 2 1, (word 4 9, (readings, ())), ())

theorem paired_settled : paired.Settled 0 0 := by
  refine ⟨Nat.dvd_zero _, ?_⟩
  intro ends _
  have start : 4 ∣ 0 + alignUp ends 4 := by
    rw [Nat.zero_add]
    exact Nat.dvd_of_mod_eq_zero (alignUp_mod ends (by decide))
  have even : countSize ∣ 0 + alignUp ends 4 := Nat.dvd_trans (by decide) start
  refine ⟨⟨start, ?_⟩, fun _ _ => trivial⟩
  intro ends' _
  exact ⟨⟨even, fun n _ => .inr start⟩, fun _ _ => trivial⟩

theorem paired_aligned : paired.encodeSize pairedValue = .ok 20 ∧ (∃ bytes, paired.encode .big pairedValue 20 = .ok bytes ∧
      ∀ p ∈ paired.placed .big pairedValue 0, bytesAt bytes p.offset p.size = ByteOrder.big.store p.size p.value) ∧
    ∀ (host : ByteOrder) (v : paired.Val), paired.Sendable v → ∀ p ∈ paired.placed host v 0, p.offset % min p.size 4 = 0 := by
  have measured : paired.encodeSize pairedValue = .ok 20 := by decide
  exact ⟨measured, (aligned_iff_settled paired).1 .big pairedValue 20 20 measured (by decide),
    (aligned_iff_settled paired).2.mpr paired_settled⟩

end WireStruct

end TypeSupport

end Tickle
