import Tickle.Codec.RoundTrip

/-! # The largest encoding of a type

`max_encoded_size` walks the fields once, every array at its capacity and every bounded string full, and
`_resolve_auto_capacities` gives a trailing array the capacity that fills the datagram. A shorter value may need more padding somewhere,
but it never ends later: aligning keeps the order of offsets, so each field ends no later than it does in the walk.
-/

namespace Tickle

namespace TypeSupport

open Cursor

/-! ## Definitions -/

/-- `_nested_array_end`. -/
def nestedArrayEnd (mode : ArrayMode) (elementMax elementAlign offset : Nat) : Nat :=
  let perElement := alignUp elementMax elementAlign
  match mode with
  | .fixed arraySize => offset + arraySize * perElement
  | .varying capacity => alignUp (offset + countSize) elementAlign + capacity.max * perElement

mutual

/-- One field of `max_encoded_size`, with its alignment in `total`. -/
def WireField.maxEnd : WireField → Nat → Option Nat
  | .scalar t, total => some (total + t.size)
  | .string none, _ => none
  | .string (some c), total => some (alignUp (total + (countSize + c.max + 1)) 4)
  | .nested s, total => (s.maxEncodedFrom 0).map fun nestedMax => total + nestedMax
  | .array _ .string, _ => none
  | .array m (.nested s), total => (s.maxEncodedFrom 0).map fun nestedMax => nestedArrayEnd m nestedMax s.selfAlign total
  | .array (.fixed n) (.scalar t), total => some (total + n * t.size)
  | .array (.varying c) (.scalar t), total => some (alignUp (total + countSize) t.align + c.max * t.size)

/-- The loop of `max_encoded_size`. -/
def WireStruct.maxEncodedFrom : WireStruct → Nat → Option Nat
  | .nil, total => some total
  | .cons f rest, total =>
    match f.maxEnd (alignUp total f.wireAlign) with
    | none => none
    | some total => rest.maxEncodedFrom total

end

/-- `max_encoded_size`. -/
def WireStruct.maxEncodedSize (s : WireStruct) : Option Nat := s.maxEncodedFrom 0

/-- A field as the interface declares it: a variable array may have no capacity yet. -/
inductive DeclaredField where
  | sized (f : WireField)
  | unsized (element : Element)

def DeclaredField.isUnsized : DeclaredField → Bool
  | .sized _ => false
  | .unsized _ => true

def DeclaredField.sized? : DeclaredField → Option WireField
  | .sized f => some f
  | .unsized _ => none

/-- What `_resolve_auto_capacities` raises. A preceding field is told by its index, and an element without bytes divides
by zero. -/
inductive AutoError where
  | notTrailing
  | stringElements
  | varyingElements
  | varyingBefore (index : Nat)
  | zeroDivision
  | noRoom
  deriving DecidableEq, Repr

/-- `FRAMING_OVERHEAD`. -/
def framingOverhead : Nat := 28

/-- `TT_IPV4_UDP_MAX_PAYLOAD`. -/
def ipv4UdpMaxPayload : Nat := 65507

/-- What `set_max_buffer_length` lets `max_buffer_length` be. -/
structure BufferLength where
  value : Nat
  above : framingOverhead < value
  atMost : value ≤ ipv4UdpMaxPayload

/-- Indices of the arrays left without a capacity. -/
def needsAuto (fields : List DeclaredField) : List Nat :=
  (fields.zipIdx.filter fun field => field.1.isUnsized).map Prod.snd

/-- The offset behind the fields in front of the array. -/
def precedingEnd : List WireField → (index offset : Nat) → Except AutoError Nat
  | [], _, offset => .ok offset
  | f :: fields, index, offset =>
    match f.wireSize with
    | none => .error (.varyingBefore index)
    | some k => precedingEnd fields (index + 1) (alignUp offset f.wireAlign + k)

/-- The bytes an element is budgeted with: a scalar's size, a message's stride. -/
def Element.autoSize : Element → Except AutoError Nat
  | .scalar t => .ok t.size
  | .string => .error .stringElements
  | .nested s =>
    match s.wireSize with
    | none => .error .varyingElements
    | some k => .ok (alignUp k s.selfAlign)

/-- `remaining // element_size`, at least 1. -/
def autoCapacity (budget offset : Int) (elementSize : Nat) : Except AutoError Nat :=
  if elementSize = 0 then .error .zeroDivision
  else if (budget - offset) / elementSize < 1 then .error .noRoom
  else .ok ((budget - offset) / elementSize).toNat

/-- `_resolve_auto_capacities`. -/
def resolveAutoCapacities (buffer : BufferLength) (reserve : Nat) (fields : List DeclaredField) :
    Except AutoError (List WireField) :=
  let preceding := fields.dropLast.filterMap DeclaredField.sized?
  match needsAuto fields, fields.getLast? with
  | [index], some (.unsized element) =>
    if index ≠ fields.length - 1 then .error .notTrailing
    else do
      let elementSize ← element.autoSize
      let offset ← precedingEnd preceding 0 0
      let offset := alignUp (alignUp offset countSize + countSize) element.align
      let budget : Int := (buffer.value : Int) - framingOverhead - reserve
      let capacity ← autoCapacity budget offset elementSize
      .ok (preceding ++ [.array (.varying ⟨capacity, .auto⟩) element])
  | [], _ => .ok (fields.filterMap DeclaredField.sized?)
  | _, _ => .error .notTrailing

/-- The struct of a list of fields. -/
def WireStruct.ofFields : List WireField → WireStruct
  | [] => .nil
  | f :: fields => .cons f (ofFields fields)

/-! ## Aligning keeps the order of offsets -/

theorem le_alignUp (n : Nat) {a : Nat} (positive : 0 < a) : n ≤ alignUp n a := by
  rw [alignUp_eq n positive]
  exact Nat.le_add_right _ _

theorem alignUp_mod (n : Nat) {a : Nat} (positive : 0 < a) : alignUp n a % a = 0 := by
  rw [alignUp_eq n positive]
  exact add_padding_mod n positive

theorem alignUp_mono {m n : Nat} (a : Nat) (le : m ≤ n) : alignUp m a ≤ alignUp n a := by
  unfold alignUp
  apply Nat.mul_le_mul_right
  apply Nat.div_le_div_right
  omega

theorem alignUp_add {m a : Nat} (k : Nat) (positive : 0 < a) (aligned : m % a = 0) : alignUp (m + k) a = m + alignUp k a := by
  rw [alignUp_eq _ positive, alignUp_eq _ positive, padding_add k aligned, Nat.add_assoc]

/-- From any cursor up to `low` the image ends by `high`. -/
def Within (low high : Nat) (image : Nat → Bytes) : Prop := ∀ cursor ≤ low, cursor + (image cursor).length ≤ high

theorem Within.andThen {low between high : Nat} {first second : Nat → Bytes} (one : Within low between first)
    (two : Within between high second) : Within low high (andThen first second) := by
  intro cursor below
  have ends := two _ (one cursor below)
  rw [andThen_length]
  omega

theorem within_padding (low : Nat) {a : Nat} (positive : 0 < a) :
    Within low (alignUp low a) fun cursor => zeros (padding cursor a) := by
  intro cursor below
  rw [zeros_length, ← alignUp_eq cursor positive]
  exact alignUp_mono a below

theorem within_bytes {low k : Nat} {image : Nat → Bytes} (short : ∀ cursor, (image cursor).length ≤ k) :
    Within low (low + k) image := by
  intro cursor below
  have length := short cursor
  omega

/-- Nested elements: a gap in front of all but the first, none longer than `most`. -/
theorem within_each {α : Type} {align most : Nat} (positive : 0 < align) (body : α → Bytes) (l : List α)
    (short : ∀ a ∈ l, (body a).length ≤ most) (first : Bool) {low : Nat} (aligned : low % align = 0) :
    Within low (low + l.length * alignUp most align)
      (imageEach (fun first a => andThen (gapImage align first) fun _ => body a) first l) := by
  induction l generalizing low first with
  | nil =>
    intro cursor below
    simpa [imageEach] using below
  | cons a l ih =>
    have gap : Within low low (gapImage align first) := by
      cases first with
      | true =>
        intro cursor below
        exact below
      | false =>
        have padded := within_padding low positive
        rw [alignUp_of_aligned positive aligned] at padded
        exact padded
    have here : Within low (low + alignUp most align) fun _ => body a :=
      within_bytes fun _ => (short a List.mem_cons_self).trans (le_alignUp most positive)
    have next : (low + alignUp most align) % align = 0 := by
      rw [Nat.add_mod, aligned, alignUp_mod most positive]
      simp
    have rest := ih (fun b member => short b (List.mem_cons_of_mem a member)) false next
    have whole := (gap.andThen here).andThen rest
    rw [List.length_cons, Nat.succ_mul, Nat.add_comm (l.length * _), ← Nat.add_assoc]
    exact whole

/-! ## No value outgrows the walk -/

variable (order : ByteOrder)

theorem within_text (bytes : Bytes) {most : Nat} (short : bytes.length ≤ most) (low : Nat) :
    Within low (alignUp (low + (countSize + most + 1)) 4) (textImage order bytes) := by
  have length : Within low (low + countSize) fun _ => order.store 2 (bytes.length + 1) :=
    within_bytes fun _ => by rw [ByteOrder.store_length]; rfl
  have text : Within (low + countSize) (low + countSize + (most + 1)) fun _ => bytes ++ [0] :=
    within_bytes fun _ => by simpa using short
  have padded := within_padding (low + countSize + (most + 1)) (by decide : 0 < 4)
  have whole := length.andThen (text.andThen padded)
  rw [show low + (countSize + most + 1) = low + countSize + (most + 1) by omega]
  exact whole

/-- Where the elements of an array start at the latest. -/
def ArrayMode.elementsStart : ArrayMode → (align offset : Nat) → Nat
  | .fixed _, _, offset => offset
  | .varying _, align, offset => alignUp (offset + countSize) align

theorem within_head (m : ArrayMode) (count : Nat) {align : Nat} (positive : 0 < align) (low : Nat) :
    Within low (m.elementsStart align low) (headImage order m count align) := by
  cases m with
  | fixed n =>
    intro cursor below
    exact below
  | varying c =>
    have counted : Within low (low + countSize) fun _ => order.store 2 count :=
      within_bytes fun _ => by rw [ByteOrder.store_length]; rfl
    exact counted.andThen (within_padding _ positive)

theorem ArrayMode.elementsStart_mod (m : ArrayMode) {align offset : Nat} (positive : 0 < align)
    (aligned : (∃ n, m = .fixed n) → offset % align = 0) : m.elementsStart align offset % align = 0 := by
  cases m with
  | fixed n => exact aligned ⟨n, rfl⟩
  | varying c => exact alignUp_mod _ positive

/-- How many elements an array has at most. -/
def ArrayMode.most : ArrayMode → Nat
  | .fixed n => n
  | .varying c => c.max

theorem ArrayMode.elements_le {α : Type} {m : ArrayMode} (v : m.Of α) : (ArrayMode.elements v).length ≤ m.most := by
  cases m with
  | fixed n => exact v.2.le
  | varying c => exact v.2.1

theorem nestedArrayEnd_eq (m : ArrayMode) (most align offset : Nat) :
    nestedArrayEnd m most align offset = m.elementsStart align offset + m.most * alignUp most align := by
  cases m with
  | fixed n => rfl
  | varying c => rfl

mutual

theorem WireField.within_maxEnd : (f : WireField) → {low high : Nat} → f.maxEnd low = some high →
    low % f.wireAlign = 0 → (v : f.Val) → Within low high (f.image order v) ∧ f.Sendable v
  | .scalar t, low, high, ends, _, v => by
    simp only [WireField.maxEnd, Option.some.injEq] at ends
    subst ends
    exact ⟨within_bytes fun _ => (order.store_length t.size v.val).le, trivial⟩
  | .string none, _, _, ends, _, _ => by simp [WireField.maxEnd] at ends
  | .string (some c), low, high, ends, _, v => by
    simp only [WireField.maxEnd, Option.some.injEq] at ends
    subst ends
    exact ⟨within_text order v.bytes (v.fits c.max rfl) low, trivial⟩
  | .nested s, low, high, ends, _, v => by
    simp only [WireField.maxEnd, Option.map_eq_some_iff] at ends
    obtain ⟨most, inner, rfl⟩ := ends
    obtain ⟨within, sendable⟩ := s.within_maxEncoded inner v
    have length : (s.image order v 0).length ≤ most := by simpa using within 0 (Nat.le_refl 0)
    exact ⟨within_bytes fun _ => length, sendable⟩
  | .array _ .string, _, _, ends, _, _ => by simp [WireField.maxEnd] at ends
  | .array m (.nested s), low, high, ends, aligned, v => by
    simp only [WireField.maxEnd, Option.map_eq_some_iff] at ends
    obtain ⟨most, inner, rfl⟩ := ends
    change m.Of s.Val at v
    have each : ∀ a : s.Val, (s.image order a 0).length ≤ most ∧ s.Sendable a := by
      intro a
      obtain ⟨within, sendable⟩ := s.within_maxEncoded inner a
      have length := within 0 (Nat.le_refl 0)
      exact ⟨by omega, sendable⟩
    have head := within_head order m (ArrayMode.elements v).length s.selfAlign_pos low
    have start : m.elementsStart s.selfAlign low % s.selfAlign = 0 := by
      apply m.elementsStart_mod s.selfAlign_pos
      rintro ⟨n, rfl⟩
      exact aligned
    have elements := within_each s.selfAlign_pos (fun a => s.image order a 0) (ArrayMode.elements v)
      (fun a _ => (each a).1) true start
    have count := Nat.mul_le_mul_right (alignUp most s.selfAlign) (ArrayMode.elements_le v)
    refine ⟨?_, fun a _ => (each a).2⟩
    intro cursor below
    have whole := (head.andThen elements) cursor below
    rw [nestedArrayEnd_eq]
    exact whole.trans (Nat.add_le_add_left count _)
  | .array (.fixed n) (.scalar t), low, high, ends, _, v => by
    simp only [WireField.maxEnd, Option.some.injEq] at ends
    subst ends
    change (ArrayMode.fixed n).Of (Word t.size) at v
    have words := flatMap_store_length order (ArrayMode.elements v)
    have count : (ArrayMode.elements v).length = n := v.2
    rw [count] at words
    exact ⟨within_bytes fun _ => words.le, fun _ _ => trivial⟩
  | .array (.varying c) (.scalar t), low, high, ends, _, v => by
    simp only [WireField.maxEnd, Option.some.injEq] at ends
    subst ends
    change (ArrayMode.varying c).Of (Word t.size) at v
    have head := within_head order (.varying c) (ArrayMode.elements v).length t.align_pos low
    have words : ∀ cursor, ((Element.scalar t).image order (ArrayMode.elements v) cursor).length ≤ c.max * t.size := by
      intro cursor
      have length := flatMap_store_length order (ArrayMode.elements v)
      exact length.trans_le (Nat.mul_le_mul_right _ (ArrayMode.elements_le v))
    exact ⟨head.andThen (within_bytes words), fun _ _ => trivial⟩

theorem WireStruct.within_maxEncoded : (s : WireStruct) → {low high : Nat} → s.maxEncodedFrom low = some high →
    (v : s.Val) → Within low high (s.image order v) ∧ s.Sendable v
  | .nil, low, high, ends, _ => by
    simp only [WireStruct.maxEncodedFrom, Option.some.injEq] at ends
    subst ends
    refine ⟨?_, trivial⟩
    intro cursor below
    exact below
  | .cons f rest, low, high, ends, v => by
    simp only [WireStruct.maxEncodedFrom] at ends
    cases here : f.maxEnd (alignUp low f.wireAlign) with
    | none => simp [here] at ends
    | some total =>
      simp only [here] at ends
      obtain ⟨within, sendable⟩ := f.within_maxEnd here (alignUp_mod low f.wireAlign_pos) v.1
      obtain ⟨behind, others⟩ := rest.within_maxEncoded ends v.2
      exact ⟨(within_padding low f.wireAlign_pos).andThen (within.andThen behind), sendable, others⟩

end

/-! ## `encode_size` answers

Where a value's strings can be sent and its form stays below 2^31 bytes. -/

/-- `measure` answers with where `image` ends, if an `int32_t` holds that. -/
def Answers (start : Nat → Prop) (measure : Nat → Result Nat) (image : Nat → Bytes) : Prop :=
  ∀ cursor, start cursor → cursor + (image cursor).length < 2 ^ 31 → measure cursor = .ok (cursor + (image cursor).length)

variable {start start' : Nat → Prop} {image first second : Nat → Bytes}

theorem answers_int32 {measure : Nat → Result Nat}
    (same : ∀ cursor, start cursor → measure cursor = int32 (cursor + (image cursor).length)) : Answers start measure image := by
  intro cursor starts small
  rw [same cursor starts, int32_of_lt small]

theorem Answers.andThen {measure₁ measure₂ : Nat → Result Nat} (one : Answers start measure₁ first)
    (two : Answers start' measure₂ second) (leads : Leads start first start') :
    Answers start (fun cursor => measure₁ cursor >>= measure₂) (andThen first second) := by
  intro cursor starts small
  rw [andThen_length, ← Nat.add_assoc] at small ⊢
  simp only [one cursor starts (by omega), ok_bind]
  exact two _ (leads cursor starts) small

theorem Answers.mono {measure : Nat → Result Nat} (one : Answers start' measure image)
    (within : ∀ cursor, start cursor → start' cursor) : Answers start measure image :=
  fun cursor starts small => one cursor (within cursor starts) small

theorem answers_ok : Answers start (fun cursor => .ok cursor) fun _ => [] := fun _ _ _ => rfl

theorem answers_each {α : Type} {measure : Bool → α → Nat → Result Nat} {image : Bool → α → Nat → Bytes} {l : List α}
    (one : ∀ first, ∀ a ∈ l, Answers anywhere (measure first a) (image first a)) (first : Bool) :
    Answers anywhere (countEach measure first l) (imageEach image first l) := by
  induction l generalizing first with
  | nil => exact answers_ok
  | cons a l ih =>
    have head := one first a List.mem_cons_self
    have tail := ih (fun first b member => one first b (List.mem_cons_of_mem a member)) false
    exact head.andThen tail (leads_anywhere _ _)

theorem answers_padding {align : Nat} (positive : 0 < align) {measure : Nat → Result Nat}
    (one : align ≤ 1 → ∀ cursor, measure cursor = .ok cursor)
    (more : ¬ align ≤ 1 → ∀ cursor, measure cursor = int32 (cursor + padding cursor align)) :
    Answers anywhere measure (padImage align) := by
  intro cursor _ small
  by_cases single : align ≤ 1
  · rw [one single, padImage_one positive single]
    rfl
  · rw [more single]
    simp only [padImage, zeros_length] at small ⊢
    exact int32_of_lt small

theorem WireField.alignSize_answers (f : WireField) (offset : Option Nat) :
    Answers (Known offset) (f.alignSize offset) (padImage f.wireAlign) := by
  intro cursor known small
  unfold WireField.alignSize
  by_cases one : f.wireAlign ≤ 1
  · rw [if_pos one, padImage_one f.wireAlign_pos one]
    rfl
  · rw [if_neg one]
    simp only [padImage, zeros_length] at small ⊢
    cases static : f.staticPadding offset with
    | none => exact int32_of_lt small
    | some pad =>
      have same := WireField.staticPadding_eq known static
      cases pad with
      | zero => rw [← same]; rfl
      | succ pad =>
        rw [← same] at small ⊢
        exact int32_of_lt small

theorem textSize_answers {maxLen : Nat} {bytes : Bytes} (short : bytes.length < maxLen) :
    Answers anywhere (textSize maxLen bytes) (textImage order bytes) := by
  intro cursor _ small
  have exact_ : min bytes.length maxLen = bytes.length := by omega
  simp only [textImage, andThen_length, ByteOrder.store_length, List.length_append, List.length_singleton, zeros_length,
    ← Nat.add_assoc] at small ⊢
  unfold textSize
  simp only [exact_, ← Nat.add_assoc]
  rw [if_neg (by omega), int32_of_lt (by omega), ok_bind, int32_of_lt small]

theorem pointerSize_answers {v : Option (Text none)} (pointer : Pointer v) :
    Answers anywhere (pointerSize v) (pointerImage order v) := by
  obtain ⟨t, rfl, short⟩ := pointer
  exact textSize_answers order short

theorem countOfSize_answers {α : Type} {m : ArrayMode} (v : m.Of α) {align : Nat} (positive : 0 < align) :
    Answers anywhere (fun size => countOfSize m (ArrayMode.elements v).length size >>= paddingSize m align)
      (headImage order m (ArrayMode.elements v).length align) := by
  cases m with
  | fixed n => exact answers_ok
  | varying c =>
    have counted : Answers anywhere (countOfSize (.varying c) (ArrayMode.elements v).length)
        fun _ => order.store 2 (ArrayMode.elements v).length := by
      apply answers_int32
      intro cursor _
      rw [ByteOrder.store_length]
      exact if_neg (Nat.not_lt.mpr v.2.1)
    have padded : Answers anywhere (paddingSize (.varying c) align) (padImage align) :=
      answers_padding positive (fun one cursor => if_pos one) fun more cursor => if_neg more
    exact counted.andThen padded (leads_anywhere _ _)

theorem gapSize_answers {align : Nat} (positive : 0 < align) (first : Bool) :
    Answers anywhere (gapSize align first) (gapImage align first) := by
  cases first with
  | false => exact answers_padding positive (fun one cursor => if_pos one) fun more cursor => if_neg more
  | true =>
    intro cursor _ _
    unfold gapSize
    split <;> rfl

/-- `encode_size` of a struct, from what its walk answers. -/
theorem WireStruct.encodeSize_answer {s : WireStruct} {v : s.Val}
    (inner : Answers (Known (some 0)) (s.encodeSizeFields (some 0) v) (s.image order v))
    (small : (s.image order v 0).length < 2 ^ 31) :
    constantOr s.wireSize (s.encodeSizeFields (some 0) v 0) = .ok (s.image order v 0).length := by
  unfold constantOr
  cases sized : s.wireSize with
  | some k =>
    have length := (s.image_endOffset order sized v).1
    rw [Nat.zero_add] at length
    rw [← length]
    exact int32_of_lt small
  | none =>
    have answer := inner 0 known_zero (by omega)
    rw [Nat.zero_add] at answer
    exact answer

theorem answers_nested (s : WireStruct) (v : s.Val)
    (inner : Answers (Known (some 0)) (s.encodeSizeFields (some 0) v) (s.image order v)) :
    Answers anywhere (fun size => constantOr s.wireSize (s.encodeSizeFields (some 0) v 0) >>= fun nested =>
      int32 (size + nested)) fun _ => s.image order v 0 := by
  intro cursor _ small
  have inside : (s.image order v 0).length < 2 ^ 31 := (Nat.le_add_left _ cursor).trans_lt small
  simp only [WireStruct.encodeSize_answer order inner inside, ok_bind]
  exact int32_of_lt small

mutual

theorem WireField.encodeSize_answers : (f : WireField) → (v : f.Val) → f.Sendable v →
    Answers (fun cursor => cursor % f.wireAlign = 0) (f.encodeSize v) (f.image order v)
  | .scalar t, v, _ => answers_int32 fun cursor _ => by
    simp only [WireField.encodeSize, WireField.image, ByteOrder.store_length]
  | .string none, v, sendable => (pointerSize_answers order sendable).mono fun _ _ => trivial
  | .string (some c), v, _ =>
    (textSize_answers order (Nat.lt_succ_of_le (v.fits c.max rfl))).mono fun _ _ => trivial
  | .nested s, v, sendable =>
    (answers_nested order s v (s.encodeSizeFields_answers (some 0) v sendable)).mono fun _ _ => trivial
  | .array m e, v, sendable => by
    intro cursor aligned small
    simp only [WireField.encodeSize]
    cases sized : (WireField.array m e).wireSize with
    | some k =>
      have length := ((WireField.array m e).image_wireSize order sized v cursor aligned).1
      rw [length] at small ⊢
      exact int32_of_lt small
    | none =>
      change m.Of e.Val at v
      have head := countOfSize_answers order v e.headAlign_pos
      have both := head.andThen (e.encodeSize_answers (ArrayMode.elements v) sendable) (leads_anywhere _ _)
      exact (bind_assoc _ _ _).symm.trans (both cursor trivial small)

theorem Element.encodeSize_answers : (e : Element) → (l : List e.Val) → (∀ a ∈ l, e.Sendable a) →
    Answers anywhere (e.encodeSize l) (e.image order l)
  | .scalar t, l, _ => by
    change List (Word t.size) at l
    have words : Answers anywhere (fun size => int32 (size + l.length * t.size))
        fun _ => l.flatMap fun v => order.store t.size v.val :=
      answers_int32 fun cursor _ => by rw [flatMap_store_length]
    exact words
  | .string, l, sendable => answers_each (fun _ v member => pointerSize_answers order (sendable v member)) true
  | .nested s, l, sendable =>
    answers_each (fun first v member => (gapSize_answers s.selfAlign_pos first).andThen
      (answers_nested order s v (s.encodeSizeFields_answers (some 0) v (sendable v member))) (leads_anywhere _ _)) true

theorem WireStruct.encodeSizeFields_answers : (s : WireStruct) → (offset : Option Nat) → (v : s.Val) → s.Sendable v →
    Answers (Known offset) (s.encodeSizeFields offset v) (s.image order v)
  | .nil, _, _, _ => answers_ok
  | .cons f rest, offset, v, sendable => by
    have pad := f.alignSize_answers offset
    have here : Answers (f.Ready offset) (f.encodeSize v.1) (f.image order v.1) :=
      (f.encodeSize_answers v.1 sendable.1).mono fun _ ready => ready.1
    have behind := rest.encodeSizeFields_answers (f.nextOffset offset) v.2 sendable.2
    exact pad.andThen (here.andThen behind (f.leads_next order offset v.1)) (f.leads_ready offset)

end

/-- The converse of `encodeSize_ok`. -/
theorem WireStruct.encodeSize_eq_ok {s : WireStruct} {v : s.Val} (sendable : s.Sendable v)
    (small : (s.image order v 0).length < 2 ^ 31) : s.encodeSize v = .ok (s.image order v 0).length :=
  WireStruct.encodeSize_answer order (s.encodeSizeFields_answers order (some 0) v sendable) small

/-! ## A capacity that fills the datagram -/

theorem precedingEnd_ok {fields : List WireField} {index offset k : Nat} (ends : precedingEnd fields index offset = .ok k) :
    (WireStruct.ofFields fields).endOffset offset = some k := by
  induction fields generalizing index offset with
  | nil =>
    cases ends
    rfl
  | cons f fields ih =>
    simp only [precedingEnd] at ends
    simp only [WireStruct.ofFields, WireStruct.endOffset]
    cases sized : f.wireSize with
    | none => simp [sized] at ends
    | some size =>
      simp only [sized] at ends
      exact ih ends

/-- A field behind fields whose sizes the type tells. -/
theorem image_trailing {fields : List WireField} {f : WireField} {offset k : Nat}
    (ends : (WireStruct.ofFields fields).endOffset offset = some k) (v : (WireStruct.ofFields (fields ++ [f])).Val) :
    ∃ w : f.Val, offset + ((WireStruct.ofFields (fields ++ [f])).image order v offset).length =
        alignUp k f.wireAlign + (f.image order w (alignUp k f.wireAlign)).length ∧
      (f.Sendable w → (WireStruct.ofFields (fields ++ [f])).Sendable v) := by
  induction fields generalizing offset with
  | nil =>
    cases ends
    refine ⟨v.1, ?_, fun sendable => ⟨sendable, trivial⟩⟩
    simp only [WireStruct.ofFields, List.nil_append, WireStruct.image, andThen_length, zeros_length, List.length_nil,
      Nat.add_zero, alignUp_eq k f.wireAlign_pos, Nat.add_assoc]
  | cons g fields ih =>
    simp only [WireStruct.ofFields, WireStruct.endOffset] at ends
    cases sized : g.wireSize with
    | none => simp [sized] at ends
    | some size =>
      simp only [sized] at ends
      have padded := alignUp_eq offset g.wireAlign_pos
      obtain ⟨here, sendable⟩ := g.image_wireSize order sized v.1 (offset + padding offset g.wireAlign)
        (add_padding_mod offset g.wireAlign_pos)
      obtain ⟨w, length, others⟩ := ih ends v.2
      refine ⟨w, ?_, fun fine => ⟨sendable, others fine⟩⟩
      rw [← length, padded]
      change offset + (andThen (fun cursor => zeros (padding cursor g.wireAlign))
        (andThen (g.image order v.1) ((WireStruct.ofFields (fields ++ [f])).image order v.2)) offset).length = _
      rw [andThen_length, andThen_length, zeros_length, here]
      omega

theorem autoCapacity_ok {budget offset : Int} {elementSize capacity : Nat}
    (derived : autoCapacity budget offset elementSize = .ok capacity) : offset + capacity * elementSize ≤ budget := by
  unfold autoCapacity at derived
  split at derived
  · cases derived
  · next nonzero =>
    split at derived
    · cases derived
    · next enough =>
      cases derived
      have size : (elementSize : Int) ≠ 0 := by exact_mod_cast nonzero
      have whole := Int.ediv_mul_le (budget - offset) size
      rw [Int.toNat_of_nonneg (by omega)]
      omega

/-- The trailing array ends within what its capacity was derived from. -/
theorem within_trailing {element : Element} {elementSize : Nat} (sized : element.autoSize = .ok elementSize) (c : Capacity)
    (v : (WireField.array (.varying c) element).Val) (low : Nat) :
    Within low (alignUp (low + countSize) element.align + c.max * elementSize)
      ((WireField.array (.varying c) element).image order v) ∧ (WireField.array (.varying c) element).Sendable v := by
  cases element with
  | string => cases sized
  | scalar t =>
    cases sized
    change (ArrayMode.varying c).Of (Word t.size) at v
    have head := within_head order (.varying c) (ArrayMode.elements v).length t.align_pos low
    have words : ∀ cursor, ((Element.scalar t).image order (ArrayMode.elements v) cursor).length ≤ c.max * t.size := by
      intro cursor
      have length := flatMap_store_length order (ArrayMode.elements v)
      exact length.trans_le (Nat.mul_le_mul_right _ (ArrayMode.elements_le v))
    exact ⟨head.andThen (within_bytes words), fun _ _ => trivial⟩
  | nested s =>
    simp only [Element.autoSize] at sized
    cases known : s.wireSize with
    | none => simp [known] at sized
    | some k =>
      simp only [known, Except.ok.injEq] at sized
      subst sized
      change (ArrayMode.varying c).Of s.Val at v
      have each : ∀ a : s.Val, (s.image order a 0).length = k ∧ s.Sendable a := by
        intro a
        obtain ⟨ends, sendable⟩ := s.image_endOffset order known a
        exact ⟨by omega, sendable⟩
      have head := within_head order (.varying c) (ArrayMode.elements v).length s.selfAlign_pos low
      have elements := within_each s.selfAlign_pos (fun a => s.image order a 0) (ArrayMode.elements v)
        (fun a _ => (each a).1.le) true (alignUp_mod (low + countSize) s.selfAlign_pos)
      have count := Nat.mul_le_mul_right (alignUp k s.selfAlign) (ArrayMode.elements_le v)
      refine ⟨?_, fun a _ => (each a).2⟩
      intro cursor below
      exact ((head.andThen elements) cursor below).trans (Nat.add_le_add_left count _)

/-- A struct that was given a capacity: fields of known size and the array behind them, within the budget. -/
theorem resolveAutoCapacities_ok {buffer : BufferLength} {reserve : Nat} {fields : List DeclaredField} {wires : List WireField}
    (resolved : resolveAutoCapacities buffer reserve fields = .ok wires) (derived : needsAuto fields ≠ []) :
    ∃ preceding element elementSize capacity k, element.autoSize = .ok elementSize ∧
      wires = preceding ++ [.array (.varying ⟨capacity, .auto⟩) element] ∧
      (WireStruct.ofFields preceding).endOffset 0 = some k ∧
      alignUp (alignUp k countSize + countSize) element.align + capacity * elementSize + framingOverhead + reserve ≤
        buffer.value := by
  simp only [resolveAutoCapacities] at resolved
  split at resolved
  next index element needs last =>
    split at resolved
    · cases resolved
    · cases sized : element.autoSize with
      | error e =>
        rw [sized] at resolved
        cases resolved
      | ok elementSize =>
        cases ends : precedingEnd (fields.dropLast.filterMap DeclaredField.sized?) 0 0 with
        | error e =>
          rw [sized, ends] at resolved
          cases resolved
        | ok k =>
          cases given : autoCapacity ((buffer.value : Int) - framingOverhead - reserve)
              (alignUp (alignUp k countSize + countSize) element.align : Nat) elementSize with
          | error e =>
            rw [sized, ends] at resolved
            change (autoCapacity _ _ _ >>= _) = _ at resolved
            rw [given] at resolved
            cases resolved
          | ok capacity =>
            rw [sized, ends] at resolved
            change (autoCapacity _ _ _ >>= _) = _ at resolved
            rw [given] at resolved
            cases resolved
            have room := autoCapacity_ok given
            refine ⟨_, element, elementSize, capacity, k, sized, rfl, precedingEnd_ok ends, ?_⟩
            have small : ((alignUp (alignUp k countSize + countSize) element.align + capacity * elementSize : Nat) : Int) ≤
                (buffer.value : Int) - framingOverhead - reserve := by
              push_cast
              exact room
            omega
  next needs => exact absurd needs derived
  next => cases resolved

namespace WireStruct

/-- Every value's size is within `max_encoded_size`, and within the datagram a capacity of its type was derived for. -/
theorem encodeSize_le_max :
    (∀ (s : WireStruct) (most : Nat), s.maxEncodedSize = some most → ∀ v : s.Val,
      (∀ n, s.encodeSize v = .ok n → n ≤ most) ∧ (most < 2 ^ 31 → ∃ n, s.encodeSize v = .ok n)) ∧
    ∀ (buffer : BufferLength) (reserve : Nat) (fields : List DeclaredField) (wires : List WireField),
      resolveAutoCapacities buffer reserve fields = .ok wires → needsAuto fields ≠ [] → ∀ v : (ofFields wires).Val,
        ∃ n, (ofFields wires).encodeSize v = .ok n ∧ n + framingOverhead + reserve ≤ buffer.value := by
  constructor
  · intro s most bounded v
    obtain ⟨within, sendable⟩ := s.within_maxEncoded .little bounded v
    have length := within 0 (Nat.le_refl 0)
    rw [Nat.zero_add] at length
    constructor
    · intro n measured
      obtain ⟨rfl, -, -⟩ := encodeSize_ok .little measured
      exact length
    · intro small
      exact ⟨_, encodeSize_eq_ok .little sendable (length.trans_lt small)⟩
  · intro buffer reserve fields wires resolved derived v
    obtain ⟨preceding, element, elementSize, capacity, k, sized, rfl, ends, room⟩ := resolveAutoCapacities_ok resolved derived
    obtain ⟨w, length, sendable⟩ := image_trailing .little ends v
    obtain ⟨within, fine⟩ := within_trailing .little sized ⟨capacity, .auto⟩ w (alignUp k countSize)
    have array := within (alignUp k countSize) (Nat.le_refl _)
    have placed : ((ofFields (preceding ++ [.array (.varying ⟨capacity, .auto⟩) element])).image .little v 0).length ≤
        alignUp (alignUp k countSize + countSize) element.align + capacity * elementSize := by
      rw [Nat.zero_add] at length
      rw [length]
      exact array
    have most := buffer.atMost
    unfold ipv4UdpMaxPayload at most
    refine ⟨_, encodeSize_eq_ok .little (sendable fine) (by omega), by omega⟩

theorem wholeDatagram_above : framingOverhead < 1472 := by decide

theorem wholeDatagram_atMost : 1472 ≤ ipv4UdpMaxPayload := by decide

def wholeDatagram : BufferLength := ⟨1472, wholeDatagram_above, wholeDatagram_atMost⟩

/-- A counter and a payload, whose capacity takes what the datagram has left. -/
def bulk : List DeclaredField := [.sized (.scalar .uint32), .unsized (.scalar .uint8)]

theorem labelled_and_bulk_bounded : labelled.maxEncodedSize = some 28 ∧ (∃ n, labelled.encodeSize labelledValue = .ok n ∧ n ≤ 28) ∧
    resolveAutoCapacities wholeDatagram 0 bulk =
      .ok [.scalar .uint32, .array (.varying ⟨1438, .auto⟩) (.scalar .uint8)] ∧
    ∀ v : (ofFields [.scalar .uint32, .array (.varying ⟨1438, .auto⟩) (.scalar .uint8)]).Val,
      ∃ n, (ofFields [.scalar .uint32, .array (.varying ⟨1438, .auto⟩) (.scalar .uint8)]).encodeSize v = .ok n ∧
        n + framingOverhead + 0 ≤ 1472 := by
  have most : labelled.maxEncodedSize = some 28 := by decide
  have resolved : resolveAutoCapacities wholeDatagram 0 bulk =
      .ok [.scalar .uint32, .array (.varying ⟨1438, .auto⟩) (.scalar .uint8)] := rfl
  obtain ⟨bounds, answers⟩ := encodeSize_le_max.1 labelled 28 most labelledValue
  obtain ⟨n, measured⟩ := answers (by decide)
  exact ⟨most, ⟨n, measured, bounds n measured⟩, resolved,
    encodeSize_le_max.2 wholeDatagram 0 bulk _ resolved (by decide)⟩

end WireStruct

end TypeSupport

end Tickle
