import Tickle.Codec.Generated

/-! # What the generated codec writes it reads

Size, encoder and decoder of a type are three programs over one image (`WireStruct.image`). The encoder
puts it, the size counts it, and the decoder takes the value out of it again, whichever of the two byte orders it was
written in - but for a bounded string of 65535 bytes or more, whose length no longer fits the two bytes in front of it.
-/

namespace Tickle

namespace TypeSupport

open Cursor

/-! ## Alignments -/

theorem ScalarType.size_pos (t : ScalarType) : 0 < t.size := by
  cases t <;> decide

theorem ScalarType.align_pos (t : ScalarType) : 0 < t.align := by
  cases t <;> decide

mutual

theorem WireField.wireAlign_pos : (f : WireField) → 0 < f.wireAlign
  | .scalar t => t.align_pos
  | .string _ => by simp [WireField.wireAlign, countSize]
  | .nested s => by
    simp only [WireField.wireAlign]
    exact s.selfAlign_pos
  | .array (.fixed _) e => by
    simp only [WireField.wireAlign]
    exact e.align_pos
  | .array (.varying _) _ => by simp [WireField.wireAlign, countSize]

theorem Element.align_pos : (e : Element) → 0 < e.align
  | .scalar t => t.align_pos
  | .string => by simp [Element.align, countSize]
  | .nested s => by
    simp only [Element.align]
    exact s.selfAlign_pos

theorem WireStruct.selfAlign_pos : (s : WireStruct) → 0 < s.selfAlign
  | .nil => by simp [WireStruct.selfAlign]
  | .cons f rest => by
    simp only [WireStruct.selfAlign]
    exact lt_max_of_lt_left f.wireAlign_pos

end

theorem Element.headAlign_pos (e : Element) : 0 < e.headAlign := by
  cases e with
  | scalar t => exact t.align_pos
  | string => exact Nat.one_pos
  | nested s => exact s.selfAlign_pos

/-- The cursor is where `plan_fields` has it, if it has it. -/
def Known (offset : Option Nat) (cursor : Nat) : Prop := ∀ o ∈ offset, cursor = o

theorem known_zero : Known (some 0) 0 := by
  intro o member
  cases member
  rfl

/-- What padding to `align` writes. -/
def padImage (align : Nat) : Nat → Bytes := fun cursor => zeros (padding cursor align)

theorem padImage_one {align : Nat} (positive : 0 < align) (one : align ≤ 1) (cursor : Nat) :
    padImage align cursor = [] := by
  have : align = 1 := by omega
  subst this
  simp [padImage, padding, Nat.mod_one, zeros]

theorem WireField.staticPadding_eq {f : WireField} {offset : Option Nat} {cursor pad : Nat}
    (known : Known offset cursor) (static : f.staticPadding offset = some pad) :
    pad = padding cursor f.wireAlign := by
  cases offset with
  | none => cases static
  | some o =>
    have here : cursor = o := known o rfl
    subst here
    have total := alignUp_eq cursor f.wireAlign_pos
    simp only [WireField.staticPadding, Option.map_some, Option.some.injEq] at static
    omega

theorem WireField.alignEncode_puts (f : WireField) (len : Nat) (offset : Option Nat) :
    Puts len (Known offset) (f.alignEncode len offset) (padImage f.wireAlign) := by
  intro done known within small
  unfold WireField.alignEncode
  by_cases one : f.wireAlign ≤ 1
  · simp [one, padImage_one f.wireAlign_pos one, within]
  · rw [if_neg one]
    have written := @puts_put len anywhere (zeros (padding done.length f.wireAlign))
    cases static : f.staticPadding offset with
    | none => exact written done trivial within small
    | some pad =>
      have same := WireField.staticPadding_eq known static
      cases pad with
      | zero => simp [padImage, ← same, zeros, within]
      | succ pad =>
        change put len (zeros (pad + 1)) done = _
        rw [same]
        exact written done trivial within small

theorem WireField.alignSize_counts (f : WireField) (offset : Option Nat) :
    Counts (Known offset) (f.alignSize offset) (padImage f.wireAlign) True := by
  intro cursor n known small counted
  unfold WireField.alignSize at counted
  by_cases one : f.wireAlign ≤ 1
  · rw [if_pos one] at counted
    cases counted
    rw [padImage_one f.wireAlign_pos one]
    exact ⟨rfl, small, trivial⟩
  · rw [if_neg one] at counted
    have measured : int32 (cursor + padding cursor f.wireAlign) = .ok n := by
      cases static : f.staticPadding offset with
      | none =>
        rw [static] at counted
        exact counted
      | some pad =>
        have same := WireField.staticPadding_eq known static
        rw [static] at counted
        cases pad with
        | zero =>
          cases counted
          rw [← same]
          exact int32_of_lt small
        | succ pad =>
          rw [← same]
          exact counted
    obtain ⟨rfl, below⟩ := int32_ok measured
    simp only [padImage, zeros_length]
    exact ⟨trivial, below, trivial⟩

theorem WireField.alignDecode_skips (f : WireField) (offset : Option Nat) :
    Skips (Known offset) (f.alignDecode offset) (padImage f.wireAlign) := by
  intro before after known small
  unfold WireField.alignDecode
  by_cases one : f.wireAlign ≤ 1
  · rw [if_pos one, padImage_one f.wireAlign_pos one]
    rfl
  · rw [if_neg one]
    cases static : f.staticPadding offset with
    | none =>
      have skipped : Skips anywhere (fun payload cursor => skip payload.length (padding cursor f.wireAlign) cursor)
        (padImage f.wireAlign) := skips_skip
      exact skipped before after trivial small
    | some pad =>
      have same := WireField.staticPadding_eq known static
      cases pad with
      | zero => simp [padImage, ← same, zeros]
      | succ pad =>
        have advanced : Skips anywhere (fun payload cursor => advance payload.length (padding cursor f.wireAlign) cursor)
          (padImage f.wireAlign) := skips_advance
        change advance _ (pad + 1) _ = _
        rw [same]
        exact advanced before after trivial small

theorem puts_padding (len align : Nat) (start : Nat → Prop) :
    Puts len start (fun done => put len (zeros (padding done.length align)) done) (padImage align) := by
  intro done starts
  exact puts_put start (zeros (padding done.length align)) done starts

/-! ## Integers -/

theorem loadWord_store (host sender : ByteOrder) (w n : Nat) :
    loadWord host (decide (host = sender)) w (sender.store w n) = n % 256 ^ w := by
  unfold loadWord
  by_cases single : w = 1
  · subst single
    rw [if_pos (Or.inl rfl)]
    exact ByteOrder.load_store_byte host sender n
  · by_cases native : host = sender
    · subst native
      rw [if_pos (Or.inr (decide_eq_true rfl))]
      exact ByteOrder.load_store host w n
    · rw [if_neg (by simp [single, native])]
      exact ByteOrder.swap_load_store native w n

theorem word_mod (w n : Nat) : word w (n % 256 ^ w) = word w n := by
  apply Fin.ext
  exact Nat.mod_mod n (256 ^ w)

theorem word_val {w : Nat} (v : Word w) : word w v.val = v := by
  apply Fin.ext
  exact Nat.mod_eq_of_lt v.isLt

theorem bytesAt_here (before image after : Bytes) {w : Nat} (width : image.length = w) :
    bytesAt (before ++ image ++ after) before.length w = image := by
  unfold bytesAt
  rw [List.append_assoc, List.drop_left, ← width, List.take_left]

variable (host sender : ByteOrder)

theorem decodeWord_takes {w : Nat} (v : Word w) :
    Takes anywhere (decodeWord host (decide (host = sender)) w) (fun _ => sender.store w v.val) (.ok v) := by
  intro before after _ small
  simp only [ByteOrder.store_length] at small ⊢
  have there : before.length + w ≤ (before ++ sender.store w v.val ++ after).length := by
    simp
  unfold decodeWord
  rw [advance_of_le there small, bytesAt_here _ _ _ (sender.store_length w v.val), loadWord_store, word_mod, word_val]
  rfl

theorem peekCount_store (before after : Bytes) (n : Nat) :
    peekCount host (decide (host = sender)) (before ++ sender.store 2 n ++ after) before.length = .ok (word 2 n) := by
  unfold peekCount
  have there : ¬ (before ++ sender.store 2 n ++ after).length < before.length + 2 := by
    simp only [List.length_append, ByteOrder.store_length]
    omega
  rw [if_neg there, bytesAt_here _ _ _ (sender.store_length 2 n), loadWord_store, word_mod]

/-! ## Strings -/

theorem encodeText_puts {len maxLen : Nat} {bytes : Bytes} (short : bytes.length < maxLen) :
    Puts len anywhere (encodeText host len maxLen bytes) (textImage host bytes) := by
  have exact_ : min bytes.length maxLen + 1 = bytes.length + 1 := by omega
  have whole : (bytes ++ [0]).take (bytes.length + 1) = bytes ++ [0] := by
    apply List.take_of_length_le
    simp
  have chain : Puts len anywhere _ _ := (puts_put anywhere (host.store 2 (bytes.length + 1))).andThen
    ((puts_put anywhere (bytes ++ [0])).andThen (puts_padding len 4 anywhere) (leads_anywhere _ _))
    (leads_anywhere _ _)
  intro done starts
  have same : encodeText host len maxLen bytes done = put len (host.store 2 (bytes.length + 1)) done >>= fun done =>
      put len (bytes ++ [0]) done >>= fun done => put len (zeros (padding done.length 4)) done := by
    simp only [encodeText, exact_, whole]
    rw [if_neg (by omega)]
  rw [same]
  exact chain done starts

theorem textSize_counts (maxLen : Nat) (bytes : Bytes) :
    Counts anywhere (textSize maxLen bytes) (textImage sender bytes) (bytes.length < maxLen) := by
  intro cursor n _ small counted
  unfold textSize at counted
  simp only at counted
  split at counted
  · cases counted
  · next fits =>
    have exact_ : min bytes.length maxLen = bytes.length := by omega
    rw [exact_] at counted
    obtain ⟨m, first, second⟩ := bind_ok counted
    obtain ⟨rfl, -⟩ := int32_ok first
    obtain ⟨rfl, below⟩ := int32_ok second
    refine ⟨?_, below, by omega⟩
    simp only [textImage, andThen_length, ByteOrder.store_length, List.length_append, List.length_singleton,
      zeros_length, ← Nat.add_assoc]

theorem takeWhile_text {bytes : Bytes} (noNul : (0 : UInt8) ∉ bytes) (rest : Bytes) :
    ((bytes ++ 0 :: rest).take (bytes.length + 1)).takeWhile (· ≠ 0) = bytes := by
  have front : (bytes ++ 0 :: rest).take (bytes.length + 1) = bytes ++ [0] := by
    rw [List.take_append]
    simp
  have all : ∀ b ∈ bytes, decide (b ≠ 0) = true := by
    intro b member
    apply decide_eq_true
    rintro rfl
    exact noNul member
  rw [front, List.takeWhile_append_of_pos all]
  simp

/-- What stands behind the length of a string. -/
theorem drop_textImage (before after bytes : Bytes) :
    (before ++ textImage sender bytes before.length ++ after).drop (before.length + 2) =
      bytes ++ 0 :: (zeros (padding (before.length + 2 + (bytes.length + 1)) 4) ++ after) := by
  have front : before ++ textImage sender bytes before.length ++ after =
      (before ++ sender.store 2 (bytes.length + 1)) ++
        (bytes ++ 0 :: (zeros (padding (before.length + 2 + (bytes.length + 1)) 4) ++ after)) := by
    simp [textImage, andThen]
  rw [front, List.drop_left' (by simp)]

theorem textImage_length (bytes : Bytes) (cursor : Nat) : (textImage sender bytes cursor).length =
    2 + (bytes.length + 1) + padding (cursor + 2 + (bytes.length + 1)) 4 := by
  simp [textImage]
  omega

/-- A string comes back, unless its length is cut to two bytes: then what is found is not one. -/
theorem decodeText_takes {bound : Option Nat} (t : Text bound) :
    Takes anywhere (decodeText host (decide (host = sender)) bound) (textImage sender t.bytes)
      (verdict (t.bytes.length < maxStringLength) t) := by
  intro before after _ small
  have behind := drop_textImage sender before after t.bytes
  have length := textImage_length sender t.bytes before.length
  have total : (before ++ textImage sender t.bytes before.length ++ after).length =
      before.length + (2 + (t.bytes.length + 1) + padding (before.length + 2 + (t.bytes.length + 1)) 4) +
        after.length := by
    rw [List.length_append, List.length_append, length]
  have peeked : peekCount host (decide (host = sender)) (before ++ textImage sender t.bytes before.length ++ after)
      before.length = .ok (word 2 (t.bytes.length + 1)) := by
    have front := peekCount_store host sender before
      ((t.bytes ++ [0]) ++ zeros (padding (before.length + 2 + (t.bytes.length + 1)) 4) ++ after) (t.bytes.length + 1)
    rw [← front]
    congr 1
    simp [textImage, andThen]
  rw [length] at small ⊢
  generalize before ++ textImage sender t.bytes before.length ++ after = payload at *
  have two : int32 (before.length + 2) = .ok (before.length + 2) := int32_of_lt (by omega)
  have prefix_ : (word 2 (t.bytes.length + 1)).val = (t.bytes.length + 1) % 65536 := rfl
  simp only [decodeText, peeked, ok_bind, two, prefix_]
  by_cases short : t.bytes.length < maxStringLength
  · have whole : (t.bytes.length + 1) % 65536 = t.bytes.length + 1 := by
      unfold maxStringLength at short
      omega
    have within : ¬ ∃ n ∈ bound, n + 1 < t.bytes.length + 1 := by
      rintro ⟨n, member, long⟩
      have fits := t.fits n member
      omega
    have last : (payload.drop (before.length + 2))[t.bytes.length]? = some 0 := by
      rw [behind]
      simp
    have text := takeWhile_text t.noNul (zeros (padding (before.length + 2 + (t.bytes.length + 1)) 4) ++ after)
    rw [← behind] at text
    rw [verdict_of short]
    have stepped : int32 (before.length + 2 + (t.bytes.length + 1)) = .ok (before.length + 2 + (t.bytes.length + 1)) :=
      int32_of_lt (by omega)
    have padded : skip payload.length (padding (before.length + 2 + (t.bytes.length + 1)) 4)
        (before.length + 2 + (t.bytes.length + 1)) = .ok (before.length + 2 + (t.bytes.length + 1) +
          padding (before.length + 2 + (t.bytes.length + 1)) 4) := skip_of_le (by omega) (by omega)
    have room : ¬ payload.length < before.length + 2 + (t.bytes.length + 1) := by omega
    simp only [whole, Nat.add_one_ne_zero, if_false, dif_neg within, if_neg room, Nat.add_sub_cancel, dif_pos last,
      stepped, padded, ok_bind, text]
    change Except.ok _ = Except.ok _
    congr 2
    omega
  · rw [verdict_not short]
    have cut : (t.bytes.length + 1) % 65536 ≤ t.bytes.length := by
      unfold maxStringLength at short
      omega
    by_cases zero : (t.bytes.length + 1) % 65536 = 0
    · rw [if_pos zero]
      rfl
    · have inside : (payload.drop (before.length + 2))[(t.bytes.length + 1) % 65536 - 1]? ≠ some 0 := by
        rw [behind, List.getElem?_append_left (by omega)]
        intro nul
        exact t.noNul (List.mem_of_getElem? nul)
      have room : ¬ payload.length < before.length + 2 + (t.bytes.length + 1) % 65536 := by omega
      rw [if_neg zero]
      by_cases long : ∃ n ∈ bound, n + 1 < (t.bytes.length + 1) % 65536
      · rw [dif_pos long]
        rfl
      · rw [dif_neg long, if_neg room, dif_neg inside]
        rfl

/-! ## Pointers, counts and gaps -/

/-- A `char*` that `encode` takes. -/
def Pointer (v : Option (Text none)) : Prop := ∃ t, v = some t ∧ t.bytes.length < maxStringLength

theorem encodePointer_puts {len : Nat} {v : Option (Text none)} (pointer : Pointer v) :
    Puts len anywhere (encodePointer host len v) (pointerImage host v) := by
  obtain ⟨t, rfl, short⟩ := pointer
  exact encodeText_puts host short

theorem pointerSize_counts (v : Option (Text none)) :
    Counts anywhere (pointerSize v) (pointerImage sender v) (Pointer v) := by
  cases v with
  | none =>
    intro cursor n _ _ counted
    cases counted
  | some t =>
    have text := textSize_counts sender maxStringLength t.bytes
    exact text.mono (fun _ _ => trivial) fun short => ⟨t, rfl, short⟩

theorem decodePointer_takes {v : Option (Text none)} (pointer : Pointer v) :
    Takes anywhere (decodePointer host (decide (host = sender))) (pointerImage sender v) (.ok v) := by
  obtain ⟨t, rfl, short⟩ := pointer
  have text := (decodeText_takes host sender t).map some
  rw [verdict_of short] at text
  exact text

theorem encodeCount_puts {α : Type} {len : Nat} {m : ArrayMode} (v : m.Of α) (align : Nat) (positive : 0 < align) :
    Puts len anywhere (fun done => encodeCount host len m (ArrayMode.elements v).length done >>= encodePadding len m align)
      (headImage host m (ArrayMode.elements v).length align) := by
  cases m with
  | fixed n => exact puts_ok
  | varying c =>
    have within : ¬ c.max < (ArrayMode.elements v).length := Nat.not_lt.mpr v.2.1
    have counted : Puts len anywhere (encodeCount host len (.varying c) (ArrayMode.elements v).length) _ :=
      (puts_put anywhere (host.store 2 (ArrayMode.elements v).length)).congr (fun _ _ => trivial)
        (fun done _ => if_neg within) (fun _ _ => rfl)
    have padded : Puts len anywhere (encodePadding len (.varying c) align) (padImage align) := by
      by_cases one : align ≤ 1
      · exact puts_ok.congr (fun _ _ => trivial) (fun done _ => if_pos one) fun cursor _ => padImage_one positive one cursor
      · exact (puts_padding len align anywhere).congr (fun _ _ => trivial) (fun done _ => if_neg one) fun _ _ => rfl
    exact counted.andThen padded (leads_anywhere _ _)

theorem encodeGap_puts {len align : Nat} (positive : 0 < align) (first : Bool) :
    Puts len anywhere (encodeGap len align first) (gapImage align first) := by
  by_cases one : align ≤ 1
  · apply puts_ok.congr (fun _ _ => trivial) (fun done _ => if_pos one)
    intro cursor _
    cases first with
    | true => rfl
    | false => exact padImage_one positive one cursor
  · cases first with
    | true => exact puts_ok.congr (fun _ _ => trivial) (fun done _ => if_neg one) fun _ _ => rfl
    | false => exact (puts_padding len align anywhere).congr (fun _ _ => trivial) (fun done _ => if_neg one) fun _ _ => rfl

/-- What a measure of padding to `align` counts. -/
theorem counts_padding {align : Nat} (positive : 0 < align) {measure : Nat → Result Nat}
    (one : align ≤ 1 → ∀ cursor, measure cursor = .ok cursor)
    (more : ¬ align ≤ 1 → ∀ cursor, measure cursor = int32 (cursor + padding cursor align)) :
    Counts anywhere measure (padImage align) True := by
  intro cursor n _ small counted
  by_cases single : align ≤ 1
  · rw [one single] at counted
    cases counted
    rw [padImage_one positive single]
    exact ⟨rfl, small, trivial⟩
  · rw [more single] at counted
    obtain ⟨rfl, below⟩ := int32_ok counted
    simp only [padImage, zeros_length]
    exact ⟨trivial, below, trivial⟩

theorem countOfSize_counts (m : ArrayMode) (count align : Nat) (positive : 0 < align) :
    Counts anywhere (fun size => countOfSize m count size >>= paddingSize m align)
      (headImage sender m count align) True := by
  cases m with
  | fixed n => exact counts_ok
  | varying c =>
    have counted : Counts anywhere (countOfSize (.varying c) count) (fun _ => sender.store 2 count) True := by
      intro cursor n starts small counted
      unfold countOfSize at counted
      simp only at counted
      split at counted
      · cases counted
      · obtain ⟨rfl, below⟩ := int32_ok counted
        rw [ByteOrder.store_length]
        exact ⟨rfl, below, trivial⟩
    have padded : Counts anywhere (paddingSize (.varying c) align) (padImage align) True :=
      counts_padding positive (fun one cursor => if_pos one) fun more cursor => if_neg more
    exact (counted.andThen padded (leads_anywhere _ _)).mono (fun _ _ => trivial) fun _ => trivial

theorem gapSize_counts {align : Nat} (positive : 0 < align) (first : Bool) :
    Counts anywhere (gapSize align first) (gapImage align first) True := by
  cases first with
  | false => exact counts_padding positive (fun one cursor => if_pos one) fun more cursor => if_neg more
  | true =>
    intro cursor n _ small counted
    have stays : gapSize align true cursor = .ok cursor := by
      unfold gapSize
      split <;> rfl
    rw [stays] at counted
    cases counted
    exact ⟨rfl, small, trivial⟩

theorem decodeGap_skips {align : Nat} (positive : 0 < align) (first : Bool) :
    Skips anywhere (decodeGap align first) (gapImage align first) := by
  by_cases one : align ≤ 1
  · apply skips_ok.congr (fun _ _ => trivial) (fun payload cursor _ => if_pos one)
    intro cursor _
    cases first with
    | true => rfl
    | false => exact padImage_one positive one cursor
  · cases first with
    | true => exact skips_ok.congr (fun _ _ => trivial) (fun payload cursor _ => if_neg one) fun _ _ => rfl
    | false => exact skips_skip.congr (fun _ _ => trivial) (fun payload cursor _ => if_neg one) fun _ _ => rfl

theorem Element.paddingDecode_skips (e : Element) : Skips anywhere e.paddingDecode (padImage e.headAlign) := by
  by_cases one : e.headAlign ≤ 1
  · exact skips_ok.congr (fun _ _ => trivial) (fun payload cursor _ => if_pos one)
      fun cursor _ => padImage_one e.headAlign_pos one cursor
  · cases e with
    | nested s => exact skips_skip.congr (fun _ _ => trivial) (fun payload cursor _ => if_neg one) fun _ _ => rfl
    | scalar t => exact skips_advance.congr (fun _ _ => trivial) (fun payload cursor _ => if_neg one) fun _ _ => rfl
    | string => exact absurd (Nat.le_refl 1) one

/-! ## Strings of a value -/

mutual

/-- Something of every string in the value. -/
def WireField.Texts (plain : Option (Text none) → Prop) (bounded : Bytes → Prop) : (f : WireField) → f.Val → Prop
  | .scalar _, _ => True
  | .string none, v => plain v
  | .string (some _), v => bounded v.bytes
  | .nested s, v => s.Texts plain bounded v
  | .array _ e, v => ∀ a ∈ ArrayMode.elements v, e.Texts plain bounded a

def Element.Texts (plain : Option (Text none) → Prop) (bounded : Bytes → Prop) : (e : Element) → e.Val → Prop
  | .scalar _, _ => True
  | .string, v => plain v
  | .nested s, v => s.Texts plain bounded v

def WireStruct.Texts (plain : Option (Text none) → Prop) (bounded : Bytes → Prop) : (s : WireStruct) → s.Val → Prop
  | .nil, _ => True
  | .cons f rest, v => f.Texts plain bounded v.1 ∧ rest.Texts plain bounded v.2

end

/-- No `char*` is NULL or longer than a length field says. -/
abbrev WireField.Sendable (f : WireField) : f.Val → Prop := f.Texts Pointer fun _ => True

abbrev Element.Sendable (e : Element) : e.Val → Prop := e.Texts Pointer fun _ => True

abbrev WireStruct.Sendable (s : WireStruct) : s.Val → Prop := s.Texts Pointer fun _ => True

/-- A bounded string whose length two bytes hold. -/
def Short (bytes : Bytes) : Prop := bytes.length < maxStringLength

abbrev WireField.ShortTexts (f : WireField) : f.Val → Prop := f.Texts (fun _ => True) Short

abbrev Element.ShortTexts (e : Element) : e.Val → Prop := e.Texts (fun _ => True) Short

abbrev WireStruct.ShortTexts (s : WireStruct) : s.Val → Prop := s.Texts (fun _ => True) Short

/-! ## Sizes the type tells -/

theorem padding_add {cursor a : Nat} (k : Nat) (aligned : cursor % a = 0) : padding (cursor + k) a = padding k a := by
  unfold padding
  rw [Nat.add_mod, aligned, Nat.zero_add, Nat.mod_mod]

/-- Messages of one size behind another: each starts at the next aligned offset. -/
theorem imageEach_stride {α : Type} {align k : Nat} (positive : 0 < align) (body : α → Bytes) (l : List α)
    (sized : ∀ a ∈ l, (body a).length = k) {cursor : Nat} (aligned : cursor % align = 0) :
    (imageEach (fun first v => andThen (gapImage align first) fun _ => body v) false l (cursor + k)).length =
      l.length * alignUp k align := by
  induction l generalizing cursor with
  | nil => simp [imageEach]
  | cons a l ih =>
    have stride := alignUp_eq k positive
    have next : (cursor + alignUp k align) % align = 0 := by
      rw [Nat.add_mod, aligned, stride, add_padding_mod k positive]
      simp
    have rest := ih (fun b member => sized b (List.mem_cons_of_mem a member)) next
    have here := sized a List.mem_cons_self
    have gap : (gapImage align false (cursor + k)).length = padding k align := by
      simp [gapImage, padding_add k aligned]
    have reach : cursor + k + (padding k align + k) = cursor + alignUp k align + k := by omega
    simp only [imageEach, andThen_length, gap, here, reach, rest, List.length_cons]
    rw [Nat.succ_mul]
    omega

theorem imageEach_length {α : Type} {align k : Nat} (positive : 0 < align) (body : α → Bytes) (l : List α)
    (sized : ∀ a ∈ l, (body a).length = k) {cursor : Nat} (aligned : cursor % align = 0) :
    (imageEach (fun first v => andThen (gapImage align first) fun _ => body v) true l cursor).length =
      if l.length = 0 then 0 else (l.length - 1) * alignUp k align + k := by
  cases l with
  | nil => rfl
  | cons a l =>
    have rest := imageEach_stride positive body l (fun b member => sized b (List.mem_cons_of_mem a member)) aligned
    have here := sized a List.mem_cons_self
    have gap : (gapImage align true cursor).length = 0 := rfl
    simp only [imageEach, andThen_length, gap, here, Nat.zero_add, rest, List.length_cons, Nat.add_one_ne_zero,
      if_false, Nat.add_sub_cancel]
    omega

theorem flatMap_store_length {w : Nat} (l : List (Word w)) :
    (l.flatMap fun v => sender.store w v.val).length = l.length * w := by
  simp [List.length_flatMap]

mutual

theorem WireField.image_wireSize : (f : WireField) → {k : Nat} → f.wireSize = some k → (v : f.Val) → (cursor : Nat) →
    cursor % f.wireAlign = 0 → (f.image sender v cursor).length = k ∧ f.Sendable v
  | .scalar t, k, sized, v, cursor, _ => by
    simp only [WireField.wireSize, Option.some.injEq] at sized
    subst sized
    exact ⟨sender.store_length t.size v.val, trivial⟩
  | .string none, k, sized, _, _, _ => by simp [WireField.wireSize] at sized
  | .string (some _), k, sized, _, _, _ => by simp [WireField.wireSize] at sized
  | .nested s, k, sized, v, cursor, _ => by
    simp only [WireField.wireSize] at sized
    obtain ⟨ends, sendable⟩ := s.image_endOffset sized v
    simp only [WireField.image]
    exact ⟨by omega, sendable⟩
  | .array (.fixed n) (.scalar t), k, sized, v, cursor, _ => by
    simp only [WireField.wireSize, Option.some.injEq] at sized
    subst sized
    change (ArrayMode.fixed n).Of (Word t.size) at v
    have count : (ArrayMode.elements v).length = n := v.2
    refine ⟨?_, fun _ _ => trivial⟩
    have words := flatMap_store_length sender (ArrayMode.elements v)
    rw [count] at words
    exact words
  | .array (.fixed n) (.nested s), k, sized, v, cursor, aligned => by
    simp only [WireField.wireSize, Option.map_eq_some_iff] at sized
    obtain ⟨one, size, rfl⟩ := sized
    have each : ∀ a : s.Val, (s.image sender a 0).length = one ∧ s.Sendable a := by
      intro a
      obtain ⟨ends, sendable⟩ := s.image_endOffset size a
      exact ⟨by omega, sendable⟩
    change (ArrayMode.fixed n).Of s.Val at v
    have count : (ArrayMode.elements v).length = n := v.2
    have start : cursor % s.selfAlign = 0 := aligned
    refine ⟨?_, fun a _ => (each a).2⟩
    have whole := imageEach_length s.selfAlign_pos (fun a => s.image sender a 0) (ArrayMode.elements v)
      (fun a _ => (each a).1) start
    rw [count] at whole
    exact whole
  | .array (.fixed _) .string, k, sized, _, _, _ => by simp [WireField.wireSize] at sized
  | .array (.varying _) _, k, sized, _, _, _ => by simp [WireField.wireSize] at sized

theorem WireStruct.image_endOffset : (s : WireStruct) → {o k : Nat} → s.endOffset o = some k → (v : s.Val) →
    o + (s.image sender v o).length = k ∧ s.Sendable v
  | .nil, o, k, ends, _ => by
    simp only [WireStruct.endOffset, Option.some.injEq] at ends
    exact ⟨by simp [WireStruct.image, ends], trivial⟩
  | .cons f rest, o, k, ends, v => by
    simp only [WireStruct.endOffset] at ends
    cases sized : f.wireSize with
    | none => simp [sized] at ends
    | some one =>
      simp only [sized] at ends
      have padded := alignUp_eq o f.wireAlign_pos
      have aligned := add_padding_mod o f.wireAlign_pos
      obtain ⟨here, sendable⟩ := f.image_wireSize sized v.1 (o + padding o f.wireAlign) aligned
      rw [padded] at ends
      obtain ⟨behind, others⟩ := rest.image_endOffset ends v.2
      refine ⟨?_, sendable, others⟩
      simp only [WireStruct.image, andThen_length, zeros_length, here]
      omega

end

/-! ## From field to field -/

/-- Where a field is written: aligned, and where `plan_fields` has it. -/
def WireField.Ready (f : WireField) (offset : Option Nat) (cursor : Nat) : Prop :=
  cursor % f.wireAlign = 0 ∧ Known (offset.map fun o => alignUp o f.wireAlign) cursor

theorem WireField.leads_ready (f : WireField) (offset : Option Nat) :
    Leads (Known offset) (padImage f.wireAlign) (f.Ready offset) := by
  intro cursor known
  simp only [padImage, zeros_length]
  refine ⟨add_padding_mod cursor f.wireAlign_pos, ?_⟩
  intro o member
  obtain ⟨p, here, rfl⟩ := Option.mem_map.mp member
  rw [known p here, alignUp_eq p f.wireAlign_pos]

theorem WireField.leads_next_of (f : WireField) (offset : Option Nat) {image : Nat → Bytes}
    (known : ∀ {k}, f.wireSize = some k → ∀ cursor, cursor % f.wireAlign = 0 → (image cursor).length = k) :
    Leads (f.Ready offset) image (Known (f.nextOffset offset)) := by
  rintro cursor ⟨aligned, placed⟩ o member
  cases offset with
  | none => cases member
  | some p =>
    simp only [WireField.nextOffset] at member
    cases sized : f.wireSize with
    | none => simp [sized] at member
    | some k =>
      simp only [sized, Option.mem_def, Option.some.injEq] at member
      have here : cursor = alignUp p f.wireAlign := placed _ rfl
      rw [known sized cursor aligned, ← member, here]

theorem WireField.leads_next (f : WireField) (offset : Option Nat) (v : f.Val) :
    Leads (f.Ready offset) (f.image sender v) (Known (f.nextOffset offset)) :=
  f.leads_next_of offset fun sized cursor aligned => (f.image_wireSize sender sized v cursor aligned).1

/-! ## Encode -/

/-- A nested message is written from its own offset 0. -/
theorem puts_nested {len : Nat} {encode : (len : Nat) → Bytes → Result Bytes} {image : Nat → Bytes}
    (inner : ∀ len, Puts len (Known (some 0)) (encode len) image) :
    Puts len anywhere (fun done => encode (len - done.length) [] >>= append done) fun _ => image 0 := by
  intro done _ within small
  simp only at small
  have written := inner (len - done.length) [] known_zero (Nat.zero_le _) (by simp only [List.length_nil]; omega)
  simp only [List.length_nil, Nat.zero_add, List.nil_append] at written
  by_cases room : done.length + (image 0).length ≤ len
  · rw [if_pos (by omega)] at written
    simp only [written, ok_bind, append, int32_of_lt small, if_pos room]
    rfl
  · rw [if_neg (by omega)] at written
    simp only [written, error_bind, if_neg room]

mutual

theorem WireField.encode_puts : (f : WireField) → (v : f.Val) → f.Sendable v → (len : Nat) →
    Puts len anywhere (f.encode host v len) (f.image host v)
  | .scalar t, v, _, _ => puts_put anywhere (host.store t.size v.val)
  | .string none, _, sendable, _ => encodePointer_puts host sendable
  | .string (some c), v, _, _ => encodeText_puts host (Nat.lt_succ_of_le (v.fits c.max rfl))
  | .nested s, v, sendable, _ => puts_nested fun len => s.encodeFields_puts (some 0) v sendable len
  | .array m e, v, sendable, len => by
    change m.Of e.Val at v
    have head := @encodeCount_puts host e.Val len m v e.headAlign e.headAlign_pos
    have elements := e.encode_puts (ArrayMode.elements v) sendable len
    exact (head.andThen elements (leads_anywhere _ _)).congr (fun _ _ => trivial)
      (fun done _ => (bind_assoc _ _ _).symm) fun _ _ => rfl

theorem Element.encode_puts : (e : Element) → (l : List e.Val) → (∀ a ∈ l, e.Sendable a) → (len : Nat) →
    Puts len anywhere (e.encode host l len) (e.image host l)
  | .scalar t, l, _, _ => puts_put anywhere (l.flatMap fun v => host.store t.size v.val)
  | .string, _, sendable, _ =>
    puts_each (fun _ v member => encodePointer_puts host (sendable v member)) true
  | .nested s, _, sendable, _ =>
    puts_each (fun first v member => (encodeGap_puts s.selfAlign_pos first).andThen
      (puts_nested fun len => s.encodeFields_puts (some 0) v (sendable v member) len) (leads_anywhere _ _)) true

theorem WireStruct.encodeFields_puts : (s : WireStruct) → (offset : Option Nat) → (v : s.Val) → s.Sendable v →
    (len : Nat) → Puts len (Known offset) (s.encodeFields host offset v len) (s.image host v)
  | .nil, _, _, _, _ => puts_ok
  | .cons f rest, offset, v, sendable, len => by
    have pad := f.alignEncode_puts len offset
    have here : Puts len (f.Ready offset) (f.encode host v.1 len) (f.image host v.1) :=
      (f.encode_puts v.1 sendable.1 len).congr (fun _ _ => trivial) (fun _ _ => rfl) fun _ _ => rfl
    have behind := rest.encodeFields_puts (f.nextOffset offset) v.2 sendable.2 len
    exact pad.andThen (here.andThen behind (f.leads_next host offset v.1)) (f.leads_ready offset)

end

/-! ## Size -/

theorem WireStruct.encodeSize_of {s : WireStruct} {v : s.Val} {n : Nat}
    (inner : Counts (Known (some 0)) (s.encodeSizeFields (some 0) v) (s.image sender v) (s.Sendable v))
    (measured : constantOr s.wireSize (s.encodeSizeFields (some 0) v 0) = .ok n) :
    n = (s.image sender v 0).length ∧ n < 2 ^ 31 ∧ s.Sendable v := by
  unfold constantOr at measured
  cases sized : s.wireSize with
  | some k =>
    rw [sized] at measured
    obtain ⟨rfl, below⟩ := int32_ok measured
    obtain ⟨ends, sendable⟩ := s.image_endOffset sender sized v
    exact ⟨by omega, below, sendable⟩
  | none =>
    rw [sized] at measured
    obtain ⟨ends, below, sendable⟩ := inner 0 n known_zero (by decide) measured
    exact ⟨by omega, below, sendable⟩

/-- A nested message is measured from its own offset 0, by its constant size if it has one. -/
theorem counts_nested (s : WireStruct) (v : s.Val)
    (inner : Counts (Known (some 0)) (s.encodeSizeFields (some 0) v) (s.image sender v) (s.Sendable v)) :
    Counts anywhere (fun size => constantOr s.wireSize (s.encodeSizeFields (some 0) v 0) >>= fun nested =>
      int32 (size + nested)) (fun _ => s.image sender v 0) (s.Sendable v) := by
  intro cursor n _ _ counted
  obtain ⟨nested, inside, total⟩ := bind_ok counted
  obtain ⟨rfl, below⟩ := int32_ok total
  obtain ⟨rfl, -, sendable⟩ := WireStruct.encodeSize_of sender inner inside
  exact ⟨rfl, below, sendable⟩

mutual

theorem WireField.encodeSize_counts : (f : WireField) → (v : f.Val) →
    Counts (fun cursor => cursor % f.wireAlign = 0) (f.encodeSize v) (f.image sender v) (f.Sendable v)
  | .scalar t, v => by
    have word : Counts anywhere (fun size => int32 (size + t.size)) (fun _ => sender.store t.size v.val) True :=
      counts_int32 fun cursor _ => by rw [ByteOrder.store_length]
    exact word.mono (fun _ _ => trivial) id
  | .string none, v => (pointerSize_counts sender v).mono (fun _ _ => trivial) id
  | .string (some c), v => (textSize_counts sender (c.max + 1) v.bytes).mono (fun _ _ => trivial) fun _ => trivial
  | .nested s, v => (counts_nested sender s v (s.encodeSizeFields_counts (some 0) v)).mono (fun _ _ => trivial) id
  | .array m e, v => by
    intro cursor n aligned small counted
    simp only [WireField.encodeSize] at counted
    cases sized : (WireField.array m e).wireSize with
    | some k =>
      rw [sized] at counted
      obtain ⟨rfl, below⟩ := int32_ok counted
      obtain ⟨length, sendable⟩ := (WireField.array m e).image_wireSize sender sized v cursor aligned
      rw [length]
      exact ⟨rfl, below, sendable⟩
    | none =>
      rw [sized] at counted
      change m.Of e.Val at v
      have head := countOfSize_counts sender m (ArrayMode.elements v).length e.headAlign e.headAlign_pos
      have both := head.andThen (e.encodeSize_counts (ArrayMode.elements v)) (leads_anywhere _ _)
      have chained := (bind_assoc _ _ _).trans counted
      obtain ⟨ends, below, -, sendable⟩ := both cursor n trivial small chained
      exact ⟨ends, below, sendable⟩

theorem Element.encodeSize_counts : (e : Element) → (l : List e.Val) →
    Counts anywhere (e.encodeSize l) (e.image sender l) (∀ a ∈ l, e.Sendable a)
  | .scalar t, l => by
    change List (Word t.size) at l
    have words : Counts anywhere (fun size => int32 (size + l.length * t.size))
        (fun _ => l.flatMap fun v => sender.store t.size v.val) True :=
      counts_int32 fun cursor _ => by rw [flatMap_store_length]
    exact words.mono (fun _ _ => trivial) fun _ _ _ => trivial
  | .string, l => counts_each (fun _ v _ => pointerSize_counts sender v) true
  | .nested s, l =>
    counts_each (fun first v _ => ((gapSize_counts s.selfAlign_pos first).andThen
      (counts_nested sender s v (s.encodeSizeFields_counts (some 0) v)) (leads_anywhere _ _)).mono (fun _ _ => trivial)
        And.right) true

theorem WireStruct.encodeSizeFields_counts : (s : WireStruct) → (offset : Option Nat) → (v : s.Val) →
    Counts (Known offset) (s.encodeSizeFields offset v) (s.image sender v) (s.Sendable v)
  | .nil, _, _ => counts_ok
  | .cons f rest, offset, v => by
    have pad := f.alignSize_counts offset
    have here : Counts (f.Ready offset) (f.encodeSize v.1) (f.image sender v.1) (f.Sendable v.1) :=
      (f.encodeSize_counts v.1).mono (fun _ ready => ready.1) id
    have behind := rest.encodeSizeFields_counts (f.nextOffset offset) v.2
    have chain := pad.andThen (here.andThen behind (f.leads_next sender offset v.1)) (f.leads_ready offset)
    exact chain.mono (fun _ known => known) And.right

end

/-- `encode_size` answers with the length of the image. -/
theorem WireStruct.encodeSize_ok {s : WireStruct} {v : s.Val} {n : Nat} (measured : s.encodeSize v = .ok n) :
    n = (s.image sender v 0).length ∧ n < 2 ^ 31 ∧ s.Sendable v :=
  WireStruct.encodeSize_of sender (s.encodeSizeFields_counts sender (some 0) v) measured

/-! ## Decode -/

theorem wordsAt_store {w : Nat} (l : List (Word w)) (before after : Bytes) :
    wordsAt host (decide (host = sender)) w (before ++ (l.flatMap fun v => sender.store w v.val) ++ after) l.length
      before.length = ⟨l, rfl⟩ := by
  induction l generalizing before with
  | nil => rfl
  | cons v l ih =>
    have rest := ih (before ++ sender.store w v.val)
    have here := bytesAt_here before (sender.store w v.val) ((l.flatMap fun v => sender.store w v.val) ++ after)
      (sender.store_length w v.val)
    simp only [List.flatMap_cons, List.length_append, ByteOrder.store_length, List.append_assoc] at rest here ⊢
    simp only [List.length_cons, wordsAt, here, rest, loadWord_store, word_mod, word_val]
    rfl

theorem takes_words {w : Nat} (l : List (Word w)) :
    Takes anywhere (fun payload decoded => advance payload.length (l.length * w) decoded >>= fun next =>
        .ok (wordsAt host (decide (host = sender)) w payload l.length decoded, next))
      (fun _ => l.flatMap fun v => sender.store w v.val) (.ok ⟨l, rfl⟩) := by
  intro before after _ small
  have width := flatMap_store_length sender l
  have there : before.length + l.length * w ≤
      (before ++ (l.flatMap fun v => sender.store w v.val) ++ after).length := by
    simp only [List.length_append, width]
    omega
  simp only [width] at small ⊢
  simp only [advance_of_le there small, ok_bind, wordsAt_store]
  rfl

/-- A nested message is read from its own offset 0. -/
theorem takes_nested {α : Type} {read : Bytes → Nat → Result (α × Nat)} {image : Nat → Bytes} {found : Result α}
    (inner : Takes (Known (some 0)) read image found) :
    Takes anywhere (fun payload decoded => read (payload.drop decoded) 0 >>= fun nested =>
      int32 (decoded + nested.2) >>= fun next => .ok (nested.1, next)) (fun _ => image 0) found := by
  intro before after _ small
  simp only at small
  have inside := inner [] after known_zero (by simp only [List.length_nil]; omega)
  simp only [List.length_nil, List.nil_append, Nat.zero_add] at inside
  simp only [List.append_assoc, List.drop_left, inside]
  cases found with
  | error e => rfl
  | ok a =>
    change (int32 (before.length + (image 0).length) >>= fun next => Except.ok (a, next)) = _
    rw [int32_of_lt small]
    rfl

/-- An array with its count: what its elements are found to be. -/
theorem takes_counted {α : Type} {c : Capacity} {pad : Bytes → Nat → Result Nat} {align : Nat}
    {read : (n : Nat) → Bytes → Nat → Result (Exactly α n × Nat)} {image : Nat → Bytes} {good : Prop}
    (v : (ArrayMode.varying c).Of α) (padded : Skips anywhere pad (padImage align))
    (elements : Takes anywhere (read v.1.length) image (verdict good ⟨v.1, rfl⟩)) :
    Takes anywhere (fun payload decoded => peekCount host (decide (host = sender)) payload decoded >>= fun count =>
        if within : count.val ≤ c.max then
          int32 (decoded + 2) >>= fun decoded => pad payload decoded >>= fun decoded =>
            read count.val payload decoded >>= fun l => .ok (counted l.1 within count.isLt, l.2)
        else .error .refused)
      (andThen (headImage sender (.varying c) v.1.length align) image) (verdict good v) := by
  intro before after _ small
  have tail : ∀ (n : Nat) (within : n ≤ c.max) (below : n < 256 ^ 2), n = v.1.length →
      Takes anywhere (fun payload decoded => pad payload decoded >>= fun decoded => read n payload decoded >>= fun l =>
        .ok (@counted α n c l.1 within below, l.2)) (andThen (padImage align) image) (verdict good v) := by
    rintro _ within below rfl
    have mapped := elements.map fun l => @counted α v.1.length c l within below
    rw [verdict_map] at mapped
    exact padded.andThen mapped (leads_anywhere _ _)
  have whole : (word 2 v.1.length).val = v.1.length := Nat.mod_eq_of_lt v.2.2
  have length : (andThen (headImage sender (.varying c) v.1.length align) image before.length).length =
      2 + (andThen (padImage align) image (before.length + 2)).length := by
    simp only [headImage, andThen_length, ByteOrder.store_length, padImage, Nat.add_assoc]
  have split_ : before ++ andThen (headImage sender (.varying c) v.1.length align) image before.length ++ after =
      before ++ sender.store 2 v.1.length ++ (andThen (padImage align) image (before.length + 2) ++ after) := by
    simp only [headImage, andThen, ByteOrder.store_length, padImage, List.append_assoc, List.length_append,
      Nat.add_assoc]
  rw [length] at small ⊢
  have within : (word 2 v.1.length).val ≤ c.max := by
    rw [whole]
    exact v.2.1
  have rest := tail _ within (word 2 v.1.length).isLt whole (before ++ sender.store 2 v.1.length) after trivial
    (by rw [List.length_append, ByteOrder.store_length]; omega)
  rw [List.length_append, ByteOrder.store_length, List.append_assoc (before ++ sender.store 2 v.1.length)] at rest
  simp only [split_, peekCount_store, ok_bind, dif_pos within, int32_of_lt (show before.length + 2 < 2 ^ 31 by omega)]
  refine rest.trans ?_
  simp only [Nat.add_assoc]

mutual

theorem WireField.decode_takes : (f : WireField) → (v : f.Val) → f.Sendable v →
    Takes anywhere (f.decode host (decide (host = sender))) (f.image sender v) (verdict (f.ShortTexts v) v)
  | .scalar t, v, _ => by
    rw [verdict_of (show (WireField.scalar t).ShortTexts v from trivial)]
    exact decodeWord_takes host sender v
  | .string none, v, sendable => by
    rw [verdict_of (show (WireField.string none).ShortTexts v from trivial)]
    exact decodePointer_takes host sender sendable
  | .string (some c), v, _ => decodeText_takes host sender v
  | .nested s, v, sendable => takes_nested (s.decodeFields_takes (some 0) v sendable)
  | .array (.fixed n) e, v, sendable => by
    change Exactly e.Val n at v
    obtain ⟨l, rfl⟩ := v
    exact e.decode_takes l sendable
  | .array (.varying c) e, v, sendable => by
    change (ArrayMode.varying c).Of e.Val at v
    exact takes_counted host sender v e.paddingDecode_skips (e.decode_takes v.1 sendable)

theorem Element.decode_takes : (e : Element) → (l : List e.Val) → (∀ a ∈ l, e.Sendable a) →
    Takes anywhere (e.decode host (decide (host = sender)) l.length) (e.image sender l)
      (verdict (∀ a ∈ l, e.ShortTexts a) (⟨l, rfl⟩ : Exactly e.Val l.length))
  | .scalar t, l, _ => by
    rw [verdict_of (show ∀ a ∈ l, (Element.scalar t).ShortTexts a from fun _ _ => trivial)]
    exact takes_words host sender l
  | .string, l, sendable => by
    apply takes_each
    intro _ v member
    rw [verdict_of (show Element.string.ShortTexts v from trivial)]
    exact decodePointer_takes host sender (sendable v member)
  | .nested s, l, sendable => by
    apply takes_each
    intro first v member
    exact (decodeGap_skips s.selfAlign_pos first).andThen
      (takes_nested (s.decodeFields_takes (some 0) v (sendable v member))) (leads_anywhere _ _)

theorem WireStruct.decodeFields_takes : (s : WireStruct) → (offset : Option Nat) → (v : s.Val) → s.Sendable v →
    Takes (Known offset) (s.decodeFields host (decide (host = sender)) offset) (s.image sender v)
      (verdict (s.ShortTexts v) v)
  | .nil, _, _, _ => by
    rw [verdict_of (show WireStruct.nil.ShortTexts _ from trivial)]
    intro before after _ small
    rfl
  | .cons f rest, offset, v, sendable => by
    have pad := f.alignDecode_skips offset
    have here : Takes (f.Ready offset) _ _ _ := (f.decode_takes v.1 sendable.1).within fun _ _ => trivial
    have behind := rest.decodeFields_takes (f.nextOffset offset) v.2 sendable.2
    have both := here.andThen (fun a _ => behind.map (Prod.mk a)) (f.leads_next sender offset v.1)
    rw [verdict_both] at both
    exact pad.andThen both (f.leads_ready offset)

end

/-! ## The round trip -/

namespace WireStruct

variable {s : WireStruct} {v : s.Val} {n : Nat}

/-- `encode` writes the image, or fails for want of room. -/
theorem encode_eq (measured : s.encodeSize v = .ok n) (len : Nat) :
    s.encode host v len = if n ≤ len then .ok (s.image host v 0) else .error .short := by
  obtain ⟨rfl, below, sendable⟩ := encodeSize_ok host measured
  have written := s.encodeFields_puts host (some 0) v sendable len [] known_zero (Nat.zero_le _)
    (by simp only [List.length_nil, Nat.zero_add]; exact below)
  simp only [List.length_nil, Nat.zero_add, List.nil_append] at written
  exact written

theorem decode_image (measured : s.encodeSize v = .ok n) :
    s.decode host (decide (host = sender)) (s.image sender v 0) = (verdict (s.ShortTexts v) v).map fun v => (v, n) := by
  obtain ⟨rfl, below, sendable⟩ := encodeSize_ok sender measured
  have read := s.decodeFields_takes host sender (some 0) v sendable [] [] known_zero
    (by simp only [List.length_nil, Nat.zero_add]; exact below)
  simp only [List.length_nil, Nat.zero_add, List.nil_append, List.append_nil] at read
  exact read

/-- `encode` writes the `n` bytes `encode_size` told where there is room for them and fails where not, and `decode` takes
the value out of them again: on a host of the sender's byte order, or of the other, which sees every integer swapped. -/
structure RoundTrips (s : WireStruct) (v : s.Val) (n : Nat) : Prop where
  writes : ∀ host len, n ≤ len → ∃ bytes, s.encode host v len = .ok bytes ∧ bytes.length = n
  fails : ∀ host len, len < n → ∃ stop, s.encode host v len = .error stop
  reads : ∀ host sender len bytes, n ≤ len → s.encode sender v len = .ok bytes →
    s.decode host (decide (host = sender)) bytes = .ok (v, n)

theorem roundTrips_of_short (measured : s.encodeSize v = .ok n) (short : s.ShortTexts v) : s.RoundTrips v n where
  writes host len room := by
    rw [encode_eq host measured, if_pos room]
    exact ⟨_, rfl, (encodeSize_ok host measured).1.symm⟩
  fails host len short := by
    rw [encode_eq host measured, if_neg (Nat.not_le.mpr short)]
    exact ⟨_, rfl⟩
  reads host sender len bytes room written := by
    rw [encode_eq sender measured, if_pos room] at written
    cases written
    rw [decode_image host sender measured, verdict_of short]
    rfl

/-- A length cut to two bytes leaves `decode` with bytes that are no string. -/
theorem not_roundTrips_of_long (measured : s.encodeSize v = .ok n) (long : ¬ s.ShortTexts v) : ¬ s.RoundTrips v n := by
  intro trip
  have written := encode_eq .little measured n
  rw [if_pos (Nat.le_refl n)] at written
  have read := trip.reads .little .little n _ (Nat.le_refl n) written
  rw [decode_image .little .little measured, verdict_not long] at read
  cases read

/-- The codec of a type brings back every value `encode_size` measures, if and only if none of its bounded strings is
longer than the two bytes of its length say. -/
theorem roundTrips_iff_short (s : WireStruct) (v : s.Val) (n : Nat) (measured : s.encodeSize v = .ok n) :
    s.RoundTrips v n ↔ s.ShortTexts v := by
  constructor
  · intro trip
    by_contra long
    exact not_roundTrips_of_long measured long trip
  · exact roundTrips_of_short measured

end WireStruct

/-- `uint8 a`, `string<=4 b`, `uint32[<=3] c`. -/
def labelled : WireStruct :=
  .cons (.scalar .uint8) (.cons (.string (some ⟨4, .bounded⟩)) (.cons (.array (.varying ⟨3, .bounded⟩) (.scalar .uint32)) .nil))

theorem label_noNul : (0 : UInt8) ∉ [104, 105] := by decide

theorem label_fits : ∀ n ∈ some 4, [(104 : UInt8), 105].length ≤ n := by simp

def label : Text (some 4) := ⟨[104, 105], label_noNul, label_fits⟩

theorem readings_counted : [word 4 5, word 4 6].length ≤ 3 ∧ [word 4 5, word 4 6].length < 256 ^ 2 := by decide

def readings : (ArrayMode.varying ⟨3, .bounded⟩).Of (Word 4) := ⟨[word 4 5, word 4 6], readings_counted⟩

def labelledValue : labelled.Val := (word 1 7, label, readings, ())

theorem labelled_roundTrips : labelled.encodeSize labelledValue = .ok 20 ∧ labelled.ShortTexts labelledValue ∧
    labelled.RoundTrips labelledValue 20 := by
  have measured : labelled.encodeSize labelledValue = .ok 20 := by decide
  have short : labelled.ShortTexts labelledValue := by
    refine ⟨trivial, ?_, fun _ _ => trivial, trivial⟩
    change 2 < 65535
    decide
  exact ⟨measured, short, (WireStruct.roundTrips_iff_short labelled labelledValue 20 measured).mpr short⟩

/-- `string<=65535`, which the generator takes: its buffer holds one byte more than a length of two bytes counts. -/
def wide : WireStruct := .cons (.string (some ⟨65535, .bounded⟩)) .nil

theorem fullText_noNul : (0 : UInt8) ∉ List.replicate 65535 97 := by
  intro zero
  exact absurd (List.eq_of_mem_replicate zero) (by decide)

theorem fullText_fits : ∀ n ∈ some 65535, (List.replicate 65535 (97 : UInt8)).length ≤ n := by
  intro n member
  cases member
  exact List.length_replicate.le

def fullText : Text (some 65535) := ⟨List.replicate 65535 97, fullText_noNul, fullText_fits⟩

theorem full_text_lost : ∃ (s : WireStruct) (v : s.Val) (n : Nat), s.encodeSize v = .ok n ∧ ¬ s.RoundTrips v n := by
  have measured : wide.encodeSize (fullText, ()) = .ok 65540 := by
    have length : fullText.bytes.length = 65535 := List.length_replicate
    simp only [wide, WireStruct.encodeSize, WireStruct.wireSize, WireStruct.endOffset, WireField.wireSize, constantOr,
      WireStruct.encodeSizeFields, WireField.encodeSize, textSize, length]
    decide
  refine ⟨wide, (fullText, ()), 65540, measured, WireStruct.not_roundTrips_of_long measured ?_⟩
  rintro ⟨short, -⟩
  have length : fullText.bytes.length = 65535 := List.length_replicate
  change fullText.bytes.length < 65535 at short
  omega

end TypeSupport

end Tickle
