import Tickle.Codec.Direct

/-! # What the direct codecs write they read

The direct codecs put, count and take one image too (`WireStruct.directImage`), the generated struct codec's but for
a sequence of 65535 elements or more, whose count goes escaped. They bring back every message they accept, with each string
cut at its first NUL.
-/

namespace Tickle

namespace TypeSupport

open Cursor

variable (L : Language)

/-! ## The image -/

/-- The count in front of a sequence. -/
def countImage (order : ByteOrder) (count : Nat) : Bytes :=
  if count < countEscape then order.store 2 count else order.store 2 countEscape ++ order.store 4 count

def stringImage (order : ByteOrder) (s : Option Bytes) : Nat → Bytes :=
  match s with
  | none => fun _ => []
  | some bytes => textImage order (cut bytes)

mutual

def WireField.directImage (order : ByteOrder) : (f : WireField) → f.Ros L → Nat → Bytes
  | .scalar t, v => fun _ => order.store t.size (t.toWord v).val
  | .string _, v => stringImage order (L.data v)
  | .nested s, v => fun _ => s.directImage order v 0
  | .array (.fixed _) e, v => e.directImage order v.1
  | .array (.varying _) e, v => andThen (fun _ => countImage order (List.length v))
      (andThen (padImage e.headAlign) (e.directImage order v))

def Element.directImage (order : ByteOrder) : (e : Element) → List (e.Ros L) → Nat → Bytes
  | .scalar t, l => fun _ => l.flatMap fun v => order.store t.size (t.toWord v).val
  | .string, l => imageEach (fun _ v => stringImage order (L.data v)) true l
  | .nested s, l =>
    imageEach (fun first v => andThen (gapImage s.selfAlign first) fun _ => s.directImage order v 0) true l

def WireStruct.directImage (order : ByteOrder) : (s : WireStruct) → s.Ros L → Nat → Bytes
  | .nil, _ => fun _ => []
  | .cons f rest, v => andThen (padImage f.wireAlign)
      (andThen (f.directImage order v.1) (rest.directImage order v.2))

end

/-! ## Messages the direct codecs accept -/

/-- A string that goes on the wire: within its bound, and its length within two bytes. -/
def Accepted (bound : Option Nat) (s : Option Bytes) : Prop :=
  ∃ bytes, s = some bytes ∧ (∀ n ∈ bound, bytes.length ≤ n) ∧ (cut bytes).length < maxStringLength

def Countable (bound : Option Nat) (count : Nat) : Prop := (∀ n ∈ bound, count ≤ n) ∧ count < 2 ^ 32

mutual

def WireField.Accepts : (f : WireField) → f.Ros L → Prop
  | .scalar _, _ => True
  | .string k, v => Accepted (k.bind Capacity.bound) (L.data v)
  | .nested s, v => s.Accepts v
  | .array (.fixed _) e, v => ∀ a ∈ v.1, e.Accepts a
  | .array (.varying k) e, v => Countable k.bound (List.length v) ∧ ∀ a ∈ (show List (e.Ros L) from v), e.Accepts a

def Element.Accepts : (e : Element) → e.Ros L → Prop
  | .scalar _, _ => True
  | .string, v => Accepted none (L.data v)
  | .nested s, v => s.Accepts v

def WireStruct.Accepts : (s : WireStruct) → s.Ros L → Prop
  | .nil, _ => True
  | .cons f rest, v => f.Accepts v.1 ∧ rest.Accepts v.2

end

/-! ## What of a message comes back -/

/-- The string cut at its first NUL. -/
def Language.clean (s : L.Str) : L.Str :=
  match L.data s with
  | none => s
  | some bytes => L.assign (cut bytes)

mutual

def WireField.clean : (f : WireField) → f.Ros L → f.Ros L
  | .scalar _, v => v
  | .string _, v => L.clean v
  | .nested s, v => s.clean v
  | .array (.fixed _) e, v => Exactly.map e.clean v
  | .array (.varying _) e, v => List.map e.clean v

def Element.clean : (e : Element) → e.Ros L → e.Ros L
  | .scalar _, v => v
  | .string, v => L.clean v
  | .nested s, v => s.clean v

def WireStruct.clean : (s : WireStruct) → s.Ros L → s.Ros L
  | .nil, v => v
  | .cons f rest, v => (f.clean v.1, rest.clean v.2)

end

/-! ## Sizes the type tells -/

theorem flatMap_bits_length (sender : ByteOrder) {t : ScalarType} (l : List t.Bits) :
    (l.flatMap fun v => sender.store t.size (t.toWord v).val).length = l.length * t.size := by
  simp [List.length_flatMap]

variable (host sender : ByteOrder)

mutual

theorem WireField.directImage_wireSize : (f : WireField) → {k : Nat} → f.wireSize = some k → (v : f.Ros L) →
    (cursor : Nat) → cursor % f.wireAlign = 0 → (f.directImage L sender v cursor).length = k ∧ f.Accepts L v
  | .scalar t, k, sized, v, cursor, _ => by
    simp only [WireField.wireSize, Option.some.injEq] at sized
    subst sized
    exact ⟨sender.store_length t.size (t.toWord v).val, trivial⟩
  | .string none, k, sized, _, _, _ => by simp [WireField.wireSize] at sized
  | .string (some _), k, sized, _, _, _ => by simp [WireField.wireSize] at sized
  | .nested s, k, sized, v, cursor, _ => by
    simp only [WireField.wireSize] at sized
    obtain ⟨ends, accepts⟩ := s.directImage_endOffset sized v
    simp only [WireField.directImage]
    exact ⟨by omega, accepts⟩
  | .array (.fixed n) (.scalar t), k, sized, v, cursor, _ => by
    simp only [WireField.wireSize, Option.some.injEq] at sized
    subst sized
    change Exactly t.Bits n at v
    refine ⟨?_, fun _ _ => trivial⟩
    have words := flatMap_bits_length sender v.1
    rw [v.2] at words
    exact words
  | .array (.fixed n) (.nested s), k, sized, v, cursor, aligned => by
    simp only [WireField.wireSize, Option.map_eq_some_iff] at sized
    obtain ⟨one, size, rfl⟩ := sized
    have each : ∀ a : s.Ros L, (s.directImage L sender a 0).length = one ∧ s.Accepts L a := by
      intro a
      obtain ⟨ends, accepts⟩ := s.directImage_endOffset size a
      exact ⟨by omega, accepts⟩
    change Exactly (s.Ros L) n at v
    have start : cursor % s.selfAlign = 0 := aligned
    refine ⟨?_, fun a _ => (each a).2⟩
    have whole := imageEach_length s.selfAlign_pos (fun a => s.directImage L sender a 0) v.1
      (fun a _ => (each a).1) start
    rw [v.2] at whole
    exact whole
  | .array (.fixed _) .string, k, sized, _, _, _ => by simp [WireField.wireSize] at sized
  | .array (.varying _) _, k, sized, _, _, _ => by simp [WireField.wireSize] at sized

theorem WireStruct.directImage_endOffset : (s : WireStruct) → {o k : Nat} → s.endOffset o = some k → (v : s.Ros L) →
    o + (s.directImage L sender v o).length = k ∧ s.Accepts L v
  | .nil, o, k, ends, _ => by
    simp only [WireStruct.endOffset, Option.some.injEq] at ends
    exact ⟨by simp [WireStruct.directImage, ends], trivial⟩
  | .cons f rest, o, k, ends, v => by
    simp only [WireStruct.endOffset] at ends
    cases sized : f.wireSize with
    | none => simp [sized] at ends
    | some one =>
      simp only [sized] at ends
      have padded := alignUp_eq o f.wireAlign_pos
      have aligned := add_padding_mod o f.wireAlign_pos
      obtain ⟨here, accepts⟩ := f.directImage_wireSize sized v.1 (o + padding o f.wireAlign) aligned
      rw [padded] at ends
      obtain ⟨behind, others⟩ := rest.directImage_endOffset ends v.2
      refine ⟨?_, accepts, others⟩
      simp only [WireStruct.directImage, andThen_length, padImage, zeros_length, here]
      omega

end

theorem WireField.leads_next_direct (f : WireField) (offset : Option Nat) (v : f.Ros L) :
    Leads (f.Ready offset) (f.directImage L sender v) (Known (f.nextOffset offset)) :=
  f.leads_next_of offset fun sized cursor aligned => (f.directImage_wireSize L sender sized v cursor aligned).1

/-! ## Encode -/

theorem directText_puts {len : Nat} {bound : Option Nat} {s : Option Bytes} (accepted : Accepted bound s) :
    Puts len anywhere (directText host bound s len) (stringImage host s) := by
  obtain ⟨bytes, rfl, within, short⟩ := accepted
  have inside : ¬ ∃ n ∈ bound, n < bytes.length := by
    rintro ⟨n, member, long⟩
    exact absurd (within n member) (Nat.not_le.mpr long)
  have counted : ¬ 65535 < (cut bytes).length + 1 := by
    unfold maxStringLength at short
    omega
  have chain := (puts_put anywhere (host.store 2 ((cut bytes).length + 1))).andThen
    ((@puts_put len anywhere (cut bytes ++ [0])).andThen (puts_padding len 4 anywhere) (leads_anywhere _ _))
    (leads_anywhere _ _)
  refine chain.congr (fun _ _ => trivial) (fun done _ => ?_) fun _ _ => rfl
  simp only [directText, if_neg inside, if_neg counted]

theorem directCount_puts {len : Nat} {bound : Option Nat} {count : Nat} (countable : Countable bound count) :
    Puts len anywhere (directCount host bound count len) fun _ => countImage host count := by
  have inside : ¬ ∃ n ∈ bound, n < count := by
    rintro ⟨n, member, long⟩
    exact absurd (countable.1 n member) (Nat.not_le.mpr long)
  have fits : ¬ 2 ^ 32 ≤ count := Nat.not_le.mpr countable.2
  refine (puts_put anywhere (countImage host count)).congr (fun _ _ => trivial) (fun done _ => ?_) fun _ _ => rfl
  unfold directCount countImage
  rw [if_neg inside, if_neg fits]
  split <;> rfl

theorem directPadding_puts {len align : Nat} (positive : 0 < align) :
    Puts len anywhere (directPadding len align) (padImage align) := by
  by_cases one : align ≤ 1
  · exact puts_ok.congr (fun _ _ => trivial) (fun done _ => if_pos one) fun cursor _ => padImage_one positive one cursor
  · exact (puts_padding len align anywhere).congr (fun _ _ => trivial) (fun done _ => if_neg one) fun _ _ => rfl

mutual

theorem WireField.directEncode_puts : (f : WireField) → (v : f.Ros L) → f.Accepts L v → (len : Nat) →
    Puts len anywhere (f.directEncode L host v len) (f.directImage L host v)
  | .scalar t, v, _, _ => puts_put anywhere (host.store t.size (t.toWord v).val)
  | .string _, _, accepts, _ => directText_puts host accepts
  | .nested s, v, accepts, _ => puts_nested fun len => s.directEncodeFields_puts (some 0) v accepts len
  | .array (.fixed _) e, v, accepts, len => e.directEncode_puts v.1 accepts len
  | .array (.varying k) e, v, accepts, len => by
    have head := @directCount_puts host len k.bound _ accepts.1
    have pad := @directPadding_puts len e.headAlign e.headAlign_pos
    have elements := e.directEncode_puts v accepts.2 len
    exact head.andThen (pad.andThen elements (leads_anywhere _ _)) (leads_anywhere _ _)

theorem Element.directEncode_puts : (e : Element) → (l : List (e.Ros L)) → (∀ a ∈ l, e.Accepts L a) → (len : Nat) →
    Puts len anywhere (e.directEncode L host l len) (e.directImage L host l)
  | .scalar t, l, _, _ => puts_put anywhere (l.flatMap fun v => host.store t.size (t.toWord v).val)
  | .string, _, accepts, _ => puts_each (fun _ v member => directText_puts host (accepts v member)) true
  | .nested s, _, accepts, _ =>
    puts_each (fun first v member => (encodeGap_puts s.selfAlign_pos first).andThen
      (puts_nested fun len => s.directEncodeFields_puts (some 0) v (accepts v member) len) (leads_anywhere _ _)) true

theorem WireStruct.directEncodeFields_puts : (s : WireStruct) → (offset : Option Nat) → (v : s.Ros L) →
    s.Accepts L v → (len : Nat) →
    Puts len (Known offset) (s.directEncodeFields L host offset v len) (s.directImage L host v)
  | .nil, _, _, _, _ => puts_ok
  | .cons f rest, offset, v, accepts, len => by
    have pad := f.alignEncode_puts len offset
    have here : Puts len (f.Ready offset) (f.directEncode L host v.1 len) (f.directImage L host v.1) :=
      (f.directEncode_puts v.1 accepts.1 len).congr (fun _ _ => trivial) (fun _ _ => rfl) fun _ _ => rfl
    have behind := rest.directEncodeFields_puts (f.nextOffset offset) v.2 accepts.2 len
    exact pad.andThen (here.andThen behind (f.leads_next_direct L host offset v.1)) (f.leads_ready offset)

end

/-! ## Size -/

theorem directTextSize_measures (bound : Option Nat) (s : Option Bytes) :
    Measures anywhere (directTextSize bound s) (stringImage sender s) (Accepted bound s) := by
  intro cursor n _ counted
  cases s with
  | none => cases counted
  | some bytes =>
    unfold directTextSize at counted
    simp only at counted
    split at counted
    · cases counted
    · next inside =>
      split at counted
      · cases counted
      · next short =>
        cases counted
        refine ⟨?_, bytes, rfl, ?_, ?_⟩
        · have length := textImage_length sender (cut bytes) cursor
          change _ = cursor + (textImage sender (cut bytes) cursor).length
          rw [length, Nat.add_assoc cursor 2, ← Nat.add_assoc cursor]
          omega
        · intro n member
          by_contra long
          exact inside ⟨n, member, by omega⟩
        · unfold maxStringLength
          omega

theorem countImage_length (count : Nat) :
    (countImage sender count).length = if count < countEscape then 2 else 6 := by
  unfold countImage
  split <;> simp

theorem directCountSize_measures (bound : Option Nat) (count : Nat) :
    Measures anywhere (directCountSize bound count) (fun _ => countImage sender count) (Countable bound count) := by
  intro cursor n _ counted
  unfold directCountSize at counted
  split at counted
  · cases counted
  · next inside =>
    split at counted
    · cases counted
    · next fits =>
      cases counted
      refine ⟨by rw [countImage_length], ?_, by omega⟩
      intro n member
      by_contra long
      exact inside ⟨n, member, by omega⟩

theorem measures_padding {align : Nat} (positive : 0 < align) (start : Nat → Prop) :
    Measures start (fun size => .ok (directPaddingSize align size)) (padImage align) True := by
  apply measures_ok
  intro cursor _
  unfold directPaddingSize
  split
  · next one =>
    rw [padImage_one positive one]
    rfl
  · simp [padImage]

theorem WireField.directAlignSize_measures (f : WireField) (offset : Option Nat) :
    Measures (Known offset) (fun size => .ok (f.directAlignSize offset size)) (padImage f.wireAlign) True := by
  apply measures_ok
  intro cursor known
  unfold WireField.directAlignSize
  split
  · next one =>
    rw [padImage_one f.wireAlign_pos one]
    rfl
  · cases static : f.staticPadding offset with
    | none => simp [padImage]
    | some pad => simp [padImage, WireField.staticPadding_eq known static]

theorem fitsInt32_ok {n m : Nat} (h : fitsInt32 n = .ok m) : m = n ∧ n < 2 ^ 31 := by
  unfold fitsInt32 at h
  split at h
  · cases h
  · cases h
    exact ⟨rfl, by omega⟩

theorem WireStruct.directEncodeSize_of {s : WireStruct} {v : s.Ros L} {n : Nat}
    (inner : Measures (Known (some 0)) (s.directSizeFields L (some 0) v) (s.directImage L sender v) (s.Accepts L v))
    (measured : constantOr s.wireSize (s.directSizeFields L (some 0) v 0 >>= fitsInt32) = .ok n) :
    n = (s.directImage L sender v 0).length ∧ n < 2 ^ 31 ∧ s.Accepts L v := by
  unfold constantOr at measured
  cases sized : s.wireSize with
  | some k =>
    rw [sized] at measured
    obtain ⟨rfl, below⟩ := int32_ok measured
    obtain ⟨ends, accepts⟩ := s.directImage_endOffset L sender sized v
    exact ⟨by omega, below, accepts⟩
  | none =>
    rw [sized] at measured
    obtain ⟨m, fields, fits⟩ := bind_ok measured
    obtain ⟨rfl, below⟩ := fitsInt32_ok fits
    obtain ⟨ends, accepts⟩ := inner 0 n known_zero fields
    exact ⟨by omega, below, accepts⟩

theorem measures_nested (s : WireStruct) (v : s.Ros L)
    (inner : Measures (Known (some 0)) (s.directSizeFields L (some 0) v) (s.directImage L sender v) (s.Accepts L v)) :
    Measures anywhere (fun size => constantOr s.wireSize (s.directSizeFields L (some 0) v 0 >>= fitsInt32) >>=
      fun nested => .ok (size + nested)) (fun _ => s.directImage L sender v 0) (s.Accepts L v) := by
  intro cursor n _ counted
  obtain ⟨nested, inside, total⟩ := bind_ok counted
  cases total
  obtain ⟨rfl, -, accepts⟩ := WireStruct.directEncodeSize_of L sender inner inside
  exact ⟨rfl, accepts⟩

mutual

theorem WireField.directSize_measures : (f : WireField) → (v : f.Ros L) →
    Measures anywhere (f.directSize L v) (f.directImage L sender v) (f.Accepts L v)
  | .scalar t, v => by
    apply measures_ok
    intro cursor _
    simp only [ByteOrder.store_length, WireField.directImage, WireField.directSize]
  | .string k, v => directTextSize_measures sender (k.bind Capacity.bound) (L.data v)
  | .nested s, v => measures_nested L sender s v (s.directSizeFields_measures (some 0) v)
  | .array (.fixed _) e, v => e.directSize_measures v.1
  | .array (.varying k) e, v => by
    have head := directCountSize_measures sender k.bound (List.length v)
    have pad := measures_padding e.headAlign_pos anywhere
    have elements := e.directSize_measures v
    have chain := head.andThen (pad.andThen elements (leads_anywhere _ _)) (leads_anywhere _ _)
    exact chain.mono (fun _ _ => trivial) fun both => ⟨both.1, both.2.2⟩

theorem Element.directSize_measures : (e : Element) → (l : List (e.Ros L)) →
    Measures anywhere (e.directSize L l) (e.directImage L sender l) (∀ a ∈ l, e.Accepts L a)
  | .scalar t, l => by
    change List t.Bits at l
    intro cursor n _ counted
    cases counted
    have words := flatMap_bits_length sender l
    refine ⟨?_, fun _ _ => trivial⟩
    change _ = cursor + (l.flatMap fun v => sender.store t.size (t.toWord v).val).length
    rw [words]
    rfl
  | .string, l => by
    intro cursor n starts counted
    obtain ⟨m, each, fits⟩ := bind_ok counted
    obtain ⟨rfl, -⟩ := fitsInt32_ok fits
    exact measures_each (fun _ v _ => directTextSize_measures sender none (L.data v)) true cursor n starts each
  | .nested s, l => by
    refine measures_each (fun first v _ => ?_) true
    intro cursor n _ counted
    obtain ⟨nested, inside, total⟩ := bind_ok counted
    obtain ⟨rfl, -⟩ := fitsInt32_ok total
    obtain ⟨rfl, -, accepts⟩ :=
      WireStruct.directEncodeSize_of L sender (s.directSizeFields_measures (some 0) v) inside
    refine ⟨?_, accepts⟩
    have gap : (if first then cursor else directPaddingSize s.selfAlign cursor) =
        cursor + (gapImage s.selfAlign first cursor).length := by
      cases first with
      | true => rfl
      | false =>
        have padded := measures_padding s.selfAlign_pos anywhere cursor _ trivial rfl
        exact padded.1
    simp only [andThen_length, gap, Nat.add_assoc]

theorem WireStruct.directSizeFields_measures : (s : WireStruct) → (offset : Option Nat) → (v : s.Ros L) →
    Measures (Known offset) (s.directSizeFields L offset v) (s.directImage L sender v) (s.Accepts L v)
  | .nil, _, _ => measures_ok fun _ _ => rfl
  | .cons f rest, offset, v => by
    have pad := f.directAlignSize_measures offset
    have here : Measures (f.Ready offset) (f.directSize L v.1) (f.directImage L sender v.1) (f.Accepts L v.1) :=
      (f.directSize_measures v.1).mono (fun _ _ => trivial) id
    have behind := rest.directSizeFields_measures (f.nextOffset offset) v.2
    have chain := pad.andThen (here.andThen behind (f.leads_next_direct L sender offset v.1)) (f.leads_ready offset)
    exact chain.mono (fun _ known => known) And.right

end

/-- `direct_encode_size` answers with the length of the image. -/
theorem WireStruct.directEncodeSize_ok {s : WireStruct} {v : s.Ros L} {n : Nat}
    (measured : s.directEncodeSize L v = .ok n) :
    n = (s.directImage L sender v 0).length ∧ n < 2 ^ 31 ∧ s.Accepts L v :=
  WireStruct.directEncodeSize_of L sender (s.directSizeFields_measures L sender (some 0) v) measured

/-! ## Decode -/

/-- The decoder with nobody watching. -/
def plain : Machine Result where
  lift r := r
  allocate _ _ _ := .ok ()
  step _ := .ok ()

theorem readEach_plain {α : Type} (read : Bool → Bytes → Nat → Result (α × Nat)) (n : Nat) (first : Bool)
    (payload : Bytes) (cursor : Nat) :
    readEach plain read n first payload cursor = takeEach read n first payload cursor := by
  induction n generalizing first cursor with
  | zero => rfl
  | succ n ih =>
    simp only [readEach, takeEach]
    change (read first payload cursor >>= fun a => readEach plain read n false payload a.2 >>= fun l =>
      pure (Exactly.cons a.1 l.1, l.2)) = _
    simp only [ih]
    rfl

theorem ScalarType.ofWord_toWord (t : ScalarType) (v : t.Bits) : t.ofWord (t.toWord v) = v := by
  cases t with
  | bool =>
    change Bool at v
    cases v <;> rfl
  | _ => rfl

theorem directDecodeText_takes {bound : Option Nat} {s : L.Str} (accepted : Accepted bound (L.data s)) :
    Takes anywhere (directDecodeText L host (decide (host = sender)) bound) (stringImage sender (L.data s))
      (.ok (L.clean s)) := by
  obtain ⟨bytes, here, within, short⟩ := accepted
  have noNul : (0 : UInt8) ∉ cut bytes := fun zero => by simpa using List.mem_takeWhile_imp zero
  have fits : ∀ n ∈ bound, (cut bytes).length ≤ n := by
    intro n member
    have shorter : (cut bytes).length ≤ bytes.length := (List.takeWhile_prefix _).length_le
    exact shorter.trans (within n member)
  have text := (decodeText_takes host sender (⟨cut bytes, noNul, fits⟩ : Text bound)).map fun t => L.assign t.bytes
  rw [verdict_of short] at text
  simp only [here, stringImage, Language.clean]
  exact text

theorem directPeekCount_takes {bound : Option Nat} {count : Nat} (countable : Countable bound count) :
    Takes anywhere (directPeekCount host (decide (host = sender)) bound) (fun _ => countImage sender count)
      (.ok count) := by
  intro before after _ small
  have inside : ¬ ∃ n ∈ bound, n < count := by
    rintro ⟨n, member, long⟩
    exact absurd (countable.1 n member) (Nat.not_le.mpr long)
  have length := countImage_length sender count
  rw [length] at small ⊢
  unfold countImage
  by_cases short : count < countEscape
  · have value : (word 2 count).val = count := by
      apply Nat.mod_eq_of_lt
      unfold countEscape at short
      omega
    have plain_ : ¬ count = countEscape := by omega
    simp only [if_pos short] at small ⊢
    simp only [directPeekCount, escapedCount, peekCount_store, ok_bind, value, if_neg plain_, if_neg inside, int32_of_lt small]
    rfl
  · have value : (word 2 countEscape).val = countEscape := by decide
    have escaped := peekCount_store host sender before (sender.store 4 count ++ after) countEscape
    have wide := bytesAt_here (before ++ sender.store 2 countEscape) (sender.store 4 count) after
      (sender.store_length 4 count)
    have whole : count % 256 ^ 4 = count := Nat.mod_eq_of_lt (by have := countable.2; omega)
    simp only [if_neg short] at small ⊢
    simp only [List.length_append, ByteOrder.store_length, List.append_assoc] at escaped wide ⊢
    have room : ¬ before.length + (2 + (4 + after.length)) < before.length + 6 := by omega
    simp only [directPeekCount, escapedCount, escaped, ok_bind, value, if_pos, List.length_append, ByteOrder.store_length, if_neg room,
      int32_of_lt (show before.length + 4 < 2 ^ 31 by omega), wide, loadWord_store, whole, Except.map, if_neg inside,
      int32_of_lt (show before.length + 4 + 2 < 2 ^ 31 by omega)]

theorem wordsAt_bits {t : ScalarType} (l : List t.Bits) (before after : Bytes) :
    (wordsAt host (decide (host = sender)) t.size
      (before ++ (l.flatMap fun v => sender.store t.size (t.toWord v).val) ++ after) l.length before.length).map t.ofWord =
        ⟨l, rfl⟩ := by
  have found : ∀ n, n = (l.map t.toWord).length → (wordsAt host (decide (host = sender)) t.size
      (before ++ ((l.map t.toWord).flatMap fun v => sender.store t.size v.val) ++ after) n before.length).1 =
        l.map t.toWord := by
    rintro _ rfl
    rw [wordsAt_store]
  have here := found l.length (List.length_map t.toWord).symm
  rw [List.flatMap_map] at here
  apply Subtype.ext
  change List.map t.ofWord (wordsAt host _ t.size _ l.length before.length).1 = l
  rw [here, List.map_map]
  have same : t.ofWord ∘ t.toWord = id := funext t.ofWord_toWord
  rw [same, List.map_id]

theorem takes_bits {t : ScalarType} (l : List t.Bits) :
    Takes anywhere (fun payload decoded => advance payload.length (l.length * t.size) decoded >>= fun next =>
        .ok ((wordsAt host (decide (host = sender)) t.size payload l.length decoded).map t.ofWord, next))
      (fun _ => l.flatMap fun v => sender.store t.size (t.toWord v).val)
      (.ok (Exactly.map (fun v => v) (⟨l, rfl⟩ : Exactly t.Bits l.length))) := by
  have same : Exactly.map (fun v => v) (⟨l, rfl⟩ : Exactly t.Bits l.length) = ⟨l, rfl⟩ := Subtype.ext (List.map_id' l)
  rw [same]
  intro before after _ small
  have width := flatMap_bits_length sender l
  have there : before.length + l.length * t.size ≤
      (before ++ (l.flatMap fun v => sender.store t.size (t.toWord v).val) ++ after).length := by
    simp only [List.length_append, width]
    omega
  simp only [width] at small ⊢
  simp only [advance_of_le there small, ok_bind, wordsAt_bits]
  rfl

/-- A look whether the elements are there, in front of a reader that would find them. -/
theorem takes_behind_check {α : Type} {k : Nat} {start : Nat → Prop} {read : Bytes → Nat → Result (α × Nat)}
    {image : Nat → Bytes} {found : Result α} (one : Takes start read image found)
    (least : ∀ cursor, start cursor → k ≤ (image cursor).length) :
    Takes start (fun payload decoded => (if payload.length < decoded + k then .error .short else .ok ()) >>=
      fun _ : Unit => read payload decoded) image found := by
  intro before after starts small
  have there : ¬ (before ++ image before.length ++ after).length < before.length + k := by
    have some_ := least before.length starts
    simp only [List.length_append]
    omega
  simp only [if_neg there, ok_bind]
  exact one before after starts small

theorem skips_padding {align : Nat} (positive : 0 < align) : Skips anywhere (fun payload decoded =>
    if align ≤ 1 then .ok decoded else skip payload.length (padding decoded align) decoded) (padImage align) := by
  by_cases one : align ≤ 1
  · exact skips_ok.congr (fun _ _ => trivial) (fun payload cursor _ => if_pos one)
      fun cursor _ => padImage_one positive one cursor
  · exact skips_skip.congr (fun _ _ => trivial) (fun payload cursor _ => if_neg one) fun _ _ => rfl

/-- A string from an even offset takes four bytes or more, and ends at an even one. -/
theorem stringImage_least {bound : Option Nat} {s : Option Bytes} (accepted : Accepted bound s) {cursor : Nat}
    (even : cursor % 2 = 0) : leastString ≤ (stringImage sender s cursor).length ∧
      (cursor + (stringImage sender s cursor).length) % 2 = 0 := by
  obtain ⟨bytes, rfl, -⟩ := accepted
  change _ ≤ (textImage sender (cut bytes) cursor).length ∧ (_ + (textImage sender (cut bytes) cursor).length) % 2 = 0
  rw [textImage_length]
  unfold padding leastString
  omega

theorem stringsImage_least {l : List L.Str} (accepted : ∀ s ∈ l, Accepted none (L.data s)) {cursor : Nat}
    (even : cursor % 2 = 0) (first : Bool) :
    l.length * leastString ≤ (imageEach (fun _ s => stringImage sender (L.data s)) first l cursor).length := by
  induction l generalizing cursor first with
  | nil => simp
  | cons s l ih =>
    obtain ⟨here, next⟩ := stringImage_least sender (accepted s List.mem_cons_self) even
    have rest := ih (fun r member => accepted r (List.mem_cons_of_mem s member)) next false
    simp only [imageEach, andThen_length, List.length_cons, Nat.succ_mul]
    omega

theorem takes_strings (l : List L.Str) (accepted : ∀ s ∈ l, Accepted none (L.data s)) :
    Takes anywhere (readEach plain (fun _ payload decoded =>
        directDecodeText L host (decide (host = sender)) none payload decoded) l.length true)
      (imageEach (fun _ s => stringImage sender (L.data s)) true l)
      (.ok (Exactly.map L.clean (⟨l, rfl⟩ : Exactly L.Str l.length))) := by
  have one : ∀ _ : Bool, ∀ s ∈ l, Takes anywhere (directDecodeText L host (decide (host = sender)) none)
      (stringImage sender (L.data s)) (.ok (L.clean s)) :=
    fun _ s member => directDecodeText_takes L host sender (accepted s member)
  have each := takes_each_map one true
  intro before after
  rw [readEach_plain]
  exact each before after

/-- The reader of one nested element. -/
def readNested (s : WireStruct) (first : Bool) (payload : Bytes) (decoded : Nat) : Result (s.Ros L × Nat) := do
  let decoded ← decodeGap s.selfAlign first payload decoded
  let nested ← s.directDecodeFields plain L host (decide (host = sender)) (some 0) (payload.drop decoded) 0
  let next ← int32 (decoded + nested.2)
  .ok (nested.1, next)

theorem takes_messages {s : WireStruct} (l : List (s.Ros L))
    (inner : ∀ v ∈ l, Takes (Known (some 0)) (s.directDecodeFields plain L host (decide (host = sender)) (some 0))
      (s.directImage L sender v) (.ok (s.clean L v))) :
    Takes anywhere (readEach plain (readNested L host sender s) l.length true)
      (imageEach (fun first v => andThen (gapImage s.selfAlign first) fun _ => s.directImage L sender v 0) true l)
      (.ok (Exactly.map (s.clean L) (⟨l, rfl⟩ : Exactly (s.Ros L) l.length))) := by
  have one : ∀ first, ∀ v ∈ l, Takes anywhere (readNested L host sender s first)
      (andThen (gapImage s.selfAlign first) fun _ => s.directImage L sender v 0) (.ok (s.clean L v)) :=
    fun first v member => (decodeGap_skips s.selfAlign_pos first).andThen (takes_nested (inner v member))
      (leads_anywhere _ _)
  have each := takes_each_map one true
  intro before after
  rw [readEach_plain]
  exact each before after

/-- The reader of a sequence behind its count. -/
def readSequence (e : Element) (n : Nat) (payload : Bytes) (decoded : Nat) : Result (List (e.Ros L) × Nat) := do
  let l ← e.directDecodeSequence plain L host (decide (host = sender)) n payload decoded
  .ok (l.1.1, l.2)

mutual

theorem WireField.directDecode_takes : (f : WireField) → (v : f.Ros L) → f.Accepts L v →
    Takes (fun cursor => cursor % f.wireAlign = 0) (f.directDecode plain L host (decide (host = sender)))
      (f.directImage L sender v) (.ok (f.clean L v))
  | .scalar t, v, _ => by
    have read := (decodeWord_takes host sender (t.toWord v)).map t.ofWord
    simp only [Except.map, t.ofWord_toWord v] at read
    exact read.within fun _ _ => trivial
  | .string _, v, accepts => (directDecodeText_takes L host sender accepts).within fun _ _ => trivial
  | .nested s, v, accepts => (takes_nested (s.directDecodeFields_takes (some 0) v accepts)).within fun _ _ => trivial
  | .array (.fixed n) e, v, accepts => by
    change Exactly (e.Ros L) n at v
    obtain ⟨l, rfl⟩ := v
    exact (e.directDecode_takes l accepts).within fun _ _ => trivial
  | .array (.varying k) e, v, accepts => by
    have head : Takes (fun cursor => cursor % 2 = 0) _ _ _ :=
      (directPeekCount_takes host sender accepts.1).within fun _ _ => trivial
    have sequence : Takes (fun cursor => cursor % 2 = 0) (readSequence L host sender e (List.length v)) _ _ :=
      (e.directDecodeSequence_takes v accepts.2).map Subtype.val
    have any : ∀ n, (Except.ok (List.length v) : Result Nat) = .ok n → Takes (fun cursor => cursor % 2 = 0)
        (readSequence L host sender e n) (andThen (padImage e.headAlign) (e.directImage L sender v))
        (.ok (List.map (e.clean L) v)) := by
      intro n found
      cases found
      exact sequence
    have leads : Leads (fun cursor => cursor % 2 = 0) (fun _ => countImage sender (List.length v))
        fun cursor => cursor % 2 = 0 := by
      intro cursor even
      simp only [countImage_length]
      split <;> omega
    exact head.andThen any leads

theorem Element.directDecode_takes : (e : Element) → (l : List (e.Ros L)) → (∀ a ∈ l, e.Accepts L a) →
    Takes anywhere (e.directDecode plain L host (decide (host = sender)) l.length) (e.directImage L sender l)
      (.ok (Exactly.map (e.clean L) (⟨l, rfl⟩ : Exactly (e.Ros L) l.length)))
  | .scalar t, l, _ => @takes_bits host sender t l
  | .string, l, accepts => takes_strings L host sender l accepts
  | .nested s, l, accepts =>
    takes_messages L host sender l fun v member => s.directDecodeFields_takes (some 0) v (accepts v member)

theorem Element.directDecodeSequence_takes : (e : Element) → (l : List (e.Ros L)) → (∀ a ∈ l, e.Accepts L a) →
    Takes (fun cursor => cursor % 2 = 0) (e.directDecodeSequence plain L host (decide (host = sender)) l.length)
      (andThen (padImage e.headAlign) (e.directImage L sender l))
      (.ok (Exactly.map (e.clean L) (⟨l, rfl⟩ : Exactly (e.Ros L) l.length)))
  | .scalar t, l, _ => by
    have words := @takes_bits host sender t l
    have checked := takes_behind_check words fun _ _ => (flatMap_bits_length sender l).ge
    exact ((skips_padding t.align_pos).andThen checked (leads_anywhere _ _)).within fun _ _ => trivial
  | .string, l, accepts => by
    have strings : Takes (fun cursor => cursor % 2 = 0) _ _ _ :=
      (takes_strings L host sender l accepts).within fun _ _ => trivial
    have checked := takes_behind_check strings fun _ even => stringsImage_least L sender accepts even true
    have none_ : Skips (fun cursor => cursor % 2 = 0) (fun _ cursor => .ok cursor) (padImage 1) :=
      skips_ok.congr (fun _ even => even) (fun _ _ _ => rfl) fun cursor _ => padImage_one Nat.one_pos (Nat.le_refl 1) cursor
    refine none_.andThen checked fun cursor even => ?_
    rw [padImage_one Nat.one_pos (Nat.le_refl 1)]
    exact even
  | .nested s, l, accepts => by
    have messages := takes_messages L host sender l fun v member =>
      s.directDecodeFields_takes (some 0) v (accepts v member)
    exact ((skips_padding s.selfAlign_pos).andThen messages (leads_anywhere _ _)).within fun _ _ => trivial

theorem WireStruct.directDecodeFields_takes : (s : WireStruct) → (offset : Option Nat) → (v : s.Ros L) →
    s.Accepts L v → Takes (Known offset) (s.directDecodeFields plain L host (decide (host = sender)) offset)
      (s.directImage L sender v) (.ok (s.clean L v))
  | .nil, _, _, _ => by
    intro before after _ small
    rfl
  | .cons f rest, offset, v, accepts => by
    have pad := f.alignDecode_skips offset
    have here : Takes (f.Ready offset) _ _ _ := (f.directDecode_takes v.1 accepts.1).within fun _ ready => ready.1
    have behind := rest.directDecodeFields_takes (f.nextOffset offset) v.2 accepts.2
    have both := here.andThen (fun a _ => behind.map (Prod.mk a)) (f.leads_next_direct L sender offset v.1)
    exact pad.andThen both (f.leads_ready offset)

end

end TypeSupport

end Tickle
