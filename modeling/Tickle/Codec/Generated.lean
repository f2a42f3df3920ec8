import Tickle.Codec.Wire

/-! # The codec generated for a struct

`encode_size`, `encode` and `decode` as the generator emits them for a message type: each walks the
fields with a cursor of its own, by the padding `plan_fields` worked out while offsets are known and by
the cursor once they are not. Of the stops, `short` is the return of -1, `refused` of -2 and `null` of -3.
-/

namespace Tickle

namespace TypeSupport

open Cursor

/-! ## Encode -/

/-- `_emit_align_encode`. -/
def WireField.alignEncode (f : WireField) (len : Nat) (offset : Option Nat) (encoded : Bytes) : Result Bytes :=
  if f.wireAlign ≤ 1 then .ok encoded
  else match f.staticPadding offset with
    | some 0 => .ok encoded
    | some pad => put len (zeros pad) encoded
    | none => put len (zeros (padding encoded.length f.wireAlign)) encoded

/-- `_emit_string_encode`: `bytes` and a NUL are in memory, `strnlen` stops at `maxLen`. -/
def encodeText (host : ByteOrder) (len maxLen : Nat) (bytes encoded : Bytes) : Result Bytes :=
  let strLen := min bytes.length maxLen + 1
  if maxLen < strLen then .error .refused
  else do
    let encoded ← put len (host.store 2 strLen) encoded
    let encoded ← put len ((bytes ++ [0]).take strLen) encoded
    put len (zeros (padding encoded.length 4)) encoded

/-- `_encode_string_element`, and a plain string field's own encode. -/
def encodePointer (host : ByteOrder) (len : Nat) (v : Option (Text none)) (encoded : Bytes) : Result Bytes :=
  match v with
  | none => .error .null
  | some t => encodeText host len maxStringLength t.bytes encoded

/-- The check of a variable array's count and the count. -/
def encodeCount (host : ByteOrder) (len : Nat) (mode : ArrayMode) (count : Nat) (encoded : Bytes) : Result Bytes :=
  match mode with
  | .fixed _ => .ok encoded
  | .varying c => if c.max < count then .error .refused else put len (host.store 2 count) encoded

/-- The padding between a count and elements that need it. -/
def encodePadding (len : Nat) (mode : ArrayMode) (align : Nat) (encoded : Bytes) : Result Bytes :=
  match mode with
  | .fixed _ => .ok encoded
  | .varying _ => if align ≤ 1 then .ok encoded else put len (zeros (padding encoded.length align)) encoded

/-- A nested message, which its own `encode` wrote behind `encoded`. -/
def append (encoded nested : Bytes) : Result Bytes :=
  (int32 (encoded.length + nested.length)).map fun _ => encoded ++ nested

/-- The gap of `_encode_<NestedName>_element`. -/
def encodeGap (len align : Nat) (first : Bool) (encoded : Bytes) : Result Bytes :=
  if align ≤ 1 then .ok encoded
  else if first then .ok encoded
  else put len (zeros (padding encoded.length align)) encoded

mutual

/-- `_emit_scalar_encode`, `_emit_string_encode`, `_emit_nested_encode` and the array encodes. -/
def WireField.encode (host : ByteOrder) : (f : WireField) → f.Val → (len : Nat) → Bytes → Result Bytes
  | .scalar t, v, len, encoded => put len (host.store t.size v.val) encoded
  | .string none, v, len, encoded => encodePointer host len v encoded
  | .string (some c), v, len, encoded => encodeText host len (c.max + 1) v.bytes encoded
  | .nested s, v, len, encoded => do
    let nested ← s.encodeFields host (some 0) v (len - encoded.length) []
    append encoded nested
  | .array m e, v, len, encoded => do
    let encoded ← encodeCount host len m (ArrayMode.elements v).length encoded
    let encoded ← encodePadding len m e.headAlign encoded
    e.encode host (ArrayMode.elements v) len encoded

/-- The elements of an array: scalars in one check, strings and nested messages one by one. -/
def Element.encode (host : ByteOrder) : (e : Element) → List e.Val → (len : Nat) → Bytes → Result Bytes
  | .scalar t, l, len, encoded => put len (l.flatMap fun v => host.store t.size v.val) encoded
  | .string, l, len, encoded => putEach (fun _ v => encodePointer host len v) true l encoded
  | .nested s, l, len, encoded =>
    putEach (fun first v encoded => do
      let encoded ← encodeGap len s.selfAlign first encoded
      let nested ← s.encodeFields host (some 0) v (len - encoded.length) []
      append encoded nested) true l encoded

/-- The fields of `emit_encode`, from the offset `plan_fields` knows. -/
def WireStruct.encodeFields (host : ByteOrder) :
    (s : WireStruct) → Option Nat → s.Val → (len : Nat) → Bytes → Result Bytes
  | .nil, _, _, _, encoded => .ok encoded
  | .cons f rest, offset, v, len, encoded => do
    let encoded ← f.alignEncode len offset encoded
    let encoded ← f.encode host v.1 len encoded
    rest.encodeFields host (f.nextOffset offset) v.2 len encoded

end

/-- The generated `encode`, with what it wrote. -/
def WireStruct.encode (s : WireStruct) (host : ByteOrder) (v : s.Val) (len : Nat) : Result Bytes :=
  s.encodeFields host (some 0) v len []

/-! ## Size -/

/-- The alignment `emit_encode_size` accounts for. -/
def WireField.alignSize (f : WireField) (offset : Option Nat) (size : Nat) : Result Nat :=
  if f.wireAlign ≤ 1 then .ok size
  else match f.staticPadding offset with
    | some 0 => .ok size
    | some pad => int32 (size + pad)
    | none => int32 (size + padding size f.wireAlign)

def textSize (maxLen : Nat) (bytes : Bytes) (size : Nat) : Result Nat :=
  let strLen := min bytes.length maxLen + 1
  if maxLen < strLen then .error .refused
  else do
    let size ← int32 (size + (2 + strLen))
    int32 (size + padding size 4)

/-- `_string_element_size`. -/
def pointerSize (v : Option (Text none)) (size : Nat) : Result Nat :=
  match v with
  | none => .error .null
  | some t => textSize maxStringLength t.bytes size

def countOfSize (mode : ArrayMode) (count size : Nat) : Result Nat :=
  match mode with
  | .fixed _ => .ok size
  | .varying c => if c.max < count then .error .refused else int32 (size + 2)

def paddingSize (mode : ArrayMode) (align size : Nat) : Result Nat :=
  match mode with
  | .fixed _ => .ok size
  | .varying _ => if align ≤ 1 then .ok size else int32 (size + padding size align)

/-- `_emit_nested_array_element_align_size`. -/
def gapSize (align : Nat) (first : Bool) (size : Nat) : Result Nat :=
  if align ≤ 1 then .ok size
  else if first then .ok size
  else int32 (size + padding size align)

/-- `emit_encode_size` returns a constant where the type tells the size, and walks the fields where not. -/
def constantOr (wireSize : Option Nat) (fields : Result Nat) : Result Nat :=
  match wireSize with
  | some k => int32 k
  | none => fields

mutual

/-- One field of `emit_encode_size`. A fixed array of fixed-size messages adds its `wire_size`. -/
def WireField.encodeSize : (f : WireField) → f.Val → Nat → Result Nat
  | .scalar t, _, size => int32 (size + t.size)
  | .string none, v, size => pointerSize v size
  | .string (some c), v, size => textSize (c.max + 1) v.bytes size
  | .nested s, v, size => do
    let nested ← constantOr s.wireSize (s.encodeSizeFields (some 0) v 0)
    int32 (size + nested)
  | .array m e, v, size =>
    match (WireField.array m e).wireSize with
    | some k => int32 (size + k)
    | none => do
      let size ← countOfSize m (ArrayMode.elements v).length size
      let size ← paddingSize m e.headAlign size
      e.encodeSize (ArrayMode.elements v) size

def Element.encodeSize : (e : Element) → List e.Val → Nat → Result Nat
  | .scalar t, l, size => int32 (size + l.length * t.size)
  | .string, l, size => countEach (fun _ v => pointerSize v) true l size
  | .nested s, l, size =>
    countEach (fun first v size => do
      let size ← gapSize s.selfAlign first size
      let nested ← constantOr s.wireSize (s.encodeSizeFields (some 0) v 0)
      int32 (size + nested)) true l size

/-- The fields of `emit_encode_size` for a struct whose size varies. -/
def WireStruct.encodeSizeFields : (s : WireStruct) → Option Nat → s.Val → Nat → Result Nat
  | .nil, _, _, size => .ok size
  | .cons f rest, offset, v, size => do
    let size ← f.alignSize offset size
    let size ← f.encodeSize v.1 size
    rest.encodeSizeFields (f.nextOffset offset) v.2 size

end

/-- The generated `encode_size`. -/
def WireStruct.encodeSize (s : WireStruct) (v : s.Val) : Result Nat :=
  constantOr s.wireSize (s.encodeSizeFields (some 0) v 0)

/-! ## Decode -/

/-- `_emit_align_decode`. -/
def WireField.alignDecode (f : WireField) (offset : Option Nat) (payload : Bytes) (decoded : Nat) : Result Nat :=
  if f.wireAlign ≤ 1 then .ok decoded
  else match f.staticPadding offset with
    | some 0 => .ok decoded
    | some pad => advance payload.length pad decoded
    | none => skip payload.length (padding decoded f.wireAlign) decoded

/-- The bytes at the cursor. -/
def bytesAt (payload : Bytes) (decoded w : Nat) : Bytes := (payload.drop decoded).take w

/-- An integer of `w` bytes, byte-swapped where the sender's order is the other one. A single byte is not swapped. -/
def loadWord (host : ByteOrder) (isNativeEndian : Bool) (w : Nat) (bytes : Bytes) : Nat :=
  if w = 1 ∨ isNativeEndian = true then host.load bytes else swap w (host.load bytes)

def word (w n : Nat) : Word w := ⟨n % 256 ^ w, Nat.mod_lt _ (by positivity)⟩

/-- `_emit_scalar_decode`. -/
def decodeWord (host : ByteOrder) (isNativeEndian : Bool) (w : Nat) (payload : Bytes) (decoded : Nat) :
    Result (Word w × Nat) := do
  let next ← advance payload.length w decoded
  .ok (word w (loadWord host isNativeEndian w (bytesAt payload decoded w)), next)

/-- A `uint16_t` count or length; the cursor moves later. -/
def peekCount (host : ByteOrder) (isNativeEndian : Bool) (payload : Bytes) (decoded : Nat) :
    Result (Word 2) :=
  if payload.length < decoded + 2 then .error .short
  else .ok (word 2 (loadWord host isNativeEndian 2 (bytesAt payload decoded 2)))

/-- The bytes up to the first NUL of a run that ends with one are fewer than the run. -/
theorem text_short {bytes : Bytes} {k : Nat} (last : bytes[k]? = some 0) :
    ((bytes.take (k + 1)).takeWhile (· ≠ 0)).length ≤ k := by
  by_contra long
  have all : (bytes.take (k + 1)).takeWhile (· ≠ 0) = bytes.take (k + 1) := by
    apply (List.takeWhile_prefix _).eq_of_length_le
    rw [List.length_take]
    omega
  have member : (0 : UInt8) ∈ bytes.take (k + 1) := by
    apply List.mem_of_getElem? (i := k)
    rw [List.getElem?_take, if_pos (Nat.lt_succ_self k), last]
  rw [← all] at member
  simpa using List.mem_takeWhile_imp member

/-- `_emit_string_decode` and `_decode_string_element`. A plain string aliases the payload and so ends at the first
NUL; a bounded one is copied, NUL and all. -/
def decodeText (host : ByteOrder) (isNativeEndian : Bool) (bound : Option Nat) (payload : Bytes) (decoded : Nat) :
    Result (Text bound × Nat) := do
  let prefix_ ← peekCount host isNativeEndian payload decoded
  let strLen := prefix_.val
  if strLen = 0 then .error .refused
  else if long : ∃ n ∈ bound, n + 1 < strLen then .error .refused
  else do
    let decoded ← int32 (decoded + 2)
    if payload.length < decoded + strLen then .error .short
    else if last : (payload.drop decoded)[strLen - 1]? = some 0 then do
      let next ← int32 (decoded + strLen)
      let next ← skip payload.length (padding next 4) next
      .ok (⟨((payload.drop decoded).take (strLen - 1 + 1)).takeWhile (· ≠ 0), fun zero => by simpa using List.mem_takeWhile_imp zero, fun n member => by
        have short := text_short last
        simp only [not_exists, not_and, Nat.not_lt] at long
        have room := long n member
        omega⟩, next)
    else .error .refused

/-- A plain string, never NULL once decoded. -/
def decodePointer (host : ByteOrder) (isNativeEndian : Bool) (payload : Bytes) (decoded : Nat) :
    Result (Option (Text none) × Nat) := do
  let t ← decodeText host isNativeEndian none payload decoded
  .ok (some t.1, t.2)

/-- The gap of `_decode_<NestedName>_element`. -/
def decodeGap (align : Nat) (first : Bool) (payload : Bytes) (decoded : Nat) : Result Nat :=
  if align ≤ 1 then .ok decoded
  else if first then .ok decoded
  else skip payload.length (padding decoded align) decoded

/-- The padding behind a count: a scalar array checks before it steps, a nested one after. -/
def Element.paddingDecode (e : Element) (payload : Bytes) (decoded : Nat) : Result Nat :=
  if e.headAlign ≤ 1 then .ok decoded
  else match e with
    | .nested _ => skip payload.length (padding decoded e.headAlign) decoded
    | _ => advance payload.length (padding decoded e.headAlign) decoded

/-- `w` bytes each, `n` of them behind one another, already known to be there. -/
def wordsAt (host : ByteOrder) (isNativeEndian : Bool) (w : Nat) (payload : Bytes) :
    (n decoded : Nat) → Exactly (Word w) n
  | 0, _ => ⟨[], rfl⟩
  | n + 1, decoded => Exactly.cons (word w (loadWord host isNativeEndian w (bytesAt payload decoded w)))
      (wordsAt host isNativeEndian w payload n (decoded + w))

theorem counted_within {α : Type} {n most : Nat} (l : Exactly α n) (within : n ≤ most) (small : n < 256 ^ 2) :
    l.1.length ≤ most ∧ l.1.length < 256 ^ 2 := by
  rw [l.2]
  exact ⟨within, small⟩

/-- The elements with the count they came with. -/
def counted {α : Type} {n : Nat} {c : Capacity} (l : Exactly α n) (within : n ≤ c.max) (small : n < 256 ^ 2) :
    (ArrayMode.varying c).Of α :=
  ⟨l.1, counted_within l within small⟩

mutual

def WireField.decode (host : ByteOrder) (isNativeEndian : Bool) :
    (f : WireField) → Bytes → Nat → Result (f.Val × Nat)
  | .scalar t, payload, decoded => decodeWord host isNativeEndian t.size payload decoded
  | .string none, payload, decoded => decodePointer host isNativeEndian payload decoded
  | .string (some c), payload, decoded => decodeText host isNativeEndian (some c.max) payload decoded
  | .nested s, payload, decoded => do
    let nested ← s.decodeFields host isNativeEndian (some 0) (payload.drop decoded) 0
    let next ← int32 (decoded + nested.2)
    .ok (nested.1, next)
  | .array (.fixed n) e, payload, decoded => e.decode host isNativeEndian n payload decoded
  | .array (.varying c) e, payload, decoded => do
    let count ← peekCount host isNativeEndian payload decoded
    if within : count.val ≤ c.max then do
      let decoded ← int32 (decoded + 2)
      let decoded ← e.paddingDecode payload decoded
      let l ← e.decode host isNativeEndian count.val payload decoded
      .ok (counted l.1 within count.isLt, l.2)
    else .error .refused

def Element.decode (host : ByteOrder) (isNativeEndian : Bool) :
    (e : Element) → (n : Nat) → Bytes → Nat → Result (Exactly e.Val n × Nat)
  | .scalar t, n, payload, decoded => do
    let next ← advance payload.length (n * t.size) decoded
    .ok (wordsAt host isNativeEndian t.size payload n decoded, next)
  | .string, n, payload, decoded => takeEach (fun _ => decodePointer host isNativeEndian) n true payload decoded
  | .nested s, n, payload, decoded =>
    takeEach (fun first payload decoded => do
      let decoded ← decodeGap s.selfAlign first payload decoded
      let nested ← s.decodeFields host isNativeEndian (some 0) (payload.drop decoded) 0
      let next ← int32 (decoded + nested.2)
      .ok (nested.1, next)) n true payload decoded

def WireStruct.decodeFields (host : ByteOrder) (isNativeEndian : Bool) :
    (s : WireStruct) → Option Nat → Bytes → Nat → Result (s.Val × Nat)
  | .nil, _, _, decoded => .ok ((), decoded)
  | .cons f rest, offset, payload, decoded => do
    let decoded ← f.alignDecode offset payload decoded
    let v ← f.decode host isNativeEndian payload decoded
    let w ← rest.decodeFields host isNativeEndian (f.nextOffset offset) payload v.2
    .ok ((v.1, w.1), w.2)

end

/-- The generated `decode`: the message and how much of the payload it took. -/
def WireStruct.decode (s : WireStruct) (host : ByteOrder) (isNativeEndian : Bool) (payload : Bytes) :
    Result (s.Val × Nat) :=
  s.decodeFields host isNativeEndian (some 0) payload 0

end TypeSupport

end Tickle
