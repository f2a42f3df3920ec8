import Tickle.Codec.RoundTrip

/-! # The direct codecs

A ROS 2 message straight to wire bytes and back, for a C message and for a C++ one: one generator writes
the layout for both, and they differ in how a string is reached (`Language`). The decoder is written over a `Machine`, which is
told of what it allocates and of every element it steps over.
-/

namespace Tickle

namespace TypeSupport

open Cursor

/-- How a language holds a string: `rosidl_runtime_c__String`, whose `data` may be NULL, or `std::string`. Its bytes may
hold a NUL. -/
structure Language where
  Str : Type
  data : Str → Option Bytes
  assign : Bytes → Str

def c : Language := ⟨Option Bytes, id, some⟩

def cpp : Language := ⟨Bytes, some, id⟩

/-- What a scalar member holds: a `bool` is true or false, whatever byte it was read from. -/
def ScalarType.Bits : ScalarType → Type
  | .bool => Bool
  | t => Word t.size

def ScalarType.toWord : (t : ScalarType) → t.Bits → Word t.size
  | .bool, b => word 1 b.toNat
  | .byte, v | .char, v | .int8, v | .uint8, v | .int16, v | .uint16, v | .int32, v | .uint32, v | .float32, v
  | .int64, v | .uint64, v | .float64, v => v

def ScalarType.ofWord : (t : ScalarType) → Word t.size → t.Bits
  | .bool, w => decide (w.val ≠ 0)
  | .byte, v | .char, v | .int8, v | .uint8, v | .int16, v | .uint16, v | .int32, v | .uint32, v | .float32, v
  | .int64, v | .uint64, v | .float64, v => v

mutual

/-- A field of the ROS message. A sequence has whatever length it has. -/
def WireField.Ros (L : Language) : WireField → Type
  | .scalar t => t.Bits
  | .string _ => L.Str
  | .nested s => s.Ros L
  | .array (.fixed n) e => Exactly (e.Ros L) n
  | .array (.varying _) e => List (e.Ros L)

def Element.Ros (L : Language) : Element → Type
  | .scalar t => t.Bits
  | .string => L.Str
  | .nested s => s.Ros L

def WireStruct.Ros (L : Language) : WireStruct → Type
  | .nil => Unit
  | .cons f rest => f.Ros L × rest.Ros L

end

/-- `string_bound` and `array_bound`: of the capacities only the IDL's own bind the message. -/
def Capacity.bound (k : Capacity) : Option Nat := if k.source = .bounded then some k.max else none

/-- `COUNT_ESCAPE`. -/
def countEscape : Nat := 0xFFFF

/-! ## Encode -/

/-- A string up to its first NUL. -/
def cut (bytes : Bytes) : Bytes := bytes.takeWhile (· ≠ 0)

/-- `direct_encode_string`. -/
def directText (host : ByteOrder) (bound : Option Nat) (s : Option Bytes) (len : Nat) (encoded : Bytes) :
    Result Bytes :=
  match s with
  | none => .error .null
  | some bytes =>
    if ∃ n ∈ bound, n < bytes.length then .error .refused
    else if 65535 < (cut bytes).length + 1 then .error .refused
    else do
      let encoded ← put len (host.store 2 ((cut bytes).length + 1)) encoded
      let encoded ← put len (cut bytes ++ [0]) encoded
      put len (zeros (padding encoded.length 4)) encoded

/-- `_count_encode`. -/
def directCount (host : ByteOrder) (bound : Option Nat) (count len : Nat) (encoded : Bytes) : Result Bytes :=
  if ∃ n ∈ bound, n < count then .error .refused
  else if 2 ^ 32 ≤ count then .error .refused
  else if count < countEscape then put len (host.store 2 count) encoded
  else put len (host.store 2 countEscape ++ host.store 4 count) encoded

/-- `_pad_encode` behind a count. -/
def directPadding (len align : Nat) (encoded : Bytes) : Result Bytes :=
  if align ≤ 1 then .ok encoded else put len (zeros (padding encoded.length align)) encoded

mutual

/-- `_field_encode`. -/
def WireField.directEncode (L : Language) (host : ByteOrder) :
    (f : WireField) → f.Ros L → (len : Nat) → Bytes → Result Bytes
  | .scalar t, v, len, encoded => put len (host.store t.size (t.toWord v).val) encoded
  | .string k, v, len, encoded => directText host (k.bind Capacity.bound) (L.data v) len encoded
  | .nested s, v, len, encoded => do
    let nested ← s.directEncodeFields L host (some 0) v (len - encoded.length) []
    append encoded nested
  | .array (.fixed _) e, v, len, encoded => e.directEncode L host v.1 len encoded
  | .array (.varying k) e, v, len, encoded => do
    let encoded ← directCount host k.bound (List.length v) len encoded
    let encoded ← directPadding len e.headAlign encoded
    e.directEncode L host v len encoded

def Element.directEncode (L : Language) (host : ByteOrder) :
    (e : Element) → List (e.Ros L) → (len : Nat) → Bytes → Result Bytes
  | .scalar t, l, len, encoded => put len (l.flatMap fun v => host.store t.size (t.toWord v).val) encoded
  | .string, l, len, encoded => putEach (fun _ v => directText host none (L.data v) len) true l encoded
  | .nested s, l, len, encoded =>
    putEach (fun first v encoded => do
      let encoded ← encodeGap len s.selfAlign first encoded
      let nested ← s.directEncodeFields L host (some 0) v (len - encoded.length) []
      append encoded nested) true l encoded

/-- The fields of `direct_encode`. -/
def WireStruct.directEncodeFields (L : Language) (host : ByteOrder) :
    (s : WireStruct) → Option Nat → s.Ros L → (len : Nat) → Bytes → Result Bytes
  | .nil, _, _, _, encoded => .ok encoded
  | .cons f rest, offset, v, len, encoded => do
    let encoded ← f.alignEncode len offset encoded
    let encoded ← f.directEncode L host v.1 len encoded
    rest.directEncodeFields L host (f.nextOffset offset) v.2 len encoded

end

def WireStruct.directEncode (s : WireStruct) (L : Language) (host : ByteOrder) (v : s.Ros L) (len : Nat) :
    Result Bytes :=
  s.directEncodeFields L host (some 0) v len []

/-! ## Size

`size` is a `size_t`; only what is returned has to fit an `int32_t`. -/

/-- `direct_string_size`. -/
def directTextSize (bound : Option Nat) (s : Option Bytes) (size : Nat) : Result Nat :=
  match s with
  | none => .error .null
  | some bytes =>
    if ∃ n ∈ bound, n < bytes.length then .error .refused
    else if 65535 < (cut bytes).length + 1 then .error .refused
    else
      let size := size + (2 + ((cut bytes).length + 1))
      .ok (size + padding size 4)

/-- `_count_size`. -/
def directCountSize (bound : Option Nat) (count size : Nat) : Result Nat :=
  if ∃ n ∈ bound, n < count then .error .refused
  else if 2 ^ 32 ≤ count then .error .refused
  else .ok (size + if count < countEscape then 2 else 6)

/-- `size > INT32_MAX` is refused. -/
def fitsInt32 (size : Nat) : Result Nat := if 2 ^ 31 ≤ size then .error .refused else .ok size

/-- `_pad_size`. -/
def WireField.directAlignSize (f : WireField) (offset : Option Nat) (size : Nat) : Nat :=
  if f.wireAlign ≤ 1 then size
  else match f.staticPadding offset with
    | some pad => size + pad
    | none => size + padding size f.wireAlign

/-- `_pad_size` behind a count or between elements. -/
def directPaddingSize (align size : Nat) : Nat := if align ≤ 1 then size else size + padding size align

mutual

/-- `_field_size`. -/
def WireField.directSize (L : Language) : (f : WireField) → f.Ros L → Nat → Result Nat
  | .scalar t, _, size => .ok (size + t.size)
  | .string k, v, size => directTextSize (k.bind Capacity.bound) (L.data v) size
  | .nested s, v, size => do
    let nested ← constantOr s.wireSize (s.directSizeFields L (some 0) v 0 >>= fitsInt32)
    .ok (size + nested)
  | .array (.fixed _) e, v, size => e.directSize L v.1 size
  | .array (.varying k) e, v, size => do
    let size ← directCountSize k.bound (List.length v) size
    e.directSize L v (directPaddingSize e.headAlign size)

def Element.directSize (L : Language) : (e : Element) → List (e.Ros L) → Nat → Result Nat
  | .scalar t, l, size => .ok (size + l.length * t.size)
  | .string, l, size => countEach (fun _ v => directTextSize none (L.data v)) true l size >>= fitsInt32
  | .nested s, l, size =>
    countEach (fun first v size => do
      let size := if first then size else directPaddingSize s.selfAlign size
      let nested ← constantOr s.wireSize (s.directSizeFields L (some 0) v 0 >>= fitsInt32)
      fitsInt32 (size + nested)) true l size

def WireStruct.directSizeFields (L : Language) : (s : WireStruct) → Option Nat → s.Ros L → Nat → Result Nat
  | .nil, _, _, size => .ok size
  | .cons f rest, offset, v, size => do
    let size ← f.directSize L v.1 (f.directAlignSize offset size)
    rest.directSizeFields L (f.nextOffset offset) v.2 size

end

/-- `direct_encode_size`. -/
def WireStruct.directEncodeSize (s : WireStruct) (L : Language) (v : s.Ros L) : Result Nat :=
  constantOr s.wireSize (s.directSizeFields L (some 0) v 0 >>= fitsInt32)

/-! ## Decode -/

/-- What a decoder runs on: it is told of each sequence the decoder allocates, with the elements it is for, the
bytes of the payload still ahead and the least bytes such an element takes, and of the elements it steps over. -/
structure Machine (m : Type → Type) where
  lift : {α : Type} → Result α → m α
  allocate : (count left unit : Nat) → m Unit
  step : Nat → m Unit

/-- The count behind the escape, if it is one. -/
def escapedCount (host : ByteOrder) (isNativeEndian : Bool) (short : Nat) (payload : Bytes) (decoded : Nat) :
    Result (Nat × Nat) :=
  if short = countEscape then
    if payload.length < decoded + 6 then .error .short
    else (int32 (decoded + 4)).map fun next =>
      (loadWord host isNativeEndian 4 (bytesAt payload (decoded + 2) 4) % 256 ^ 4, next)
  else .ok (short, decoded)

/-- `_count_decode`: two bytes, or the escape and four. -/
def directPeekCount (host : ByteOrder) (isNativeEndian : Bool) (bound : Option Nat) (payload : Bytes) (decoded : Nat) :
    Result (Nat × Nat) := do
  let short ← peekCount host isNativeEndian payload decoded
  let counted ← escapedCount host isNativeEndian short.val payload decoded
  if ∃ n ∈ bound, n < counted.1 then .error .refused
  else (int32 (counted.2 + 2)).map fun next => (counted.1, next)

/-- `direct_decode_string`: assigned up to the first NUL. -/
def directDecodeText (L : Language) (host : ByteOrder) (isNativeEndian : Bool) (bound : Option Nat) (payload : Bytes)
    (decoded : Nat) : Result (L.Str × Nat) := do
  let text ← decodeText host isNativeEndian bound payload decoded
  .ok (L.assign text.1.bytes, text.2)

/-- The least bytes of a string: its length, the NUL and padding. -/
def leastString : Nat := 4

mutual

/-- The least bytes a value takes on the wire, padding between fields apart. -/
def WireField.least : WireField → Nat
  | .scalar t => t.size
  | .string _ => leastString
  | .nested s => s.least
  | .array (.fixed n) e => n * e.least
  | .array (.varying _) _ => countSize

def Element.least : Element → Nat
  | .scalar t => t.size
  | .string => leastString
  | .nested s => s.least

def WireStruct.least : WireStruct → Nat
  | .nil => 0
  | .cons f rest => f.least + rest.least

end

section Decode

variable {m : Type → Type} [Monad m] (M : Machine m) (L : Language) (host : ByteOrder) (isNativeEndian : Bool)

/-- A loop of the decoder over `n` elements. -/
def readEach {α : Type} (read : Bool → Bytes → Nat → m (α × Nat)) :
    (n : Nat) → Bool → Bytes → Nat → m (Exactly α n × Nat)
  | 0, _, _, cursor => pure (⟨[], List.length_nil⟩, cursor)
  | n + 1, first, payload, cursor => do
    M.step 1
    let a ← read first payload cursor
    let l ← readEach read n false payload a.2
    pure (Exactly.cons a.1 l.1, l.2)

mutual

/-- `_field_decode`. -/
def WireField.directDecode : (f : WireField) → Bytes → Nat → m (f.Ros L × Nat)
  | .scalar t, payload, decoded => do
    let v ← M.lift (decodeWord host isNativeEndian t.size payload decoded)
    pure (t.ofWord v.1, v.2)
  | .string k, payload, decoded =>
    M.lift (directDecodeText L host isNativeEndian (k.bind Capacity.bound) payload decoded)
  | .nested s, payload, decoded => do
    let nested ← s.directDecodeFields (some 0) (payload.drop decoded) 0
    let next ← M.lift (int32 (decoded + nested.2))
    pure (nested.1, next)
  | .array (.fixed n) e, payload, decoded => e.directDecode n payload decoded
  | .array (.varying k) e, payload, decoded => do
    let count ← M.lift (directPeekCount host isNativeEndian k.bound payload decoded)
    let l ← e.directDecodeSequence count.1 payload count.2
    pure (l.1.1, l.2)

/-- The elements of an array, once they are allocated. -/
def Element.directDecode : (e : Element) → (n : Nat) → Bytes → Nat → m (Exactly (e.Ros L) n × Nat)
  | .scalar t, n, payload, decoded => do
    let next ← M.lift (advance payload.length (n * t.size) decoded)
    M.step n
    pure ((wordsAt host isNativeEndian t.size payload n decoded).map t.ofWord, next)
  | .string, n, payload, decoded =>
    readEach M (fun _ payload decoded => M.lift (directDecodeText L host isNativeEndian none payload decoded))
      n true payload decoded
  | .nested s, n, payload, decoded =>
    readEach M (fun first payload decoded => do
      let decoded ← M.lift (decodeGap s.selfAlign first payload decoded)
      let nested ← s.directDecodeFields (some 0) (payload.drop decoded) 0
      let next ← M.lift (int32 (decoded + nested.2))
      pure (nested.1, next)) n true payload decoded

/-- A sequence of `n` elements behind its count. Scalars and strings are looked for in the payload before the sequence is
allocated, nested messages are not. -/
def Element.directDecodeSequence : (e : Element) → (n : Nat) → Bytes → Nat → m (Exactly (e.Ros L) n × Nat)
  | .scalar t, n, payload, decoded => do
    let decoded ← M.lift (if t.align ≤ 1 then .ok decoded else skip payload.length (padding decoded t.align) decoded)
    let _ ← M.lift (if payload.length < decoded + n * t.size then .error .short else .ok ())
    M.allocate n (payload.length - decoded) t.size
    let next ← M.lift (advance payload.length (n * t.size) decoded)
    M.step n
    pure ((wordsAt host isNativeEndian t.size payload n decoded).map t.ofWord, next)
  | .string, n, payload, decoded => do
    let _ ← M.lift (if payload.length < decoded + n * 4 then .error .short else .ok ())
    M.allocate n (payload.length - decoded) leastString
    readEach M (fun _ payload decoded => M.lift (directDecodeText L host isNativeEndian none payload decoded))
      n true payload decoded
  | .nested s, n, payload, decoded => do
    let decoded ← M.lift (if s.selfAlign ≤ 1 then .ok decoded
      else skip payload.length (padding decoded s.selfAlign) decoded)
    M.allocate n (payload.length - decoded) s.least
    readEach M (fun first payload decoded => do
      let decoded ← M.lift (decodeGap s.selfAlign first payload decoded)
      let nested ← s.directDecodeFields (some 0) (payload.drop decoded) 0
      let next ← M.lift (int32 (decoded + nested.2))
      pure (nested.1, next)) n true payload decoded

def WireStruct.directDecodeFields : (s : WireStruct) → Option Nat → Bytes → Nat → m (s.Ros L × Nat)
  | .nil, _, _, decoded => pure ((), decoded)
  | .cons f rest, offset, payload, decoded => do
    let decoded ← M.lift (f.alignDecode offset payload decoded)
    let v ← f.directDecode payload decoded
    let w ← rest.directDecodeFields (f.nextOffset offset) payload v.2
    pure ((v.1, w.1), w.2)

end

end Decode

end TypeSupport

end Tickle
