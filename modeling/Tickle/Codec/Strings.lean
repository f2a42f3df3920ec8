import Tickle.Codec.Wire

/-! # Strings on the wire

A string travels as a 16-bit length that counts the terminator, its characters and the terminator. The length is worked out in a
wider type, of the string cut to `tt_MAX_STRING_LENGTH` characters.
-/

namespace Tickle

namespace Text

open Cursor

/-! ## Memory -/

/-- `memcpy()` into a buffer. -/
def put (buffer : Nat → UInt8) (offset : Nat) (bytes : Bytes) : Nat → UInt8 :=
  fun i => if i < offset then buffer i else bytes[i - offset]?.getD (buffer i)

/-- So many bytes of a buffer. -/
def fetch (buffer : Nat → UInt8) (offset length : Nat) : Bytes := (List.range length).map fun i => buffer (offset + i)

theorem put_append (buffer : Nat → UInt8) (offset : Nat) (one two : Bytes) :
    put (put buffer offset one) (offset + one.length) two = put buffer offset (one ++ two) := by
  funext i
  unfold put
  by_cases before : i < offset
  · have within : i < offset + one.length := by omega
    simp only [before, within, if_true]
  · by_cases inOne : i - offset < one.length
    · have within : i < offset + one.length := by omega
      simp only [before, within, if_true, if_false, List.getElem?_append_left inOne]
    · have out : ¬ i < offset + one.length := by omega
      have past : one[i - offset]? = none := List.getElem?_eq_none (not_lt.mp inOne)
      simp only [before, out, if_false, List.getElem?_append_right (not_lt.mp inOne), past, Option.getD_none, Nat.sub_add_eq]

/-- What lies inside what was put. -/
theorem fetch_put (buffer : Nat → UInt8) (offset : Nat) (before bytes after : Bytes) :
    fetch (put buffer offset (before ++ (bytes ++ after))) (offset + before.length) bytes.length = bytes := by
  apply List.ext_getElem?
  intro i
  unfold fetch
  rw [List.getElem?_map]
  by_cases within : i < bytes.length
  · have place : offset + before.length + i - offset = before.length + i := by omega
    rw [List.getElem?_range within, Option.map_some, put, if_neg (by omega), place,
      List.getElem?_append_right (Nat.le_add_right _ _), Nat.add_sub_cancel_left, List.getElem?_append_left within,
      List.getElem?_eq_getElem within, Option.getD_some]
  · have past : (List.range bytes.length)[i]? = none := by
      rw [List.getElem?_eq_none_iff, List.length_range]
      exact not_lt.mp within
    rw [past, List.getElem?_eq_none (not_lt.mp within)]
    rfl

/-! ## The two functions -/

/-- A C string: its characters, up to the terminator. -/
structure CString where
  chars : Bytes
  text : ∀ c ∈ chars, c ≠ 0

/-- `tt_MAX_STRING_LENGTH`. -/
def maxStringLength : Nat := 65535

structure Encoded where
  buffer : Nat → UInt8
  tail : BitVec 32
  ok : Bool

/-- `str_len` of `tt_encode_string()`, the terminator counted. -/
def CString.strLen (str : CString) : Nat := min str.chars.length maxStringLength + 1

/-- `tt_encode_string()`: nothing for a null pointer. -/
def encodeString (sender : ByteOrder) (buffer : Nat → UInt8) (tail bufferSize : BitVec 32) : Option CString → Encoded
  | none => ⟨buffer, tail, false⟩
  | some str =>
    if bufferSize.toNat ≤ tail.toNat + 2 + str.strLen then ⟨buffer, tail, false⟩
    else
      let buffer := put buffer tail.toNat (sender.store 2 (str.strLen % 2 ^ 16))
      let tail := tail + 2
      ⟨put buffer tail.toNat ((str.chars ++ [0]).take str.strLen), tail + BitVec.ofNat 32 str.strLen, true⟩

/-- What `tt_decode_string()` leaves in its arguments: `str` is where the characters start, if it succeeds. -/
structure DecodedString where
  head : BitVec 32
  strLen : Option Nat
  str : Option Nat
  deriving DecidableEq, Repr

/-- `tt_decode_string()`. -/
def decodeString (host : ByteOrder) (buffer : Nat → UInt8) (head tail : BitVec 32) (reverse : Bool) : DecodedString :=
  if tail.toNat < head.toNat + 2 then ⟨head, none, none⟩
  else
    let rawLen := host.load (fetch buffer head.toNat 2)
    let strLen := if reverse then swap 2 rawLen else rawLen
    let head := head + 2
    if tail < head + BitVec.ofNat 32 strLen then ⟨head, some strLen, none⟩
    else if strLen = 0 ∨ buffer (head + BitVec.ofNat 32 strLen - 1).toNat ≠ 0 then ⟨head, some strLen, none⟩
    else ⟨head + BitVec.ofNat 32 strLen, some strLen, some head.toNat⟩

/-! ## The round trip -/

/-- The decoder gives back the string that starts at `start`, terminator and all. -/
structure GivesBack (buffer : Nat → UInt8) (decoded : DecodedString) (str : CString) (tail : BitVec 32) : Prop where
  length : decoded.strLen = some (str.chars.length + 1)
  start : decoded.str = some (decoded.head.toNat - (str.chars.length + 1))
  chars : fetch buffer (decoded.head.toNat - (str.chars.length + 1)) str.chars.length = str.chars
  terminator : buffer (decoded.head.toNat - 1) = 0
  consumed : decoded.head = tail

/-- An encoder that succeeds is read back by any host, and one that fails changes nothing. -/
structure RoundTrips (sender : ByteOrder) (buffer : Nat → UInt8) (tail bufferSize : BitVec 32) (str : CString) : Prop where
  back : (encodeString sender buffer tail bufferSize (some str)).ok = true →
    ∀ (host : ByteOrder) (limit : BitVec 32), (encodeString sender buffer tail bufferSize (some str)).tail ≤ limit →
      GivesBack (encodeString sender buffer tail bufferSize (some str)).buffer
        (decodeString host (encodeString sender buffer tail bufferSize (some str)).buffer tail limit (host ≠ sender)) str
        (encodeString sender buffer tail bufferSize (some str)).tail
  untouched : (encodeString sender buffer tail bufferSize (some str)).ok = false →
    (encodeString sender buffer tail bufferSize (some str)).buffer = buffer ∧
      (encodeString sender buffer tail bufferSize (some str)).tail = tail

variable {sender : ByteOrder} {buffer : Nat → UInt8} {tail bufferSize : BitVec 32} {str : CString}

theorem encodeString_refuses (small : bufferSize.toNat ≤ tail.toNat + 2 + str.strLen) :
    encodeString sender buffer tail bufferSize (some str) = ⟨buffer, tail, false⟩ := if_pos small

/-- The record as it lies in the buffer. -/
theorem encodeString_takes (room : tail.toNat + 2 + str.strLen < bufferSize.toNat) :
    encodeString sender buffer tail bufferSize (some str) =
      ⟨put buffer tail.toNat (sender.store 2 (str.strLen % 2 ^ 16) ++ (str.chars ++ [0]).take str.strLen),
        BitVec.ofNat 32 (tail.toNat + 2 + str.strLen), true⟩ := by
  have small := bufferSize.isLt
  have next : (tail + 2).toNat = tail.toNat + (sender.store 2 (str.strLen % 2 ^ 16)).length := by
    rw [ByteOrder.store_length]
    bv_omega
  have last : tail + 2 + BitVec.ofNat 32 str.strLen = BitVec.ofNat 32 (tail.toNat + 2 + str.strLen) := by
    bv_omega
  unfold encodeString
  dsimp only
  rw [if_neg (by omega), next, put_append, last]

/-- What the decoder reads as the length of a record. -/
theorem rawLen_put (host : ByteOrder) (offset n : Nat) (bytes : Bytes) :
    (if host ≠ sender then swap 2 (host.load (fetch (put buffer offset (sender.store 2 (n % 2 ^ 16) ++ bytes)) offset 2))
      else host.load (fetch (put buffer offset (sender.store 2 (n % 2 ^ 16) ++ bytes)) offset 2)) = n % 2 ^ 16 := by
  have read := fetch_put buffer offset [] (sender.store 2 (n % 2 ^ 16)) bytes
  rw [List.nil_append, List.length_nil, Nat.add_zero, ByteOrder.store_length] at read
  rw [read]
  have whole : n % 2 ^ 16 % 256 ^ 2 = n % 2 ^ 16 := Nat.mod_eq_of_lt (Nat.mod_lt _ (by decide))
  by_cases other : host ≠ sender
  · rw [if_pos other, ByteOrder.swap_load_store other, whole]
  · rw [if_neg other, not_not.mp other, ByteOrder.load_store, whole]

theorem strLen_short (short : str.chars.length < maxStringLength) : str.strLen = str.chars.length + 1 := by
  unfold CString.strLen
  rw [Nat.min_eq_left short.le]

theorem givesBack_short (short : str.chars.length < maxStringLength)
    (room : tail.toNat + 2 + str.strLen < bufferSize.toNat) (host : ByteOrder) {limit : BitVec 32}
    (within : BitVec.ofNat 32 (tail.toNat + 2 + str.strLen) ≤ limit) :
    GivesBack (put buffer tail.toNat (sender.store 2 (str.strLen % 2 ^ 16) ++ (str.chars ++ [0]).take str.strLen))
      (decodeString host
        (put buffer tail.toNat (sender.store 2 (str.strLen % 2 ^ 16) ++ (str.chars ++ [0]).take str.strLen)) tail limit
        (host ≠ sender)) str (BitVec.ofNat 32 (tail.toNat + 2 + str.strLen)) := by
  have small := bufferSize.isLt
  have limited := limit.isLt
  have length := strLen_short short
  have whole : (str.chars ++ [0]).take str.strLen = str.chars ++ [0] := by
    apply List.take_of_length_le
    rw [List.length_append, List.length_singleton, length]
  have narrow : str.strLen % 2 ^ 16 = str.strLen := by
    apply Nat.mod_eq_of_lt
    unfold maxStringLength at short
    omega
  have raw := @rawLen_put sender buffer host tail.toNat str.strLen (str.chars ++ [0])
  have chars := fetch_put buffer tail.toNat (sender.store 2 (str.strLen % 2 ^ 16)) str.chars [0]
  have ends := fetch_put buffer tail.toNat (sender.store 2 (str.strLen % 2 ^ 16) ++ str.chars) [0] []
  rw [List.append_nil, List.append_assoc, List.length_append, ByteOrder.store_length] at ends
  rw [ByteOrder.store_length] at chars
  rw [whole]
  generalize put buffer tail.toNat (sender.store 2 (str.strLen % 2 ^ 16) ++ (str.chars ++ [0])) = written at *
  have zero : written (tail.toNat + (2 + str.chars.length)) = 0 := by
    have first : written (tail.toNat + (2 + str.chars.length) + 0) = 0 := List.head_eq_of_cons_eq ends
    exact first
  have far : (BitVec.ofNat 32 (tail.toNat + 2 + str.strLen)).toNat = tail.toNat + 2 + str.strLen :=
    Nat.mod_eq_of_lt (by omega)
  have reach : tail.toNat + 2 + str.strLen ≤ limit.toNat := by
    rw [← far]
    exact within
  have next : tail + 2 + BitVec.ofNat 32 str.strLen = BitVec.ofNat 32 (tail.toNat + 2 + str.strLen) := by bv_omega
  have second : (tail + 2).toNat = tail.toNat + 2 := by
    rw [BitVec.toNat_add]
    exact Nat.mod_eq_of_lt (by change tail.toNat + 2 < 2 ^ 32; omega)
  have inside : ¬ limit < BitVec.ofNat 32 (tail.toNat + 2 + str.strLen) := by
    rw [BitVec.lt_def, far]
    omega
  have lastAt : (BitVec.ofNat 32 (tail.toNat + 2 + str.strLen) - 1).toNat = tail.toNat + (2 + str.chars.length) := by
    bv_omega
  have decoded : decodeString host written tail limit (host ≠ sender) =
      ⟨BitVec.ofNat 32 (tail.toNat + 2 + str.strLen), some str.strLen, some (tail + 2).toNat⟩ := by
    unfold decodeString
    rw [narrow] at raw
    dsimp only
    simp only [decide_eq_true_eq]
    rw [raw, if_neg (by omega), next, if_neg inside, if_neg]
    rintro (empty | unended)
    · omega
    · rw [lastAt] at unended
      exact unended zero
  have start : (BitVec.ofNat 32 (tail.toNat + 2 + str.strLen)).toNat - (str.chars.length + 1) = tail.toNat + 2 := by
    omega
  rw [decoded]
  refine ⟨by rw [length], ?_, ?_, ?_, rfl⟩
  · rw [start, second]
  · rw [start]
    exact chars
  · rw [far]
    have place : tail.toNat + 2 + str.strLen - 1 = tail.toNat + (2 + str.chars.length) := by omega
    rw [place]
    exact zero

/-- The length of a string that has to be cut comes out as zero. -/
theorem strLen_long (long : maxStringLength ≤ str.chars.length) : str.strLen = 2 ^ 16 := by
  unfold CString.strLen
  rw [Nat.min_eq_right long]
  rfl

theorem decodeString_long (long : maxStringLength ≤ str.chars.length) (offset : BitVec 32) (limit : BitVec 32)
    (host : ByteOrder) (bytes : Bytes) :
    (decodeString host (put buffer offset.toNat (sender.store 2 (str.strLen % 2 ^ 16) ++ bytes)) offset limit
      (host ≠ sender)).str = none := by
  have raw := @rawLen_put sender buffer host offset.toNat str.strLen bytes
  have zero : str.strLen % 2 ^ 16 = 0 := by rw [strLen_long long, Nat.mod_self]
  unfold decodeString
  dsimp only
  simp only [decide_eq_true_eq]
  rw [raw, zero]
  split
  · rfl
  · split
    · rfl
    · rw [if_pos (.inl rfl)]

theorem not_roundTrips_long (long : maxStringLength ≤ str.chars.length)
    (room : tail.toNat + 2 + 2 ^ 16 < bufferSize.toNat) : ¬ RoundTrips sender buffer tail bufferSize str := by
  intro trips
  have takes := @encodeString_takes sender buffer tail bufferSize str (by rw [strLen_long long]; exact room)
  have back := trips.back (by rw [takes]) sender (encodeString sender buffer tail bufferSize (some str)).tail
    (BitVec.le_refl _)
  have start := back.start
  rw [takes] at start
  dsimp only at start
  rw [decodeString_long long] at start
  exact absurd start (by simp)

theorem roundTrips_refused (small : bufferSize.toNat ≤ tail.toNat + 2 + str.strLen) :
    RoundTrips sender buffer tail bufferSize str := by
  have refuses := @encodeString_refuses sender buffer tail bufferSize str small
  constructor
  · intro ok
    rw [refuses] at ok
    exact absurd ok (by simp)
  · intro _
    rw [refuses]
    exact ⟨rfl, rfl⟩

/-- A string comes back, or changes nothing, unless it has 65535 characters or more and the buffer room for its cut form. -/
theorem roundTrips_iff (sender : ByteOrder) (buffer : Nat → UInt8) (tail bufferSize : BitVec 32) (str : CString) :
    RoundTrips sender buffer tail bufferSize str ↔
      str.chars.length < maxStringLength ∨ bufferSize.toNat ≤ tail.toNat + 2 + 2 ^ 16 := by
  constructor
  · intro trips
    by_contra neither
    rw [not_or, not_lt, not_le] at neither
    exact not_roundTrips_long neither.1 neither.2 trips
  · intro either
    by_cases small : bufferSize.toNat ≤ tail.toNat + 2 + str.strLen
    · exact roundTrips_refused small
    · have room := not_le.mp small
      have short : str.chars.length < maxStringLength := by
        rcases either with short | tight
        · exact short
        · by_contra long
          rw [strLen_long (not_lt.mp long)] at room
          omega
      have takes := @encodeString_takes sender buffer tail bufferSize str room
      constructor
      · intro _ host limit within
        rw [takes] at within ⊢
        exact givesBack_short short room host within
      · intro failed
        rw [takes] at failed
        exact absurd failed (by simp)

/-- 65535 letters. -/
def longText : Bytes := List.replicate 65535 97

theorem longText_text : ∀ c ∈ longText, c ≠ 0 := by
  intro c mem
  rw [List.eq_of_mem_replicate mem]
  decide

def longString : CString := ⟨longText, longText_text⟩

/-- The encoder says that it took them, with a length of zero. -/
theorem longString_lost : ¬ RoundTrips .little (fun _ => 0) 0 65600 longString := by
  apply not_roundTrips_long
  · exact Nat.le_of_eq (List.length_replicate).symm
  · decide

end Text

end Tickle
