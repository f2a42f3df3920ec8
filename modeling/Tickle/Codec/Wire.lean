import Tickle.Cursor
import Tickle.Tx.Walk

/-! # Message types and their wire form

The generator's own picture of a message type (`WireStruct`), what it works out about its layout, and
the CDR-4 form every codec of the repository writes: each field aligned from the start of the message it
is in, a nested message from its own start, a count or a length in front of what varies. `WireStruct.image` is that
form as one function; the codecs are measured against it.
-/

namespace Tickle

open Cursor

namespace ByteOrder

/-- An integer of `w` bytes in memory. -/
def store (order : ByteOrder) (w n : Nat) : Bytes :=
  match order with
  | .little => octets w n
  | .big => (octets w n).reverse

/-- What a load of these bytes gives. -/
def load (order : ByteOrder) (bytes : Bytes) : Nat :=
  match order with
  | .little => value bytes
  | .big => value bytes.reverse

@[simp] theorem store_length (order : ByteOrder) (w n : Nat) : (order.store w n).length = w := by
  cases order with
  | little => exact octets_length w n
  | big =>
    change (octets w n).reverse.length = w
    rw [List.length_reverse, octets_length]

theorem load_store (order : ByteOrder) (w n : Nat) : order.load (order.store w n) = n % 256 ^ w := by
  cases order with
  | little => exact value_octets w n
  | big =>
    change value (octets w n).reverse.reverse = n % 256 ^ w
    rw [List.reverse_reverse, value_octets]

/-- The other host's integer, loaded here and swapped. -/
theorem swap_load_store {host sender : ByteOrder} (other : host ≠ sender) (w n : Nat) :
    swap w (host.load (sender.store w n)) = n % 256 ^ w := by
  have width : (octets w n).reverse.length = w := by
    rw [List.length_reverse, octets_length]
  have swapped : swap w (value (octets w n).reverse) = n % 256 ^ w := by
    rw [swap_value width, List.reverse_reverse, value_octets]
  cases host <;> cases sender
  · exact absurd rfl other
  · exact swapped
  · exact swapped
  · exact absurd rfl other

/-- A single byte has no order. -/
theorem load_store_byte (host sender : ByteOrder) (n : Nat) : host.load (sender.store 1 n) = n % 256 ^ 1 := by
  have whole := value_octets 1 n
  cases host <;> cases sender <;> exact whole

end ByteOrder

namespace TypeSupport

/-- The keys of `SCALAR_SIZE`. -/
inductive ScalarType where
  | bool | byte | char | int8 | uint8 | int16 | uint16 | int32 | uint32 | float32 | int64 | uint64 | float64
  deriving DecidableEq, Repr

/-- `SCALAR_SIZE`. -/
def ScalarType.size : ScalarType → Nat
  | .bool | .byte | .char | .int8 | .uint8 => 1
  | .int16 | .uint16 => 2
  | .int32 | .uint32 | .float32 => 4
  | .int64 | .uint64 | .float64 => 8

/-- `SCALAR_ALIGN`. -/
def ScalarType.align (t : ScalarType) : Nat := min t.size 4

/-- `WireField.capacity_source`. -/
inductive CapacitySource where
  | file | annotation | bounded | auto
  deriving DecidableEq, Repr

structure Capacity where
  max : Nat
  source : CapacitySource
  deriving DecidableEq, Repr

/-- `WireField.array_mode`, with the `array_size` or the `capacity` it comes with. -/
inductive ArrayMode where
  | fixed (arraySize : Nat)
  | varying (capacity : Capacity)
  deriving DecidableEq, Repr

mutual

/-- `model.WireField`, by its `kind`. Names, defaults and comments are not on the wire. -/
inductive WireField where
  | scalar (t : ScalarType)
  | string (capacity : Option Capacity)
  | nested (s : WireStruct)
  | array (mode : ArrayMode) (element : Element)

/-- `WireField.array_element_kind`. A string element has no capacity of its own. -/
inductive Element where
  | scalar (t : ScalarType)
  | string
  | nested (s : WireStruct)

/-- `model.WireStruct`: its fields. -/
inductive WireStruct where
  | nil
  | cons (f : WireField) (rest : WireStruct)

end

/-- `STRING_LEN_SIZE` and `ARRAY_COUNT_SIZE`, each its own alignment. -/
def countSize : Nat := 2

/-- `tt_MAX_STRING_LENGTH`: the terminating NUL is counted. -/
def maxStringLength : Nat := 65535

/-! ## Layout -/

mutual

/-- `WireField.wire_align`. -/
def WireField.wireAlign : WireField → Nat
  | .scalar t => t.align
  | .string _ => countSize
  | .nested s => s.selfAlign
  | .array (.fixed _) e => e.align
  | .array (.varying _) _ => countSize

/-- `WireField.element_align`. -/
def Element.align : Element → Nat
  | .scalar t => t.align
  | .string => countSize
  | .nested s => s.selfAlign

/-- `struct_self_align`. -/
def WireStruct.selfAlign : WireStruct → Nat
  | .nil => 1
  | .cons f rest => max f.wireAlign rest.selfAlign

end

mutual

/-- `WireField.wire_size`, where the type alone tells it. -/
def WireField.wireSize : WireField → Option Nat
  | .scalar t => some t.size
  | .string _ => none
  | .nested s => s.endOffset 0
  | .array (.fixed n) (.scalar t) => some (n * t.size)
  | .array (.fixed n) (.nested s) =>
    (s.endOffset 0).map fun k => if n = 0 then 0 else (n - 1) * alignUp k s.selfAlign + k
  | .array (.fixed _) .string => none
  | .array (.varying _) _ => none

/-- The offset `plan_fields` ends with from `offset` on, `none` behind a field whose size varies. -/
def WireStruct.endOffset : WireStruct → Nat → Option Nat
  | .nil, offset => some offset
  | .cons f rest, offset =>
    match f.wireSize with
    | none => none
    | some k => rest.endOffset (alignUp offset f.wireAlign + k)

end

/-- `WireStruct.wire_size` as `layout.compute` fills it in, `none` where `is_fixed_size` is false. -/
def WireStruct.wireSize (s : WireStruct) : Option Nat := s.endOffset 0

/-- `FieldPlan.static_padding` of a field at the offset `plan_fields` knows, if it does. -/
def WireField.staticPadding (f : WireField) (offset : Option Nat) : Option Nat :=
  offset.map fun o => alignUp o f.wireAlign - o

/-- The offset `plan_fields` goes on with behind the field. -/
def WireField.nextOffset (f : WireField) (offset : Option Nat) : Option Nat :=
  match offset, f.wireSize with
  | some o, some k => some (alignUp o f.wireAlign + k)
  | _, _ => none

/-! ## Values -/

/-- A C string's bytes up to its NUL, in a `char[bound + 1]` where there is a bound. -/
structure Text (bound : Option Nat) where
  bytes : Bytes
  noNul : (0 : UInt8) ∉ bytes
  fits : ∀ n ∈ bound, bytes.length ≤ n
  deriving DecidableEq

/-- The bits of an integer or float of `w` bytes. -/
abbrev Word (w : Nat) := Fin (256 ^ w)

/-- The member, or the two members, an array field is declared as. -/
def ArrayMode.Of (α : Type) : ArrayMode → Type
  | .fixed n => Exactly α n
  | .varying c => {l : List α // l.length ≤ c.max ∧ l.length < 256 ^ 2}

def ArrayMode.elements {α : Type} : {m : ArrayMode} → m.Of α → List α
  | .fixed _, v => v.1
  | .varying _, v => v.1

mutual

/-- What the field's member in the generated struct holds. A plain string is a `char*`, which may be NULL. -/
def WireField.Val : WireField → Type
  | .scalar t => Word t.size
  | .string none => Option (Text none)
  | .string (some c) => Text (some c.max)
  | .nested s => s.Val
  | .array m e => m.Of e.Val

def Element.Val : Element → Type
  | .scalar t => Word t.size
  | .string => Option (Text none)
  | .nested s => s.Val

/-- The generated struct. -/
def WireStruct.Val : WireStruct → Type
  | .nil => Unit
  | .cons f rest => f.Val × rest.Val

end

/-! ## The form on the wire -/

/-- A string: its length with the NUL, its bytes, the NUL and padding to 4. -/
def textImage (order : ByteOrder) (bytes : Bytes) : Nat → Bytes :=
  andThen (fun _ => order.store 2 (bytes.length + 1))
    (andThen (fun _ => bytes ++ [0]) fun cursor => zeros (padding cursor 4))

/-- A `char*`; NULL has no form. -/
def pointerImage (order : ByteOrder) (v : Option (Text none)) : Nat → Bytes :=
  match v with
  | none => fun _ => []
  | some t => textImage order t.bytes

/-- What stands in front of the elements: nothing, or their count and the padding to them. -/
def headImage (order : ByteOrder) (mode : ArrayMode) (count align : Nat) : Nat → Bytes :=
  match mode with
  | .fixed _ => fun _ => []
  | .varying _ => andThen (fun _ => order.store 2 count) fun cursor => zeros (padding cursor align)

/-- The gap in front of a nested element. -/
def gapImage (align : Nat) (first : Bool) : Nat → Bytes :=
  fun cursor => if first then [] else zeros (padding cursor align)

/-- `element_align` where elements are aligned behind the count: a string's own rule makes that needless. -/
def Element.headAlign : Element → Nat
  | .scalar t => t.align
  | .string => 1
  | .nested s => s.selfAlign

mutual

def WireField.image (order : ByteOrder) : (f : WireField) → f.Val → Nat → Bytes
  | .scalar t, v => fun _ => order.store t.size v.val
  | .string none, v => pointerImage order v
  | .string (some _), v => textImage order v.bytes
  | .nested s, v => fun _ => s.image order v 0
  | .array m e, v => andThen (headImage order m (ArrayMode.elements v).length e.headAlign)
      (e.image order (ArrayMode.elements v))

/-- Elements one behind another. -/
def Element.image (order : ByteOrder) : (e : Element) → List e.Val → Nat → Bytes
  | .scalar t, l => fun _ => l.flatMap fun v => order.store t.size v.val
  | .string, l => imageEach (fun _ v => pointerImage order v) true l
  | .nested s, l => imageEach (fun first v => andThen (gapImage s.selfAlign first) fun _ => s.image order v 0) true l

def WireStruct.image (order : ByteOrder) : (s : WireStruct) → s.Val → Nat → Bytes
  | .nil, _ => fun _ => []
  | .cons f rest, v => andThen (fun cursor => zeros (padding cursor f.wireAlign))
      (andThen (f.image order v.1) (rest.image order v.2))

end

end TypeSupport

end Tickle
