import Tickle.Codec.Places
import Tickle.Overlay

/-! # In-place access

`encode_inplace` hands out the generated struct's own memory as the payload, and `decode_inplace` a payload as the struct: for a
type of fixed size, and for one whose only variable field is a byte array at its end. `#pragma pack(4)` is to make the struct's memory its wire form.
The emitted assertion compares the two sizes alone, and rounds the wire's up first. A nested message ends in the struct with the
padding its alignment asks for and on the wire without; the field behind it then stands at two offsets.
-/

namespace Tickle

namespace TypeSupport

open Cursor Overlay

/-! ## The generated struct under `#pragma pack(4)` -/

/-- A `char*`. -/
def charPointerSize : Nat := 8

/-- The most `#pragma pack(4)` lets a member be aligned to. -/
def pack : Nat := 4

mutual

/-- The alignment of a field's member, or of the first of its two. -/
def WireField.packedAlign : WireField → Nat
  | .scalar t => t.align
  | .string none => min charPointerSize pack
  | .string (some _) => 1
  | .nested s => s.packedAlign
  | .array (.fixed _) e => e.packedAlign
  | .array (.varying _) _ => countSize

def Element.packedAlign : Element → Nat
  | .scalar t => t.align
  | .string => min charPointerSize pack
  | .nested s => s.packedAlign

/-- The alignment of a variable array's second member, its buffer. -/
def WireField.bufferAlign : WireField → Nat
  | .array (.varying _) e => e.packedAlign
  | .array (.fixed _) _ | .scalar _ | .string _ | .nested _ => 1

/-- `_Alignof` of the struct. -/
def WireStruct.packedAlign : WireStruct → Nat
  | .nil => 1
  | .cons f rest => max (max f.packedAlign f.bufferAlign) rest.packedAlign

end

mutual

/-- Where a field's members end, from a start that is aligned for the first. -/
def WireField.packedEnd : WireField → (start : Nat) → Nat
  | .scalar t, start => start + t.size
  | .string none, start => start + charPointerSize
  | .string (some k), start => start + (k.max + 1)
  | .nested s, start => start + s.packedSize
  | .array (.fixed n) e, start => start + n * e.packedSize
  | .array (.varying k) e, start => alignUp (start + countSize) e.packedAlign + k.max * e.packedSize

def Element.packedSize : Element → Nat
  | .scalar t => t.size
  | .string => charPointerSize
  | .nested s => s.packedSize

/-- `sizeof` of the struct. An empty message's has a byte of filler. -/
def WireStruct.packedSize : WireStruct → Nat
  | .nil => 1
  | .cons f rest =>
    alignUp (rest.packedEnd (f.packedEnd 0)) (max (max f.packedAlign f.bufferAlign) rest.packedAlign)

/-- Where the members end that follow `offset`. -/
def WireStruct.packedEnd : WireStruct → (offset : Nat) → Nat
  | .nil, offset => offset
  | .cons f rest, offset => rest.packedEnd (f.packedEnd (alignUp offset f.packedAlign))

end

/-- `padded_wire_size`, and with it the `_Static_assert` emitted for a type of fixed size. -/
def WireStruct.assertion (s : WireStruct) : Prop := ∀ k, s.wireSize = some k → s.packedSize = alignUp k s.selfAlign

/-! ## For which types the functions are emitted -/

def WireStruct.isEmpty : WireStruct → Bool
  | .nil => true
  | .cons _ _ => false

mutual

/-- `_nests_an_empty_struct`. -/
def WireField.nestsAnEmptyStruct : WireField → Bool
  | .nested s => s.isEmpty || s.nestsAnEmptyStruct
  | .array _ e => e.nestsAnEmptyStruct
  | .scalar _ | .string _ => false

def Element.nestsAnEmptyStruct : Element → Bool
  | .nested s => s.isEmpty || s.nestsAnEmptyStruct
  | .scalar _ | .string => false

def WireStruct.nestsAnEmptyStruct : WireStruct → Bool
  | .nil => false
  | .cons f rest => f.nestsAnEmptyStruct || rest.nestsAnEmptyStruct

end

/-- A variable array whose elements are of one byte. -/
def WireField.isByteArray : WireField → Bool
  | .array (.varying _) (.scalar t) => t.size == 1
  | .array (.varying _) .string | .array (.varying _) (.nested _) | .array (.fixed _) _ | .scalar _ | .string _ | .nested _ => false

/-- `static_offset` of the last field, where `prefix_array_field` finds it a byte array behind fields of fixed size. -/
def WireStruct.prefixOffset : WireStruct → (offset : Nat) → Option Nat
  | .nil, _ => none
  | .cons f .nil, offset => if f.isByteArray then some (alignUp offset f.wireAlign) else none
  | .cons f (.cons g rest), offset =>
    f.wireSize.bind fun k => (WireStruct.cons g rest).prefixOffset (alignUp offset f.wireAlign + k)

/-- `has_inplace` of `_struct_context`. -/
def WireStruct.hasInplace (s : WireStruct) : Bool :=
  !s.isEmpty && !s.nestsAnEmptyStruct && (s.wireSize.isSome || (s.prefixOffset 0).isSome)

/-! ## Where the members are -/

/-- How a layout places fields, messages in an array, and elements behind their count. -/
structure Arrangement where
  align : WireField → Nat
  behind : WireField → Nat → Nat
  stride : WireStruct → Nat

/-- `plan_fields`. -/
def wired : Arrangement :=
  ⟨WireField.wireAlign, fun f start => start + f.wireSize.getD 0, fun s => alignUp (s.wireSize.getD 0) s.selfAlign⟩

/-- C, with packing 4. -/
def packed : Arrangement := ⟨WireField.packedAlign, WireField.packedEnd, WireStruct.packedSize⟩

/-- Messages `stride` apart. -/
def membersEach {α : Type} (members : α → Nat → List (Nat × Bytes)) (stride : Nat) : List α → Nat → List (Nat × Bytes)
  | [], _ => []
  | a :: l, start => members a start ++ membersEach members stride l (start + stride)

section Members

variable (arranged : Arrangement) (host : ByteOrder)

mutual

/-- What a field's members hold, with their offsets, from `start` on. Scalars of an array are one piece. So are a byte array's count and
bytes, with no gap between them either way; no other variable array is ever accessed in place, and no string. -/
def WireField.members : (f : WireField) → f.Val → (start : Nat) → List (Nat × Bytes)
  | .scalar t, v, start => [(start, host.store t.size v.val)]
  | .string _, _, _ => []
  | .nested s, v, start => s.members v start 0
  | .array (.fixed _) e, v, start => e.members v.1 start
  | .array (.varying _) (.scalar t), v, start =>
    [(start, host.store 2 v.1.length ++ v.1.flatMap fun v : Word t.size => host.store t.size v.val)]
  | .array (.varying _) .string, _, _ => []
  | .array (.varying _) (.nested _), _, _ => []

def Element.members : (e : Element) → List e.Val → (start : Nat) → List (Nat × Bytes)
  | .scalar t, l, start => [(start, l.flatMap fun v : Word t.size => host.store t.size v.val)]
  | .string, _, _ => []
  | .nested s, l, start => membersEach (fun v start => s.members v start 0) (arranged.stride s) l start

/-- The members of a struct at `base`, of the fields behind `offset`. -/
def WireStruct.members : (s : WireStruct) → s.Val → (base offset : Nat) → List (Nat × Bytes)
  | .nil, _, _, _ => []
  | .cons f rest, v, base, offset => f.members v.1 (base + alignUp offset (arranged.align f)) ++
      rest.members v.2 base (arranged.behind f (alignUp offset (arranged.align f)))

end

end Members

def offsetsEach (offsets : Nat → List Nat) (stride : Nat) : (n start : Nat) → List Nat
  | 0, _ => []
  | n + 1, start => offsets start ++ offsetsEach offsets stride n (start + stride)

section Offsets

variable (arranged : Arrangement)

mutual

/-- The offsets alone: they are the type's. -/
def WireField.offsets : WireField → (start : Nat) → List Nat
  | .scalar _, start => [start]
  | .string _, _ => []
  | .nested s, start => s.offsets start 0
  | .array (.fixed n) e, start => e.offsets n start
  | .array (.varying _) (.scalar _), start => [start]
  | .array (.varying _) .string, _ => []
  | .array (.varying _) (.nested _), _ => []

def Element.offsets : Element → (n start : Nat) → List Nat
  | .scalar _, _, start => [start]
  | .string, _, _ => []
  | .nested s, n, start => offsetsEach (fun start => s.offsets start 0) (arranged.stride s) n start

def WireStruct.offsets : WireStruct → (base offset : Nat) → List Nat
  | .nil, _, _ => []
  | .cons f rest, base, offset => f.offsets (base + alignUp offset (arranged.align f)) ++
      rest.offsets base (arranged.behind f (alignUp offset (arranged.align f)))

end

end Offsets

/-- Every member of the C struct is at its offset on the wire. -/
def WireStruct.SameOffsets (s : WireStruct) : Prop := s.offsets packed 0 0 = s.offsets wired 0 0

/-! ## The functions -/

/-- The count a variable array's value comes with. -/
def WireField.count : (f : WireField) → f.Val → Nat
  | .array (.varying _) _, v => v.1.length
  | .array (.fixed _) _, _ => 0
  | .scalar _, _ => 0
  | .string _, _ => 0
  | .nested _, _ => 0

/-- The last field's count. -/
def WireStruct.lastCount : (s : WireStruct) → s.Val → Nat
  | .nil, _ => 0
  | .cons f .nil, v => f.count v.1
  | .cons _ (.cons g rest), v => (WireStruct.cons g rest).lastCount v.2

def WireField.capacity : WireField → Nat
  | .array (.varying k) _ => k.max
  | .array (.fixed _) _ | .scalar _ | .string _ | .nested _ => 0

def WireStruct.lastCapacity : WireStruct → Nat
  | .nil => 0
  | .cons f .nil => f.capacity
  | .cons _ (.cons g rest) => (WireStruct.cons g rest).lastCapacity

/-- What `emit_encode_inplace` and `emit_prefix_encode_inplace` return. -/
def WireStruct.inplaceLength (s : WireStruct) (v : s.Val) : Nat :=
  s.wireSize.getD ((s.prefixOffset 0).getD 0 + 2 + s.lastCount v)

/-- The bytes `encode_inplace` exposes: the struct's memory, with whatever its padding holds. -/
def WireStruct.encodeInplace (s : WireStruct) (host : ByteOrder) (fill : Nat → UInt8) (v : s.Val) : Bytes :=
  (List.range (s.inplaceLength v)).map (overlay fill (s.members packed host v 0 0))

/-- A member of `w` bytes. Past the end of the payload there is nothing to read. -/
def wordAt (host : ByteOrder) (payload : Bytes) (w start : Nat) : Option (Word w) :=
  if start + w ≤ payload.length then some (word w (host.load (bytesAt payload start w))) else none

def viewEach {α : Type} (view : Nat → Option α) (stride : Nat) : (n start : Nat) → Option (Exactly α n)
  | 0, _ => some ⟨[], List.length_nil⟩
  | n + 1, start => (view start).bind fun a => (viewEach view stride n (start + stride)).map (Exactly.cons a)

section View

variable (host : ByteOrder) (payload : Bytes)

mutual

/-- What the members of a payload read as the struct are. -/
def WireField.view : (f : WireField) → (start : Nat) → Option f.Val
  | .scalar t, start => wordAt host payload t.size start
  | .string none, _ => none
  | .string (some _), _ => none
  | .nested s, start => s.view start 0
  | .array (.fixed n) e, start => e.view n start
  | .array (.varying k) e, start => (wordAt host payload 2 start).bind fun count =>
      if within : count.val ≤ k.max then
        (e.view count.val (alignUp (start + countSize) e.packedAlign)).map fun l => counted l within count.isLt
      else none

def Element.view : (e : Element) → (n start : Nat) → Option (Exactly e.Val n)
  | .scalar t, n, start => viewEach (wordAt host payload t.size) t.size n start
  | .string, _, _ => none
  | .nested s, n, start => viewEach (fun start => s.view start 0) s.packedSize n start

def WireStruct.view : (s : WireStruct) → (base offset : Nat) → Option s.Val
  | .nil, _, _ => some ()
  | .cons f rest, base, offset => (f.view (base + alignUp offset f.packedAlign)).bind fun a =>
      (rest.view base (f.packedEnd (alignUp offset f.packedAlign))).map (Prod.mk a)

end

end View

/-- What `emit_prefix_decode_inplace` asks of a payload whose byte array is at `start`. -/
def prefixAccepts (host : ByteOrder) (payload : Bytes) (start capacity : Nat) : Prop :=
  start + 2 ≤ payload.length ∧ host.load (bytesAt payload start 2) ≤ capacity ∧
    start + 2 + host.load (bytesAt payload start 2) ≤ payload.length

instance (host : ByteOrder) (payload : Bytes) (start capacity : Nat) : Decidable (prefixAccepts host payload start capacity) :=
  inferInstanceAs (Decidable (_ ∧ _ ∧ _))

/-- The message behind the pointer `decode_inplace` returns; NULL is `none`. -/
def WireStruct.decodeInplace (s : WireStruct) (host : ByteOrder) (isNativeEndian : Bool) (payload : Bytes) : Option s.Val :=
  if isNativeEndian = false then none
  else s.wireSize.elim
    ((s.prefixOffset 0).bind fun start => if prefixAccepts host payload start s.lastCapacity then s.view host payload 0 0 else none)
    fun k => if payload.length < k then none else s.view host payload 0 0

/-! ## Members of a value -/

theorem membersEach_fst {α : Type} {members : α → Nat → List (Nat × Bytes)} {offsets : Nat → List Nat} {stride : Nat}
    (one : ∀ a start, (members a start).map Prod.fst = offsets start) (l : List α) (start : Nat) :
    (membersEach members stride l start).map Prod.fst = offsetsEach offsets stride l.length start := by
  induction l generalizing start with
  | nil => rfl
  | cons a l ih => simp only [membersEach, List.map_append, one, ih, List.length_cons, offsetsEach]

theorem membersEach_snd {α : Type} {members members' : α → Nat → List (Nat × Bytes)} {stride stride' : Nat}
    (one : ∀ a start start', (members a start).map Prod.snd = (members' a start').map Prod.snd) (l : List α) (start start' : Nat) :
    (membersEach members stride l start).map Prod.snd = (membersEach members' stride' l start').map Prod.snd := by
  induction l generalizing start start' with
  | nil => rfl
  | cons a l ih => simp only [membersEach, List.map_append, one a start start', ih (start + stride) (start' + stride')]

variable (host : ByteOrder)

section Arranged

variable (arranged arranged' : Arrangement)

mutual

theorem WireField.members_fst : (f : WireField) → (v : f.Val) → (start : Nat) →
    (f.members arranged host v start).map Prod.fst = f.offsets arranged start
  | .scalar _, _, _ => rfl
  | .string _, _, _ => rfl
  | .nested s, v, start => s.members_fst v start 0
  | .array (.fixed n) e, v, start => by
    change Exactly e.Val n at v
    have each := e.members_fst v.1 start
    rw [v.2] at each
    exact each
  | .array (.varying _) (.scalar _), _, _ => rfl
  | .array (.varying _) .string, _, _ => rfl
  | .array (.varying _) (.nested _), _, _ => rfl

theorem Element.members_fst : (e : Element) → (l : List e.Val) → (start : Nat) →
    (e.members arranged host l start).map Prod.fst = e.offsets arranged l.length start
  | .scalar _, _, _ => rfl
  | .string, _, _ => rfl
  | .nested s, l, start => membersEach_fst (fun v start => s.members_fst v start 0) l start

theorem WireStruct.members_fst : (s : WireStruct) → (v : s.Val) → (base offset : Nat) →
    (s.members arranged host v base offset).map Prod.fst = s.offsets arranged base offset
  | .nil, _, _, _ => rfl
  | .cons f rest, v, base, offset => by
    simp only [WireStruct.members, WireStruct.offsets, List.map_append]
    rw [f.members_fst v.1, rest.members_fst v.2]

end

mutual

/-- The pieces are the same in any layout. -/
theorem WireField.members_snd : (f : WireField) → (v : f.Val) → (start start' : Nat) →
    (f.members arranged host v start).map Prod.snd = (f.members arranged' host v start').map Prod.snd
  | .scalar _, _, _, _ => rfl
  | .string _, _, _, _ => rfl
  | .nested s, v, start, start' => s.members_snd v start 0 start' 0
  | .array (.fixed _) e, v, start, start' => e.members_snd v.1 start start'
  | .array (.varying _) (.scalar _), _, _, _ => rfl
  | .array (.varying _) .string, _, _, _ => rfl
  | .array (.varying _) (.nested _), _, _, _ => rfl

theorem Element.members_snd : (e : Element) → (l : List e.Val) → (start start' : Nat) →
    (e.members arranged host l start).map Prod.snd = (e.members arranged' host l start').map Prod.snd
  | .scalar _, _, _, _ => rfl
  | .string, _, _, _ => rfl
  | .nested s, l, start, start' => membersEach_snd (fun v start start' => s.members_snd v start 0 start' 0) l start start'

theorem WireStruct.members_snd : (s : WireStruct) → (v : s.Val) → (base offset base' offset' : Nat) →
    (s.members arranged host v base offset).map Prod.snd = (s.members arranged' host v base' offset').map Prod.snd
  | .nil, _, _, _, _, _ => rfl
  | .cons f rest, v, base, offset, base', offset' => by
    simp only [WireStruct.members, List.map_append]
    rw [f.members_snd v.1 _ (base' + alignUp offset' (arranged'.align f)),
      rest.members_snd v.2 _ _ base' (arranged'.behind f (alignUp offset' (arranged'.align f)))]

end

end Arranged

theorem eq_of_fst_snd {α β : Type} {l m : List (α × β)} (first : l.map Prod.fst = m.map Prod.fst)
    (second : l.map Prod.snd = m.map Prod.snd) : l = m := by
  rw [← List.zip_unzip l, ← List.zip_unzip m, List.unzip_eq_map, List.unzip_eq_map]
  simp only [first, second]

/-- With the offsets the same, so are the members. -/
theorem WireStruct.SameOffsets.members {s : WireStruct} (same : s.SameOffsets) (v : s.Val) :
    s.members packed host v 0 0 = s.members wired host v 0 0 := by
  apply eq_of_fst_snd
  · rw [s.members_fst, s.members_fst]
    exact same
  · exact s.members_snd host packed wired v 0 0 0 0

/-! ### In C -/

mutual

theorem WireField.packedAlign_pos : (f : WireField) → 0 < f.packedAlign
  | .scalar t => t.align_pos
  | .string none => by decide
  | .string (some _) => Nat.one_pos
  | .nested s => s.packedAlign_pos
  | .array (.fixed _) e => e.packedAlign_pos
  | .array (.varying _) _ => Nat.two_pos

theorem Element.packedAlign_pos : (e : Element) → 0 < e.packedAlign
  | .scalar t => t.align_pos
  | .string => by decide
  | .nested s => s.packedAlign_pos

theorem WireStruct.packedAlign_pos : (s : WireStruct) → 0 < s.packedAlign
  | .nil => Nat.one_pos
  | .cons f _ => lt_max_of_lt_left (lt_max_of_lt_left f.packedAlign_pos)

end

theorem ascends_membersEach {α : Type} {members : α → Nat → List (Nat × Bytes)} {stride : Nat}
    (one : ∀ a start, Ascends start (members a start) (start + stride)) (l : List α) (start : Nat) :
    Ascends start (membersEach members stride l start) (start + l.length * stride) := by
  induction l generalizing start with
  | nil => exact Nat.le_add_right _ _
  | cons a l ih =>
    have rest := ih (start + stride)
    rw [List.length_cons, Nat.succ_mul, Nat.add_comm (l.length * stride), ← Nat.add_assoc]
    exact (one a start).append rest

/-- A struct is no smaller than where its members end. -/
theorem WireStruct.packedEnd_le (s : WireStruct) : s.packedEnd 0 ≤ s.packedSize := by
  cases s with
  | nil => exact Nat.zero_le _
  | cons f rest =>
    have start : alignUp 0 f.packedAlign = 0 := alignUp_of_aligned f.packedAlign_pos (Nat.zero_mod _)
    simp only [WireStruct.packedEnd, WireStruct.packedSize, start]
    exact le_alignUp _ (lt_max_of_lt_left (lt_max_of_lt_left f.packedAlign_pos))

mutual

theorem WireField.ascends_packed : (f : WireField) → (v : f.Val) → (base start : Nat) →
    Ascends (base + start) (f.members packed host v (base + start)) (base + f.packedEnd start)
  | .scalar t, v, base, start => by
    refine ⟨Nat.le_refl _, ?_⟩
    change base + start + (host.store t.size v.val).length ≤ base + (start + t.size)
    rw [ByteOrder.store_length, Nat.add_assoc]
  | .string none, _, base, start => Nat.add_le_add_left (Nat.le_add_right start _) base
  | .string (some _), _, base, start => Nat.add_le_add_left (Nat.le_add_right start _) base
  | .nested s, v, base, start => by
    have inner := s.ascends_packed v (base + start) 0
    apply inner.weaken (Nat.le_refl _)
    rw [Nat.add_assoc]
    exact Nat.add_le_add_left (Nat.add_le_add_left s.packedEnd_le start) base
  | .array (.fixed n) e, v, base, start => by
    change Exactly e.Val n at v
    have each := e.ascends_packed v.1 (base + start)
    rw [v.2, Nat.add_assoc] at each
    exact each
  | .array (.varying k) (.scalar t), v, base, start => by
    change (ArrayMode.varying k).Of (Word t.size) at v
    refine ⟨Nat.le_refl _, ?_⟩
    have length : (host.store 2 v.1.length ++ v.1.flatMap fun v : Word t.size => host.store t.size v.val).length =
        2 + v.1.length * t.size := by
      rw [List.length_append, flatMap_store_length, ByteOrder.store_length]
    have after := le_alignUp (start + countSize) t.align_pos
    have few : v.1.length * t.size ≤ k.max * t.size := Nat.mul_le_mul_right t.size v.2.1
    change base + start + (host.store 2 v.1.length ++ v.1.flatMap fun v : Word t.size => host.store t.size v.val).length ≤
      base + (alignUp (start + countSize) t.align + k.max * t.size)
    rw [length]
    unfold countSize at *
    omega
  | .array (.varying k) .string, _, base, start => by
    change base + start ≤ base + (alignUp (start + countSize) Element.string.packedAlign + _)
    have after := le_alignUp (start + countSize) Element.string.packedAlign_pos
    omega
  | .array (.varying k) (.nested s), _, base, start => by
    change base + start ≤ base + (alignUp (start + countSize) (Element.nested s).packedAlign + _)
    have after := le_alignUp (start + countSize) (Element.nested s).packedAlign_pos
    omega

theorem Element.ascends_packed : (e : Element) → (l : List e.Val) → (start : Nat) →
    Ascends start (e.members packed host l start) (start + l.length * e.packedSize)
  | .scalar t, l, start => ⟨Nat.le_refl _, Nat.add_le_add_left (flatMap_store_length host (w := t.size) l).le start⟩
  | .string, _, _ => Nat.le_add_right _ _
  | .nested s, l, start => by
    apply ascends_membersEach
    intro a start
    exact (s.ascends_packed a start 0).weaken (Nat.le_refl _) (Nat.add_le_add_left s.packedEnd_le start)

theorem WireStruct.ascends_packed : (s : WireStruct) → (v : s.Val) → (base offset : Nat) →
    Ascends (base + offset) (s.members packed host v base offset) (base + s.packedEnd offset)
  | .nil, _, _, _ => Nat.le_refl _
  | .cons f rest, v, base, offset => by
    have here := f.ascends_packed v.1 base (alignUp offset f.packedAlign)
    have behind := rest.ascends_packed v.2 base (f.packedEnd (alignUp offset f.packedAlign))
    have after := Nat.add_le_add_left (le_alignUp offset f.packedAlign_pos) base
    exact (here.weaken after (Nat.le_refl _)).append behind

end

/-! ### On the wire -/

/-- The fields are of fixed size, but for a byte array at the end. -/
def WireStruct.Aliasable : WireStruct → Prop
  | .nil => True
  | .cons f rest => (∃ k, f.wireSize = some k) ∧ rest.Aliasable ∨ f.isByteArray = true ∧ rest = .nil

theorem WireStruct.aliasable_of_sized : (s : WireStruct) → {offset k : Nat} → s.endOffset offset = some k → s.Aliasable
  | .nil, _, _, _ => trivial
  | .cons f rest, offset, k, ends => by
    simp only [WireStruct.endOffset] at ends
    cases sized : f.wireSize with
    | none => simp [sized] at ends
    | some one =>
      simp only [sized] at ends
      exact .inl ⟨⟨one, sized⟩, rest.aliasable_of_sized ends⟩

theorem WireStruct.aliasable_of_prefixed : (s : WireStruct) → {offset start : Nat} → s.prefixOffset offset = some start → s.Aliasable
  | .nil, _, _, found => by cases found
  | .cons f .nil, _, _, found => by
    simp only [WireStruct.prefixOffset] at found
    split at found
    · next bytes => exact .inr ⟨bytes, rfl⟩
    · cases found
  | .cons f (.cons g rest), offset, start, found => by
    simp only [WireStruct.prefixOffset, Option.bind_eq_some_iff] at found
    obtain ⟨k, sized, found⟩ := found
    exact .inl ⟨⟨k, sized⟩, (WireStruct.cons g rest).aliasable_of_prefixed found⟩

theorem shows_zeros (k start : Nat) : Shows (0 : UInt8) (zeros k) start [] := shows_ground 0 k start

section Each

variable {α : Type} {align k : Nat} {body : α → Bytes} {members : α → Nat → List (Nat × Bytes)}

/-- Messages of one size behind another are a stride apart. -/
theorem shows_behind (positive : 0 < align) (sized : ∀ a, (body a).length = k) (one : ∀ a start, Shows 0 (body a) start (members a start))
    (l : List α) (base : Nat) {cursor : Nat} (aligned : cursor % align = 0) :
    Shows 0 (imageEach (fun first v => andThen (gapImage align first) fun _ => body v) false l (cursor + k))
      (base + (cursor + k)) (membersEach members (alignUp k align) l (base + (cursor + alignUp k align))) := by
  induction l generalizing cursor with
  | nil => exact shows_zeros 0 _
  | cons a l ih =>
    have stride := alignUp_eq k positive
    have next : (cursor + alignUp k align) % align = 0 := by
      rw [Nat.add_mod, aligned, stride, add_padding_mod k positive]
      simp
    have gap : gapImage align false (cursor + k) = zeros (padding k align) := by
      simp [gapImage, padding_add k aligned]
    have start : base + (cursor + k) + (zeros (padding k align)).length = base + (cursor + alignUp k align) := by
      rw [zeros_length]
      omega
    have message := one a (base + (cursor + alignUp k align))
    rw [← start] at message
    have front := (shows_zeros (padding k align) (base + (cursor + k))).append message
    have reach : base + (cursor + k) + (zeros (padding k align) ++ body a).length = base + (cursor + alignUp k align + k) := by
      rw [List.length_append, zeros_length, sized]
      omega
    have rest := ih next
    rw [← reach] at rest
    have whole := front.append rest
    have cursors : cursor + k + (zeros (padding k align) ++ body a).length = cursor + alignUp k align + k := by omega
    simp only [imageEach, andThen, gap, cursors, membersEach]
    rw [start] at whole
    simp only [List.nil_append, Nat.add_assoc] at whole ⊢
    exact whole

theorem shows_membersEach (positive : 0 < align) (sized : ∀ a, (body a).length = k)
    (one : ∀ a start, Shows 0 (body a) start (members a start)) (l : List α) (base : Nat) {cursor : Nat} (aligned : cursor % align = 0) :
    Shows 0 (imageEach (fun first v => andThen (gapImage align first) fun _ => body v) true l cursor) (base + cursor)
      (membersEach members (alignUp k align) l (base + cursor)) := by
  cases l with
  | nil => exact shows_zeros 0 _
  | cons a l =>
    have message := one a (base + cursor)
    have rest := shows_behind positive sized one l base aligned
    rw [← Nat.add_assoc, ← sized a] at rest
    have whole := message.append rest
    simp only [imageEach, andThen, gapImage, if_true, List.nil_append, membersEach, sized a, Nat.add_assoc] at whole ⊢
    exact whole

end Each

/-- A byte array is one piece, its image, wherever it starts. -/
theorem WireField.members_bytes (f : WireField) (bytes : f.isByteArray = true) (arranged : Arrangement) (v : f.Val) (cursor start : Nat) :
    f.members arranged host v start = [(start, f.image host v cursor)] := by
  cases f with
  | array mode element =>
    cases mode with
    | fixed n => simp [WireField.isByteArray] at bytes
    | varying k =>
      cases element with
      | scalar t =>
        change (ArrayMode.varying k).Of (Word t.size) at v
        have one : t.align = 1 := by
          simp only [WireField.isByteArray, beq_iff_eq] at bytes
          simp [ScalarType.align, bytes]
        change [(start, host.store 2 v.1.length ++ v.1.flatMap fun v : Word t.size => host.store t.size v.val)] =
          [(start, (host.store 2 v.1.length ++ zeros (padding (cursor + (host.store 2 v.1.length).length) t.align)) ++
            v.1.flatMap fun v : Word t.size => host.store t.size v.val)]
        rw [one, show padding (cursor + (host.store 2 v.1.length).length) 1 = 0 from Nat.mod_one _]
        simp [zeros]
      | string => simp [WireField.isByteArray] at bytes
      | nested s => simp [WireField.isByteArray] at bytes
  | scalar t => simp [WireField.isByteArray] at bytes
  | string k => simp [WireField.isByteArray] at bytes
  | nested s => simp [WireField.isByteArray] at bytes

mutual

theorem WireField.shows_wired : (f : WireField) → {k : Nat} → f.wireSize = some k → (v : f.Val) → (base cursor : Nat) →
    cursor % f.wireAlign = 0 → Shows 0 (f.image host v cursor) (base + cursor) (f.members wired host v (base + cursor))
  | .scalar _, _, _, _, _, _, _ => shows_piece 0 _ _
  | .string _, _, sized, _, _, _, _ => by simp [WireField.wireSize] at sized
  | .nested s, _, sized, v, base, cursor, _ => s.shows_wired (s.aliasable_of_sized sized) v (base + cursor) 0
  | .array (.fixed n) (.scalar t), _, _, v, base, cursor, _ => by
    change Exactly (Word t.size) n at v
    change Shows 0 (andThen (fun _ => []) (fun _ => v.1.flatMap fun v => host.store t.size v.val) cursor) _ _
    exact shows_piece 0 _ _
  | .array (.fixed n) (.nested s), k, sized, v, base, cursor, aligned => by
    change Exactly s.Val n at v
    simp only [WireField.wireSize, Option.map_eq_some_iff] at sized
    obtain ⟨one, size, -⟩ := sized
    have each : ∀ a : s.Val, (s.image host a 0).length = one := by
      intro a
      have ends := (s.image_endOffset host size a).1
      omega
    have stride : wired.stride s = alignUp one s.selfAlign := by
      change alignUp ((s.endOffset 0).getD 0) s.selfAlign = alignUp one s.selfAlign
      rw [size]
      rfl
    have whole := shows_membersEach s.selfAlign_pos each (fun a start => s.shows_wired (s.aliasable_of_sized size) a start 0) v.1 base aligned
    rw [← stride] at whole
    exact whole
  | .array (.fixed _) .string, _, sized, _, _, _, _ => by simp [WireField.wireSize] at sized
  | .array (.varying _) _, _, sized, _, _, _, _ => by simp [WireField.wireSize] at sized

theorem WireStruct.shows_wired : (s : WireStruct) → s.Aliasable → (v : s.Val) → (base offset : Nat) →
    Shows 0 (s.image host v offset) (base + offset) (s.members wired host v base offset)
  | .nil, _, _, _, _ => shows_zeros 0 _
  | .cons f rest, aliasable, v, base, offset => by
    have padded := alignUp_eq offset f.wireAlign_pos
    have start : base + offset + (zeros (padding offset f.wireAlign)).length = base + alignUp offset f.wireAlign := by
      rw [zeros_length]
      omega
    have cursor : offset + (zeros (padding offset f.wireAlign)).length = alignUp offset f.wireAlign := by
      rw [zeros_length]
      omega
    have gap := shows_zeros (padding offset f.wireAlign) (base + offset)
    have front : Shows 0 (f.image host v.1 (alignUp offset f.wireAlign) ++ rest.image host v.2 (alignUp offset f.wireAlign +
        (f.image host v.1 (alignUp offset f.wireAlign)).length)) (base + alignUp offset f.wireAlign)
        ((WireStruct.cons f rest).members wired host v base offset) := by
      rcases aliasable with ⟨⟨k, sized⟩, others⟩ | ⟨bytes, rfl⟩
      · have aligned := alignUp_mod offset f.wireAlign_pos
        have here := f.shows_wired sized v.1 base (alignUp offset f.wireAlign) aligned
        have length := (f.image_wireSize host sized v.1 _ aligned).1
        have behind := rest.shows_wired others v.2 base (alignUp offset f.wireAlign + k)
        rw [length]
        have next : wired.behind f (alignUp offset f.wireAlign) = alignUp offset f.wireAlign + k := by
          change _ + f.wireSize.getD 0 = _
          rw [sized]
          rfl
        have behind' : Shows 0 (rest.image host v.2 (alignUp offset f.wireAlign + k))
            (base + alignUp offset f.wireAlign + (f.image host v.1 (alignUp offset f.wireAlign)).length)
            (rest.members wired host v.2 base (wired.behind f (alignUp offset f.wireAlign))) := by
          rw [length, next, Nat.add_assoc]
          exact behind
        exact here.append behind'
      · have here := f.members_bytes host bytes wired v.1 (alignUp offset f.wireAlign) (base + alignUp offset f.wireAlign)
        have piece := (shows_piece 0 (f.image host v.1 (alignUp offset f.wireAlign)) (base + alignUp offset f.wireAlign)).append
          (shows_zeros 0 _)
        rw [← here] at piece
        exact piece
    rw [← start] at front
    have whole := gap.append front
    simp only [WireStruct.image, andThen, cursor]
    exact whole

end

/-! ### Two values that differ in every byte -/

mutual

/-- Every array has an element, as C asks of one. -/
def WireField.Dimensioned : WireField → Prop
  | .scalar _ => True
  | .string _ => True
  | .nested s => s.Dimensioned
  | .array (.fixed n) e => 0 < n ∧ e.Dimensioned
  | .array (.varying k) e => 0 < k.max ∧ e.Dimensioned

def Element.Dimensioned : Element → Prop
  | .scalar _ => True
  | .string => True
  | .nested s => s.Dimensioned

def WireStruct.Dimensioned : WireStruct → Prop
  | .nil => True
  | .cons f rest => f.Dimensioned ∧ rest.Dimensioned

end

/-- `w` bytes of 1 or of 0. -/
def everyByte (one : Bool) (w : Nat) : Word w := word w (value (List.replicate w (if one then 1 else 0)))

theorem single_within (α : Type) (a : α) (most : Nat) : (List.replicate (min 1 most) a).length ≤ most ∧
    (List.replicate (min 1 most) a).length < 256 ^ 2 := by
  rw [List.length_replicate]
  omega

mutual

/-- A value of nothing but such bytes, with one element in its variable arrays. -/
def WireField.uniform (one : Bool) : (f : WireField) → f.Val
  | .scalar t => everyByte one t.size
  | .string none => none
  | .string (some k) => emptyText (some k.max)
  | .nested s => s.uniform one
  | .array (.fixed n) e => ⟨List.replicate n (e.uniform one), List.length_replicate⟩
  | .array (.varying k) e => ⟨List.replicate (min 1 k.max) (e.uniform one), single_within e.Val (e.uniform one) k.max⟩

def Element.uniform (one : Bool) : (e : Element) → e.Val
  | .scalar t => everyByte one t.size
  | .string => none
  | .nested s => s.uniform one

def WireStruct.uniform (one : Bool) : (s : WireStruct) → s.Val
  | .nil => ()
  | .cons f rest => (f.uniform one, rest.uniform one)

end

theorem store_everyByte (one : Bool) (w : Nat) : host.store w (everyByte one w).val = List.replicate w (if one then 1 else 0) := by
  have bytes := value_lt (List.replicate w (if one then (1 : UInt8) else 0))
  rw [List.length_replicate] at bytes
  have plain : octets w (everyByte one w).val = List.replicate w (if one then 1 else 0) := by
    have back := octets_value (List.replicate w (if one then (1 : UInt8) else 0))
    rw [List.length_replicate] at back
    change octets w (value (List.replicate w (if one then 1 else 0)) % 256 ^ w) = _
    rw [Nat.mod_eq_of_lt bytes, back]
  cases host with
  | little => exact plain
  | big =>
    change (octets w (everyByte one w).val).reverse = _
    rw [plain, List.reverse_replicate]

theorem replicate_ne {w : Nat} (some_ : 0 < w) : List.replicate w (1 : UInt8) ≠ List.replicate w 0 := by
  intro same
  obtain ⟨k, rfl⟩ := Nat.exists_eq_succ_of_ne_zero some_.ne'
  rw [List.replicate_succ, List.replicate_succ, List.cons.injEq] at same
  exact absurd same.1 (by decide)

theorem flatMap_everyByte (one : Bool) (n w : Nat) :
    ((List.replicate n (everyByte one w)).flatMap fun v : Word w => host.store w v.val) =
      List.replicate (n * w) (if one then 1 else 0) := by
  induction n with
  | zero => simp
  | succ n ih =>
    rw [List.replicate_succ, List.flatMap_cons, ih, store_everyByte, List.replicate_append_replicate, Nat.succ_mul, Nat.add_comm w]

theorem alike_append {l m l' m' : List (Nat × Bytes)} (one : Alike l m) (two : Alike l' m') : Alike (l ++ l') (m ++ m') :=
  List.rel_append one two

theorem alike_piece {start : Nat} {x y : Bytes} (length : x.length = y.length) (differ : x ≠ y) : Alike [(start, x)] [(start, y)] :=
  List.Forall₂.cons ⟨rfl, length, differ⟩ List.Forall₂.nil

theorem alike_membersEach {α : Type} {members : α → Nat → List (Nat × Bytes)} {a b : α} {stride : Nat}
    (one : ∀ start, Alike (members a start) (members b start)) (n start : Nat) :
    Alike (membersEach members stride (List.replicate n a) start) (membersEach members stride (List.replicate n b) start) := by
  induction n generalizing start with
  | zero => exact List.Forall₂.nil
  | succ n ih => exact alike_append (one start) (ih (start + stride))

mutual

theorem WireField.uniform_alike (arranged : Arrangement) : (f : WireField) → f.Dimensioned → (start : Nat) →
    Alike (f.members arranged host (f.uniform true) start) (f.members arranged host (f.uniform false) start)
  | .scalar t, _, start => by
    have bytes : ∀ one, (WireField.scalar t).members arranged host ((WireField.scalar t).uniform one) start =
        [(start, List.replicate t.size (if one then 1 else 0))] := fun one =>
      congrArg (fun x => [(start, x)]) (store_everyByte host one t.size)
    rw [bytes, bytes]
    exact alike_piece (by simp) (replicate_ne t.size_pos)
  | .string none, _, _ => List.Forall₂.nil
  | .string (some _), _, _ => List.Forall₂.nil
  | .nested s, dimensioned, start => s.uniform_alike arranged dimensioned start 0
  | .array (.fixed n) e, dimensioned, start => e.uniform_alike arranged dimensioned.2 dimensioned.1 start
  | .array (.varying k) (.scalar t), dimensioned, start => by
    have count : min 1 k.max = 1 := Nat.min_eq_left dimensioned.1
    have bytes : ∀ one, (WireField.array (.varying k) (.scalar t)).members arranged host
        ((WireField.array (.varying k) (.scalar t)).uniform one) start =
        [(start, host.store 2 1 ++ List.replicate t.size (if one then 1 else 0))] := by
      intro one
      change [(start, host.store 2 (List.replicate (min 1 k.max) (everyByte one t.size)).length ++
        (List.replicate (min 1 k.max) (everyByte one t.size)).flatMap fun v : Word t.size => host.store t.size v.val)] = _
      rw [flatMap_everyByte, List.length_replicate, count, Nat.one_mul]
    rw [bytes, bytes]
    refine alike_piece (by simp) ?_
    intro same
    exact replicate_ne t.size_pos (List.append_cancel_left same)
  | .array (.varying _) .string, _, _ => List.Forall₂.nil
  | .array (.varying _) (.nested _), _, _ => List.Forall₂.nil

theorem Element.uniform_alike (arranged : Arrangement) : (e : Element) → e.Dimensioned → {n : Nat} → 0 < n → (start : Nat) →
    Alike (e.members arranged host (List.replicate n (e.uniform true)) start)
      (e.members arranged host (List.replicate n (e.uniform false)) start)
  | .scalar t, _, n, some_, start => by
    have bytes : ∀ one, (Element.scalar t).members arranged host (List.replicate n ((Element.scalar t).uniform one)) start =
        [(start, List.replicate (n * t.size) (if one then 1 else 0))] := fun one =>
      congrArg (fun x => [(start, x)]) (flatMap_everyByte host one n t.size)
    rw [bytes, bytes]
    exact alike_piece (by simp) (replicate_ne (Nat.mul_pos some_ t.size_pos))
  | .string, _, _, _, _ => List.Forall₂.nil
  | .nested s, dimensioned, n, _, start => alike_membersEach (fun start => s.uniform_alike arranged dimensioned start 0) n start

theorem WireStruct.uniform_alike (arranged : Arrangement) : (s : WireStruct) → s.Dimensioned → (base offset : Nat) →
    Alike (s.members arranged host (s.uniform true) base offset) (s.members arranged host (s.uniform false) base offset)
  | .nil, _, _, _ => List.Forall₂.nil
  | .cons f rest, dimensioned, base, _ =>
    alike_append (f.uniform_alike arranged dimensioned.1 _) (rest.uniform_alike arranged dimensioned.2 base _)

end

theorem WireStruct.lastCount_uniform : (s : WireStruct) → (one other : Bool) →
    s.lastCount (s.uniform one) = s.lastCount (s.uniform other)
  | .nil, _, _ => rfl
  | .cons f .nil, _, _ => by
    cases f with
    | array mode e =>
      cases mode with
      | fixed n => rfl
      | varying k =>
        change (List.replicate (min 1 k.max) _).length = (List.replicate (min 1 k.max) _).length
        rw [List.length_replicate, List.length_replicate]
    | scalar t => rfl
    | string k => rfl
    | nested s => rfl
  | .cons _ (.cons g rest), one, other => (WireStruct.cons g rest).lastCount_uniform one other

/-! ## Reading the members of a payload -/

/-- The payload has each piece at its offset. -/
def Has (payload : Bytes) (pieces : List (Nat × Bytes)) : Prop :=
  ∀ piece ∈ pieces, piece.1 + piece.2.length ≤ payload.length ∧ bytesAt payload piece.1 piece.2.length = piece.2

theorem Has.append {payload : Bytes} {pieces more : List (Nat × Bytes)} (has : Has payload (pieces ++ more)) :
    Has payload pieces ∧ Has payload more := List.forall_mem_append.mp has

/-- Two pieces of one. -/
theorem Has.split {payload : Bytes} {start : Nat} {x y : Bytes} (has : Has payload [(start, x ++ y)]) :
    Has payload [(start, x)] ∧ Has payload [(start + x.length, y)] := by
  obtain ⟨fits, bytes⟩ := has _ List.mem_cons_self
  simp only [List.length_append] at fits bytes
  have front : bytesAt payload start x.length = x := by
    have taken := congrArg (List.take x.length) bytes
    unfold bytesAt at taken ⊢
    rw [List.take_take, List.take_left' rfl, Nat.min_eq_left (Nat.le_add_right _ _)] at taken
    exact taken
  have back : bytesAt payload (start + x.length) y.length = y := by
    have dropped := congrArg (List.drop x.length) bytes
    unfold bytesAt at dropped ⊢
    rw [List.drop_take, List.drop_left' rfl, Nat.add_sub_cancel_left, List.drop_drop] at dropped
    exact dropped
  constructor
  · intro piece member
    cases List.mem_singleton.mp member
    exact ⟨by simp only; omega, front⟩
  · intro piece member
    cases List.mem_singleton.mp member
    exact ⟨by simp only; omega, back⟩

theorem wordAt_has {payload : Bytes} {w start : Nat} {v : Word w} (has : Has payload [(start, host.store w v.val)]) :
    wordAt host payload w start = some v := by
  obtain ⟨fits, bytes⟩ := has _ List.mem_cons_self
  simp only [ByteOrder.store_length] at fits bytes
  unfold wordAt
  rw [if_pos fits, bytes, ByteOrder.load_store, word_mod, word_val]

theorem viewEach_words {payload : Bytes} {w : Nat} {l : List (Word w)} {start : Nat}
    (has : Has payload [(start, l.flatMap fun v => host.store w v.val)]) :
    viewEach (wordAt host payload w) w l.length start = some ⟨l, rfl⟩ := by
  induction l generalizing start with
  | nil => rfl
  | cons v l ih =>
    rw [List.flatMap_cons] at has
    obtain ⟨here, behind⟩ := has.split
    rw [ByteOrder.store_length] at behind
    simp only [List.length_cons, viewEach, wordAt_has host here, ih behind, Option.bind_some, Option.map_some]
    rfl

theorem viewEach_has {α : Type} {payload : Bytes} {members : α → Nat → List (Nat × Bytes)} {view : Nat → Option α} {stride : Nat}
    (one : ∀ a start, Has payload (members a start) → view start = some a) {l : List α} {start : Nat}
    (has : Has payload (membersEach members stride l start)) : viewEach view stride l.length start = some ⟨l, rfl⟩ := by
  induction l generalizing start with
  | nil => rfl
  | cons a l ih =>
    obtain ⟨here, behind⟩ := has.append
    simp only [List.length_cons, viewEach, one a start here, ih behind, Option.bind_some, Option.map_some]
    rfl

/-- A byte array behind its count. -/
theorem view_bytes {payload : Bytes} {k : Capacity} {t : ScalarType} (byte : t.size = 1) {v : (ArrayMode.varying k).Of (Word t.size)}
    {start : Nat} (has : Has payload [(start, host.store 2 v.1.length ++ v.1.flatMap fun v : Word t.size => host.store t.size v.val)]) :
    (WireField.array (.varying k) (.scalar t)).view host payload start = some v := by
  obtain ⟨l, within, small⟩ := v
  obtain ⟨count, bytes⟩ := has.split
  rw [ByteOrder.store_length] at bytes
  have counted_ : wordAt host payload 2 start = some ⟨l.length, small⟩ := wordAt_has host (v := ⟨l.length, small⟩) count
  have words := viewEach_words host bytes
  have next : alignUp (start + countSize) t.align = start + 2 := by
    have one : t.align = 1 := by simp [ScalarType.align, byte]
    rw [one]
    exact alignUp_of_aligned Nat.one_pos (Nat.mod_one _)
  change (wordAt host payload 2 start).bind (fun count => if within : count.val ≤ k.max then
    (viewEach (wordAt host payload t.size) t.size count.val (alignUp (start + countSize) t.align)).map fun l => counted l within count.isLt
    else none) = some _
  rw [counted_, Option.bind_some, next]
  simp only [dif_pos within, words, Option.map_some]
  rfl

mutual

theorem WireField.view_has {payload : Bytes} : (f : WireField) → (∃ k, f.wireSize = some k) ∨ f.isByteArray = true →
    (v : f.Val) → {start : Nat} → Has payload (f.members packed host v start) → f.view host payload start = some v
  | .scalar _, _, _, _, has => wordAt_has host has
  | .string none, aliasable, _, _, _ => by simp [WireField.wireSize, WireField.isByteArray] at aliasable
  | .string (some _), aliasable, _, _, _ => by simp [WireField.wireSize, WireField.isByteArray] at aliasable
  | .nested s, aliasable, v, start, has => by
    rcases aliasable with ⟨k, sized⟩ | bytes
    · exact s.view_has (s.aliasable_of_sized sized) v has
    · simp [WireField.isByteArray] at bytes
  | .array (.fixed n) (.scalar t), _, v, start, has => by
    change Exactly (Word t.size) n at v
    obtain ⟨l, rfl⟩ := v
    exact viewEach_words host has
  | .array (.fixed n) (.nested s), aliasable, v, start, has => by
    change Exactly s.Val n at v
    obtain ⟨l, rfl⟩ := v
    rcases aliasable with ⟨k, sized⟩ | bytes
    · simp only [WireField.wireSize, Option.map_eq_some_iff] at sized
      obtain ⟨one, size, -⟩ := sized
      exact viewEach_has (fun a start has => s.view_has (s.aliasable_of_sized size) a has) has
    · simp [WireField.isByteArray] at bytes
  | .array (.fixed _) .string, aliasable, _, _, _ => by simp [WireField.wireSize, WireField.isByteArray] at aliasable
  | .array (.varying k) (.scalar t), aliasable, v, start, has => by
    have byte : t.size = 1 := by simpa [WireField.wireSize, WireField.isByteArray] using aliasable
    exact view_bytes host byte has
  | .array (.varying _) .string, aliasable, _, _, _ => by simp [WireField.wireSize, WireField.isByteArray] at aliasable
  | .array (.varying _) (.nested _), aliasable, _, _, _ => by simp [WireField.wireSize, WireField.isByteArray] at aliasable

theorem WireStruct.view_has {payload : Bytes} : (s : WireStruct) → s.Aliasable → (v : s.Val) → {base offset : Nat} →
    Has payload (s.members packed host v base offset) → s.view host payload base offset = some v
  | .nil, _, _, _, _, _ => rfl
  | .cons f rest, aliasable, v, base, offset, has => by
    obtain ⟨front, back⟩ := has.append
    have others : rest.Aliasable := by
      rcases aliasable with ⟨_, others⟩ | ⟨_, rfl⟩
      · exact others
      · trivial
    have here : f.view host payload (base + alignUp offset f.packedAlign) = some v.1 :=
      f.view_has (aliasable.imp And.left And.left) v.1 front
    have behind : rest.view host payload base (f.packedEnd (alignUp offset f.packedAlign)) = some v.2 := rest.view_has others v.2 back
    simp only [WireStruct.view, here, behind, Option.bind_some]
    rfl

end

/-! ## The length in front of the bytes -/

theorem WireField.image_bytes (f : WireField) (bytes : f.isByteArray = true) (v : f.Val) (cursor : Nat) :
    ∃ more, f.image host v cursor = host.store 2 (f.count v) ++ more ∧ more.length = f.count v ∧ f.count v ≤ f.capacity ∧
      f.count v < 256 ^ 2 := by
  cases f with
  | array mode element =>
    cases mode with
    | fixed n => simp [WireField.isByteArray] at bytes
    | varying k =>
      cases element with
      | scalar t =>
        have one := WireField.members_bytes host _ bytes packed v cursor 0
        change (ArrayMode.varying k).Of (Word t.size) at v
        simp only [WireField.isByteArray, beq_iff_eq] at bytes
        have image := (List.cons.inj one).1
        refine ⟨v.1.flatMap fun v : Word t.size => host.store t.size v.val, (congrArg Prod.snd image).symm, ?_, v.2.1, v.2.2⟩
        rw [flatMap_store_length]
        exact (congrArg (v.1.length * ·) bytes).trans (Nat.mul_one _)
      | string => simp [WireField.isByteArray] at bytes
      | nested s => simp [WireField.isByteArray] at bytes
  | scalar t => simp [WireField.isByteArray] at bytes
  | string k => simp [WireField.isByteArray] at bytes
  | nested s => simp [WireField.isByteArray] at bytes

/-- What `prefix_array_field` found, in a value. -/
structure WireStruct.Prefixed (s : WireStruct) (v : s.Val) (base offset start : Nat) : Prop where
  length : offset + (s.image host v offset).length = start + 2 + s.lastCount v
  fits : s.lastCount v ≤ s.lastCapacity
  small : s.lastCount v < 256 ^ 2
  piece : ∃ more, (base + start, host.store 2 (s.lastCount v) ++ more) ∈ s.members wired host v base offset

theorem WireStruct.prefixed_of : (s : WireStruct) → {offset start : Nat} → s.prefixOffset offset = some start → (v : s.Val) →
    (base : Nat) → s.Prefixed host v base offset start
  | .nil, _, _, found, _, _ => by cases found
  | .cons f .nil, offset, start, found, v, base => by
    simp only [WireStruct.prefixOffset] at found
    split at found
    · next bytes =>
      cases found
      obtain ⟨more, image, length, fits, small⟩ := f.image_bytes host bytes v.1 (alignUp offset f.wireAlign)
      have padded := alignUp_eq offset f.wireAlign_pos
      refine ⟨?_, fits, small, more, ?_⟩
      · simp only [WireStruct.image, andThen, List.length_append, zeros_length, ← padded, image, ByteOrder.store_length, length,
          List.length_nil, WireStruct.lastCount]
        omega
      · have one := f.members_bytes host bytes wired v.1 (alignUp offset f.wireAlign) (base + alignUp offset f.wireAlign)
        rw [image] at one
        apply List.mem_append_left
        change _ ∈ f.members wired host v.1 (base + alignUp offset f.wireAlign)
        rw [one]
        exact List.mem_cons_self
    · cases found
  | .cons f (.cons g rest), offset, start, found, v, base => by
    simp only [WireStruct.prefixOffset, Option.bind_eq_some_iff] at found
    obtain ⟨k, sized, found⟩ := found
    obtain ⟨length, fits, small, more, member⟩ := (WireStruct.cons g rest).prefixed_of found v.2 base
    have aligned := alignUp_mod offset f.wireAlign_pos
    have padded := alignUp_eq offset f.wireAlign_pos
    have here := (f.image_wireSize host sized v.1 _ aligned).1
    have next : wired.behind f (alignUp offset f.wireAlign) = alignUp offset f.wireAlign + k := by
      change _ + f.wireSize.getD 0 = _
      rw [sized]
      rfl
    refine ⟨?_, fits, small, more, ?_⟩
    · rw [WireStruct.image]
      simp only [andThen_length, zeros_length, ← padded, here]
      change _ = start + 2 + (WireStruct.cons g rest).lastCount v.2
      omega
    · apply List.mem_append_right
      rw [← next] at member
      exact member

/-! ## In place against copied -/

namespace WireStruct

variable {s : WireStruct} {host}

theorem inplace_cases (emitted : s.hasInplace = true) : (∃ k, s.wireSize = some k) ∨
    s.wireSize = none ∧ ∃ start, s.prefixOffset 0 = some start := by
  simp only [hasInplace, Bool.and_eq_true, Bool.or_eq_true, Option.isSome_iff_exists] at emitted
  cases sized : s.wireSize with
  | some k => exact .inl ⟨k, rfl⟩
  | none =>
    rw [sized] at emitted
    simp only [reduceCtorEq, exists_false, false_or] at emitted
    exact .inr ⟨rfl, emitted.2⟩

theorem aliasable_of_inplace (emitted : s.hasInplace = true) : s.Aliasable := by
  rcases inplace_cases emitted with ⟨k, sized⟩ | ⟨-, start, found⟩
  · exact s.aliasable_of_sized sized
  · exact s.aliasable_of_prefixed found

/-- `encode_inplace` exposes as many bytes as `encode` writes. -/
theorem inplaceLength_eq (emitted : s.hasInplace = true) (v : s.Val) : s.inplaceLength v = (s.image host v 0).length := by
  unfold inplaceLength
  rcases inplace_cases emitted with ⟨k, sized⟩ | ⟨varies, start, found⟩
  · have ends := (s.image_endOffset host sized v).1
    rw [sized, Option.getD_some]
    omega
  · have prefixed := (s.prefixed_of host found v 0).length
    rw [varies, found, Option.getD_none, Option.getD_some]
    omega

theorem has_image (emitted : s.hasInplace = true) (v : s.Val) : Has (s.image host v 0) (s.members wired host v 0 0) := by
  intro piece member
  exact (s.shows_wired host (aliasable_of_inplace emitted) v 0 0).holds member

theorem decodeInplace_image (emitted : s.hasInplace = true) (same : s.SameOffsets) (v : s.Val) :
    s.decodeInplace host true (s.image host v 0) = some v := by
  have has : Has (s.image host v 0) (s.members wired host v 0 0) := has_image emitted v
  have view : s.view host (s.image host v 0) 0 0 = some v := by
    apply s.view_has host (aliasable_of_inplace emitted) v
    rw [same.members host v]
    exact has
  unfold decodeInplace
  rw [if_neg (by decide)]
  rcases inplace_cases emitted with ⟨k, sized⟩ | ⟨varies, start, found⟩
  · have ends := (s.image_endOffset host sized v).1
    rw [sized, Option.elim_some, if_neg (by omega), view]
  · obtain ⟨length, fits, small, more, member⟩ := s.prefixed_of host found v 0
    rw [Nat.zero_add] at member
    have count : Has (s.image host v 0) [(start, host.store 2 (s.lastCount v))] := by
      have piece : Has (s.image host v 0) [(start, host.store 2 (s.lastCount v) ++ more)] := by
        intro piece here
        cases List.mem_singleton.mp here
        exact has _ member
      exact piece.split.1
    obtain ⟨-, bytes⟩ := count _ List.mem_cons_self
    simp only [ByteOrder.store_length] at bytes
    have accepts : prefixAccepts host (s.image host v 0) start s.lastCapacity := by
      unfold prefixAccepts
      rw [bytes, ByteOrder.load_store, Nat.mod_eq_of_lt small]
      omega
    rw [varies, Option.elim_none, found, Option.bind_some, if_pos accepts, view]

/-- Access in place is the copying codec's: every value is exposed as the bytes `encode` writes, and what `decode` reads out of
them is what the payload's members are. -/
structure InplaceAgrees (s : WireStruct) (host : ByteOrder) (fill : Nat → UInt8) : Prop where
  exposes : ∀ v len bytes, s.encode host v len = .ok bytes → s.encodeInplace host fill v = bytes
  yields : ∀ v len bytes w n, s.encode host v len = .ok bytes → s.decode host true bytes = .ok (w, n) →
    s.decodeInplace host true bytes = some w

/-- The padding inside what is exposed holds zeros. -/
def ZeroPadding (s : WireStruct) (host : ByteOrder) (fill : Nat → UInt8) : Prop :=
  ∀ v p, p < s.inplaceLength v → (∀ piece ∈ s.members packed host v 0 0, ¬ Reaches piece p) → fill p = 0

variable {fill : Nat → UInt8}

theorem encodeInplace_eq (emitted : s.hasInplace = true) (same : s.SameOffsets) (zero : s.ZeroPadding host fill) (v : s.Val) :
    s.encodeInplace host fill v = s.image host v 0 := by
  have shown := s.shows_wired host (aliasable_of_inplace emitted) v 0 0
  have length : s.inplaceLength v = (s.image host v 0).length := inplaceLength_eq emitted v
  apply List.ext_getElem?
  intro i
  by_cases inside : i < s.inplaceLength v
  · have image := shown.shows i (by omega)
    rw [image]
    unfold encodeInplace
    rw [List.getElem?_map, List.getElem?_range inside, Option.map_some, same.members host v, Nat.zero_add]
    apply congrArg some
    by_cases covered : ∃ piece ∈ s.members wired host v 0 0, Reaches piece i
    · exact overlay_covered covered
    · have missed : ∀ piece ∈ s.members wired host v 0 0, ¬ Reaches piece i := fun piece member reached => covered ⟨piece, member, reached⟩
      rw [overlay_ground missed, overlay_ground missed]
      apply zero v i inside
      rw [same.members host v]
      exact missed
  · have beyond : (s.image host v 0).length ≤ i := by omega
    rw [List.getElem?_eq_none beyond]
    apply List.getElem?_eq_none
    unfold encodeInplace
    rw [List.length_map, List.length_range]
    omega

theorem overlay_of_exposed (emitted : s.hasInplace = true) {v : s.Val} (exposed : s.encodeInplace host fill v = s.image host v 0)
    {p : Nat} (inside : p < s.inplaceLength v) :
    overlay fill (s.members packed host v 0 0) p = overlay (fun _ => 0) (s.members wired host v 0 0) p := by
  have shown := s.shows_wired host (aliasable_of_inplace emitted) v 0 0
  have length : s.inplaceLength v = (s.image host v 0).length := inplaceLength_eq emitted v
  have image := shown.shows p (by omega)
  rw [← exposed] at image
  unfold encodeInplace at image
  rw [List.getElem?_map, List.getElem?_range inside, Option.map_some, Nat.zero_add] at image
  exact Option.some.inj image

theorem sameOffsets_of_exposed (emitted : s.hasInplace = true) (dimensioned : s.Dimensioned)
    (exposed : ∀ v, s.encodeInplace host fill v = s.image host v 0) : s.SameOffsets := by
  have shown := s.shows_wired host (aliasable_of_inplace emitted) (s.uniform true) 0 0
  have length : s.inplaceLength (s.uniform true) = (s.image host (s.uniform true) 0).length := inplaceLength_eq emitted _
  have alike := s.uniform_alike host wired dimensioned 0 0
  have alike' := s.uniform_alike host packed dimensioned 0 0
  have ascends' := s.ascends_packed host (s.uniform true) 0 0
  have equal : s.inplaceLength (s.uniform true) = s.inplaceLength (s.uniform false) := by
    unfold inplaceLength
    rw [s.lastCount_uniform true false]
  have offsets := offsets_eq alike alike' shown.ascends ascends' (s.members_snd host wired packed _ 0 0 0 0)
    (s.members_snd host wired packed _ 0 0 0 0) ?_
  · rw [s.members_fst, s.members_fst] at offsets
    exact offsets.symm
  · intro p member
    have inside := (changed_inside alike shown.ascends p member).2
    rw [Nat.zero_add, ← length] at inside
    have differ : overlay (fun _ => (0 : UInt8)) _ p ≠ overlay (fun _ => (0 : UInt8)) _ p := (mem_changed alike shown.ascends).mp member
    rw [← overlay_of_exposed emitted (exposed _) inside, ← overlay_of_exposed emitted (exposed _) (equal ▸ inside)] at differ
    exact (mem_changed alike' ascends').mpr differ

/-- The functions in place agree with the copying codec, if and only if every member of the C struct is at its offset on the wire and
the struct's padding holds zeros. -/
theorem inplaceAgrees_iff (s : WireStruct) (host : ByteOrder) (fill : Nat → UInt8) (emitted : s.hasInplace = true) (dimensioned : s.Dimensioned)
    (encodable : ∀ v, ∃ n, s.encodeSize v = .ok n) :
    s.InplaceAgrees host fill ↔ s.SameOffsets ∧ s.ZeroPadding host fill := by
  have written : ∀ v len bytes, s.encode host v len = .ok bytes → bytes = s.image host v 0 := by
    intro v len bytes wrote
    obtain ⟨n, measured⟩ := encodable v
    rw [encode_eq host measured] at wrote
    split at wrote
    · cases wrote
      rfl
    · cases wrote
  constructor
  · intro agrees
    have exposed : ∀ v, s.encodeInplace host fill v = s.image host v 0 := by
      intro v
      obtain ⟨n, measured⟩ := encodable v
      apply agrees.exposes v n
      rw [encode_eq host measured, if_pos (Nat.le_refl n)]
    have same := sameOffsets_of_exposed emitted dimensioned exposed
    refine ⟨same, fun v p inside missed => ?_⟩
    have byte := overlay_of_exposed emitted (exposed v) inside
    rw [overlay_ground missed, overlay_ground (by rwa [← same.members host v])] at byte
    exact byte
  · rintro ⟨same, zero⟩
    constructor
    · intro v len bytes wrote
      rw [written v len bytes wrote]
      exact encodeInplace_eq emitted same zero v
    · intro v len bytes w n wrote read
      obtain ⟨m, measured⟩ := encodable v
      have image := written v len bytes wrote
      subst image
      have found := decode_image host host measured
      rw [decide_eq_true rfl, read] at found
      by_cases short : s.ShortTexts v
      · rw [verdict_of short] at found
        cases found
        exact decodeInplace_image emitted same v
      · rw [verdict_not short] at found
        cases found

/-- `uint8 a`, `uint32 b`: three bytes of padding, on the wire and in C. -/
def gapped : WireStruct := .cons (.scalar .uint8) (.cons (.scalar .uint32) .nil)

theorem gapped_agrees : gapped.hasInplace = true ∧ gapped.SameOffsets ∧ gapped.InplaceAgrees .little (fun _ => 0) := by
  have emitted : gapped.hasInplace = true := by decide
  have same : gapped.SameOffsets := by
    unfold SameOffsets
    decide
  refine ⟨emitted, same, ?_⟩
  have agrees := inplaceAgrees_iff gapped .little (fun _ => 0) emitted ⟨trivial, trivial, trivial⟩ fun _ => ⟨8, rfl⟩
  exact agrees.mpr ⟨same, fun _ _ _ _ => rfl⟩

/-- `uint32 x`, `uint8 y`: 5 bytes on the wire, 8 in C. -/
def odd : WireStruct := .cons (.scalar .uint32) (.cons (.scalar .uint8) .nil)

/-- `Odd a`, `uint8[4] b`: 9 bytes on the wire, rounded up to the 12 of the struct. -/
def outer : WireStruct := .cons (.nested odd) (.cons (.array (.fixed 4) (.scalar .uint8)) .nil)

theorem four_bytes {α : Type} (a b c d : α) : [a, b, c, d].length = 4 := rfl

def outerValue : outer.Val :=
  ((word 4 1, word 1 2, ()), ⟨[word 1 3, word 1 4, word 1 5, word 1 6], four_bytes _ _ _ _⟩, ())

/-- The assertion passes and `b` is three bytes further on in the struct; and of `gapped` the padding goes out as it is. -/
theorem outer_disagrees : outer.hasInplace = true ∧ outer.assertion ∧
    outer.encode .little outerValue 64 = .ok [1, 0, 0, 0, 2, 3, 4, 5, 6] ∧
    outer.encodeInplace .little (fun _ => 0) outerValue = [1, 0, 0, 0, 2, 0, 0, 0, 3] ∧
    ¬ outer.InplaceAgrees .little (fun _ => 0) ∧ ¬ gapped.InplaceAgrees .little (fun _ => 9) := by
  have written : outer.encode .little outerValue 64 = .ok [1, 0, 0, 0, 2, 3, 4, 5, 6] := by decide
  have exposed : outer.encodeInplace .little (fun _ => 0) outerValue = [1, 0, 0, 0, 2, 0, 0, 0, 3] := by decide
  refine ⟨by decide, ?_, written, exposed, fun agrees => ?_, fun agrees => ?_⟩
  · intro k sized
    have nine : outer.wireSize = some 9 := by decide
    rw [nine] at sized
    cases sized
    decide
  · have same := agrees.exposes outerValue 64 _ written
    rw [exposed] at same
    exact absurd same (by decide)
  · have copied : gapped.encode .little (word 1 1, word 4 2, ()) 64 = .ok [1, 0, 0, 0, 2, 0, 0, 0] := by decide
    have same := agrees.exposes (word 1 1, word 4 2, ()) 64 _ copied
    exact absurd same (by decide)

end WireStruct

end TypeSupport

end Tickle
