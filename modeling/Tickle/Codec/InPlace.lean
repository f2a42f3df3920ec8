import Tickle.Codec.DirectImage
import Tickle.Codec.Places

/-! # Messages that are their own wire form

A ROS 2 message type may be lent where its C struct in memory is its wire form: every field at its wire offset, in arrays and
nested messages too. `_ros_natural_layout` walks both layouts side by side and stops at the first field they disagree on; the expression
emitted for `inplace_bytes` asks the compiler again. Natural C layout is `naturalSize`, `naturalAlign` and `offsetof`.
-/

namespace Tickle

namespace TypeSupport

open Cursor

/-! ## Natural C layout -/

/-- `rosidl_runtime_c__String` and a sequence: a pointer and two `size_t`. -/
def sequenceSize : Nat := 24

def pointerAlign : Nat := 8

mutual

/-- `_Alignof` of the field's member in the ROS struct: a scalar is aligned to its size. -/
def WireField.naturalAlign : WireField → Nat
  | .scalar t => t.size
  | .string _ => pointerAlign
  | .nested s => s.naturalAlign
  | .array (.fixed _) e => e.naturalAlign
  | .array (.varying _) _ => pointerAlign

def Element.naturalAlign : Element → Nat
  | .scalar t => t.size
  | .string => pointerAlign
  | .nested s => s.naturalAlign

def WireStruct.naturalAlign : WireStruct → Nat
  | .nil => 1
  | .cons f rest => max f.naturalAlign rest.naturalAlign

end

mutual

/-- `sizeof` of the field's member in the ROS struct. -/
def WireField.naturalSize : WireField → Nat
  | .scalar t => t.size
  | .string _ => sequenceSize
  | .nested s => s.naturalSize
  | .array (.fixed n) e => n * e.naturalSize
  | .array (.varying _) _ => sequenceSize

def Element.naturalSize : Element → Nat
  | .scalar t => t.size
  | .string => sequenceSize
  | .nested s => s.naturalSize

/-- `sizeof` of the ROS struct. An empty one has a placeholder member. -/
def WireStruct.naturalSize : WireStruct → Nat
  | .nil => 1
  | .cons f rest => alignUp (rest.naturalEnd (alignUp 0 f.naturalAlign + f.naturalSize)) (max f.naturalAlign rest.naturalAlign)

/-- Where the members end that follow `offset`. -/
def WireStruct.naturalEnd : WireStruct → Nat → Nat
  | .nil, offset => offset
  | .cons f rest, offset => rest.naturalEnd (alignUp offset f.naturalAlign + f.naturalSize)

end

/-- A step of a member designator: a member by its index, or an element. -/
inductive Step where
  | member (index : Nat)
  | element (index : Nat)
  deriving DecidableEq, Repr

mutual

/-- `offsetof` on from a member at `offset`. -/
def WireField.offsetof : WireField → List Step → (offset : Nat) → Option Nat
  | _, [], offset => some offset
  | .nested s, .member i :: path, offset => (s.offsetof i path 0).map fun inner => offset + inner
  | .array (.fixed _) e, .element i :: path, offset => e.offsetof path (offset + i * e.naturalSize)
  | _, _ :: _, _ => none

def Element.offsetof : Element → List Step → (offset : Nat) → Option Nat
  | _, [], offset => some offset
  | .nested s, .member i :: path, offset => (s.offsetof i path 0).map fun inner => offset + inner
  | _, _ :: _, _ => none

/-- `offsetof` of the `i`th member of those behind `offset`. -/
def WireStruct.offsetof : WireStruct → (i : Nat) → List Step → (offset : Nat) → Option Nat
  | .nil, _, _, _ => none
  | .cons f _, 0, path, offset => f.offsetof path (alignUp offset f.naturalAlign)
  | .cons f rest, i + 1, path, offset => rest.offsetof i path (alignUp offset f.naturalAlign + f.naturalSize)

end

/-- `offsetof(struct, path)`. -/
def WireStruct.offsetofPath (s : WireStruct) (path : List Step) : Option Nat :=
  match path with
  | .member i :: path => s.offsetof i path 0
  | _ => none

/-! ## What the generator works out -/

/-- The two offsets of `_ros_natural_layout` and its `natural_align`. -/
structure Walk where
  wireOffset : Nat
  naturalOffset : Nat
  naturalAlign : Nat
  deriving DecidableEq, Repr

/-- A struct's natural size and alignment. -/
structure SizeAlign where
  size : Nat
  align : Nat
  deriving DecidableEq, Repr

/-- The ends of `_ros_natural_layout`: nothing for an empty struct or one whose size varies. -/
def WireStruct.rosFinish (s : WireStruct) (walked : Option Walk) : Option SizeAlign :=
  match s with
  | .nil => none
  | .cons _ _ => s.wireSize.bind fun size => walked.bind fun w =>
      if w.wireOffset ≠ size then none else some ⟨alignUp w.naturalOffset w.naturalAlign, w.naturalAlign⟩

/-- An array of messages, if the two strides agree. -/
def rosArray (n wireStride : Nat) (inner : Option SizeAlign) : Option SizeAlign :=
  inner.bind fun element => if wireStride ≠ element.size then none else some ⟨n * element.size, element.align⟩

mutual

/-- `size` and `align` of one field in `_ros_natural_layout`. -/
def WireField.rosLayout : WireField → Option SizeAlign
  | .scalar t => if t = .bool then none else some ⟨t.size, t.size⟩
  | .string _ => none
  | .nested s => s.rosFinish (s.rosWalk ⟨0, 0, 1⟩)
  | .array (.fixed n) (.scalar t) => if t = .bool then none else some ⟨n * t.size, t.size⟩
  | .array (.fixed _) .string => none
  | .array (.fixed n) (.nested s) => rosArray n (alignUp (s.wireSize.getD 0) s.selfAlign) (s.rosFinish (s.rosWalk ⟨0, 0, 1⟩))
  | .array (.varying _) _ => none

/-- The loop of `_ros_natural_layout`. -/
def WireStruct.rosWalk : WireStruct → Walk → Option Walk
  | .nil, w => some w
  | .cons f rest, w =>
    match f.rosLayout with
    | none => none
    | some natural =>
      if alignUp w.wireOffset f.wireAlign ≠ alignUp w.naturalOffset natural.align then none
      else rest.rosWalk ⟨alignUp w.wireOffset f.wireAlign + f.wireSize.getD 0,
        alignUp w.naturalOffset natural.align + natural.size, max w.naturalAlign natural.align⟩

end

/-- `_ros_natural_layout`. -/
def WireStruct.rosNaturalLayout (s : WireStruct) : Option SizeAlign := s.rosFinish (s.rosWalk ⟨0, 0, 1⟩)

/-- A member designator and the wire offset it is compared with. -/
structure WireLeaf where
  path : List Step
  offset : Nat
  deriving DecidableEq, Repr

mutual

/-- What `_wire_leaves` appends for one field. -/
def WireField.wireLeaves : WireField → (path : List Step) → (offset : Nat) → List WireLeaf
  | .nested s, path, offset => s.wireLeaves 0 path offset 0
  | .array (.fixed n) (.nested s), path, offset => s.wireLeaves 0 (path ++ [.element 0]) offset 0 ++
      if 1 < n then [⟨path ++ [.element 1], offset + alignUp (s.wireSize.getD 0) s.selfAlign⟩] else []
  | .scalar _, path, offset | .string _, path, offset | .array (.fixed _) (.scalar _), path, offset
  | .array (.fixed _) .string, path, offset | .array (.varying _) _, path, offset => [⟨path, offset⟩]

/-- `_wire_leaves`, from the `i`th field on. -/
def WireStruct.wireLeaves : WireStruct → (i : Nat) → (before : List Step) → (base offset : Nat) → List WireLeaf
  | .nil, _, _, _, _ => []
  | .cons f rest, i, before, base, offset =>
    f.wireLeaves (before ++ [.member i]) (base + alignUp offset f.wireAlign) ++
      rest.wireLeaves (i + 1) before base (alignUp offset f.wireAlign + f.wireSize.getD 0)

end

/-- What `.inplace_bytes` is initialised with, its conditions evaluated for natural C layout. -/
def WireStruct.inplaceBytes (s : WireStruct) : Nat :=
  match s.rosNaturalLayout with
  | none => 0
  | some natural =>
    if s.naturalSize = natural.size ∧ ∀ leaf ∈ s.wireLeaves 0 [] 0 0, s.offsetofPath leaf.path = some leaf.offset then s.wireSize.getD 0
    else 0

/-! ## Leaves -/

/-- How a layout places the fields of a struct, and messages in an array. -/
structure Layout where
  align : WireField → Nat
  size : WireField → Nat
  stride : WireStruct → Nat

/-- `plan_fields`. -/
def wireLayout : Layout :=
  ⟨WireField.wireAlign, fun f => f.wireSize.getD 0, fun s => alignUp (s.wireSize.getD 0) s.selfAlign⟩

def naturalLayout : Layout := ⟨WireField.naturalAlign, WireField.naturalSize, WireStruct.naturalSize⟩

/-- Messages `stride` apart. -/
def leavesEach {α : Type} (leaves : α → Nat → List Placed) (stride : Nat) : List α → Nat → List Placed
  | [], _ => []
  | a :: l, start => leaves a start ++ leavesEach leaves stride l (start + stride)

section Leaves

variable (layout : Layout) (L : Language)

mutual

/-- The scalars of a field at `start`, each with what the message holds there. Strings and sequences have theirs elsewhere. -/
def WireField.leaves : (f : WireField) → f.Ros L → (start : Nat) → List Placed
  | .scalar t, v, start => [⟨start, t.size, (t.toWord v).val⟩]
  | .string _, _, _ => []
  | .nested s, v, start => s.leaves v start 0
  | .array (.fixed _) e, v, start => e.leaves v.1 start
  | .array (.varying _) _, _, _ => []

def Element.leaves : (e : Element) → List (e.Ros L) → (start : Nat) → List Placed
  | .scalar t, l, start => wordsPlaced (l.map t.toWord) start
  | .string, _, _ => []
  | .nested s, l, start => leavesEach (fun v start => s.leaves v start 0) (layout.stride s) l start

/-- The scalars of a struct at `base`, of the fields behind `offset`. -/
def WireStruct.leaves : (s : WireStruct) → s.Ros L → (base offset : Nat) → List Placed
  | .nil, _, _, _ => []
  | .cons f rest, v, base, offset =>
    f.leaves v.1 (base + alignUp offset (layout.align f)) ++ rest.leaves v.2 base (alignUp offset (layout.align f) + layout.size f)

end

end Leaves

/-! ## Where the walk passes, the two layouts agree -/

/-- What the walk has found out about a field. -/
structure WireField.Agrees (f : WireField) (natural : SizeAlign) : Prop where
  size : natural.size = f.naturalSize
  align : natural.align = f.naturalAlign
  sized : ∃ k, f.wireSize = some k ∧ k ≤ f.naturalSize
  leaves : ∀ (L : Language) (v : f.Ros L) (start : Nat), f.leaves wireLayout L v start = f.leaves naturalLayout L v start

/-- What the walk has found out about the fields from `w` on, where it ended at `w'`. -/
structure WireStruct.Walked (s : WireStruct) (w w' : Walk) : Prop where
  wire : s.endOffset w.wireOffset = some w'.wireOffset
  natural : w'.naturalOffset = s.naturalEnd w.naturalOffset
  align : 0 < w.naturalAlign → w'.naturalAlign = max w.naturalAlign s.naturalAlign
  behind : w.wireOffset ≤ w.naturalOffset → w'.wireOffset ≤ w'.naturalOffset
  leaves : ∀ (L : Language) (v : s.Ros L) (base : Nat),
    s.leaves wireLayout L v base w.wireOffset = s.leaves naturalLayout L v base w.naturalOffset

/-- What it has found out about a whole message. -/
structure WireStruct.Agrees (s : WireStruct) (natural : SizeAlign) : Prop where
  size : natural.size = s.naturalSize
  align : natural.align = s.naturalAlign
  sized : ∃ k, s.wireSize = some k ∧ k ≤ s.naturalSize
  leaves : ∀ (L : Language) (v : s.Ros L) (base : Nat), s.leaves wireLayout L v base 0 = s.leaves naturalLayout L v base 0

mutual

theorem WireField.naturalAlign_pos : (f : WireField) → 0 < f.naturalAlign
  | .scalar t => t.size_pos
  | .string _ => by simp [WireField.naturalAlign, pointerAlign]
  | .nested s => by
    simp only [WireField.naturalAlign]
    exact s.naturalAlign_pos
  | .array (.fixed _) e => by
    simp only [WireField.naturalAlign]
    exact e.naturalAlign_pos
  | .array (.varying _) _ => by simp [WireField.naturalAlign, pointerAlign]

theorem Element.naturalAlign_pos : (e : Element) → 0 < e.naturalAlign
  | .scalar t => t.size_pos
  | .string => by simp [Element.naturalAlign, pointerAlign]
  | .nested s => by
    simp only [Element.naturalAlign]
    exact s.naturalAlign_pos

theorem WireStruct.naturalAlign_pos : (s : WireStruct) → 0 < s.naturalAlign
  | .nil => by simp [WireStruct.naturalAlign]
  | .cons f rest => by
    simp only [WireStruct.naturalAlign]
    exact lt_max_of_lt_left f.naturalAlign_pos

end

theorem WireStruct.agrees_of_walked {s : WireStruct} {natural : SizeAlign}
    (walked : ∀ w', s.rosWalk ⟨0, 0, 1⟩ = some w' → s.Walked ⟨0, 0, 1⟩ w')
    (finished : s.rosFinish (s.rosWalk ⟨0, 0, 1⟩) = some natural) : s.Agrees natural := by
  cases s with
  | nil => cases finished
  | cons f rest =>
    simp only [WireStruct.rosFinish, Option.bind_eq_some_iff] at finished
    obtain ⟨size, sized, w, passed, rest_⟩ := finished
    split at rest_
    · cases rest_
    · next same =>
      cases rest_
      have agrees := walked w passed
      have positive := (WireStruct.cons f rest).naturalAlign_pos
      have align : w.naturalAlign = (WireStruct.cons f rest).naturalAlign := by
        rw [agrees.align Nat.one_pos]
        exact max_eq_right positive
      have natural : alignUp w.naturalOffset w.naturalAlign = (WireStruct.cons f rest).naturalSize := by
        rw [align, agrees.natural]
        simp only [WireStruct.naturalSize, WireStruct.naturalEnd, WireStruct.naturalAlign]
      refine ⟨natural, align, ⟨w.wireOffset, agrees.wire, ?_⟩, agrees.leaves⟩
      have within := agrees.behind (Nat.le_refl 0)
      rw [← natural, align]
      exact within.trans (le_alignUp _ positive)

/-- Messages placed alike, the same stride apart. -/
theorem leavesEach_congr {α : Type} {leaves leaves' : α → Nat → List Placed} {stride stride' : Nat} (same : stride = stride')
    (one : ∀ a start, leaves a start = leaves' a start) (l : List α) (start : Nat) :
    leavesEach leaves stride l start = leavesEach leaves' stride' l start := by
  subst same
  induction l generalizing start with
  | nil => rfl
  | cons a l ih => simp only [leavesEach, one, ih]

mutual

theorem WireField.agrees_of : (f : WireField) → {natural : SizeAlign} → f.rosLayout = some natural → f.Agrees natural
  | .scalar t, natural, found => by
    simp only [WireField.rosLayout] at found
    split at found
    · cases found
    · cases found
      exact ⟨rfl, rfl, ⟨t.size, rfl, Nat.le_refl _⟩, fun _ _ _ => rfl⟩
  | .string _, _, found => by simp [WireField.rosLayout] at found
  | .nested s, natural, found => by
    simp only [WireField.rosLayout] at found
    have inner := WireStruct.agrees_of_walked (fun w' => s.walked_of) found
    exact ⟨inner.size, inner.align, inner.sized, fun L v start => inner.leaves L v start⟩
  | .array (.fixed n) (.scalar t), natural, found => by
    simp only [WireField.rosLayout] at found
    split at found
    · cases found
    · cases found
      exact ⟨rfl, rfl, ⟨n * t.size, rfl, Nat.le_refl _⟩, fun _ _ _ => rfl⟩
  | .array (.fixed _) .string, _, found => by simp [WireField.rosLayout] at found
  | .array (.fixed n) (.nested s), natural, found => by
    simp only [WireField.rosLayout, rosArray, Option.bind_eq_some_iff] at found
    obtain ⟨element, here, rest⟩ := found
    have inner := WireStruct.agrees_of_walked (fun w' => s.walked_of) here
    split at rest
    · cases rest
    · next same =>
      cases rest
      rw [not_not] at same
      obtain ⟨k, sized, within⟩ := inner.sized
      have stride : alignUp k s.selfAlign = s.naturalSize := by
        rw [sized, Option.getD_some] at same
        rw [same, inner.size]
      refine ⟨?_, inner.align, ?_, ?_⟩
      · simp only [WireField.naturalSize, Element.naturalSize, inner.size]
      · refine ⟨_, by simp only [WireField.wireSize]; exact congrArg (Option.map _) sized, ?_⟩
        simp only [WireField.naturalSize, Element.naturalSize, stride]
        by_cases none : n = 0
        · rw [if_pos none]
          exact Nat.zero_le _
        · rw [if_neg none]
          obtain ⟨m, rfl⟩ := Nat.exists_eq_succ_of_ne_zero none
          rw [Nat.succ_sub_one, Nat.succ_mul]
          exact Nat.add_le_add_left within _
      · intro L v start
        have strides : wireLayout.stride s = naturalLayout.stride s := by
          change alignUp (s.wireSize.getD 0) s.selfAlign = s.naturalSize
          rw [same, inner.size]
        simp only [WireField.leaves, Element.leaves]
        exact leavesEach_congr strides (fun a start => inner.leaves L a start) _ _
  | .array (.varying _) _, _, found => by simp [WireField.rosLayout] at found

theorem WireStruct.walked_of : (s : WireStruct) → {w w' : Walk} → s.rosWalk w = some w' → s.Walked w w'
  | .nil, w, w', passed => by
    simp only [WireStruct.rosWalk, Option.some.injEq] at passed
    subst passed
    exact ⟨rfl, rfl, fun positive => (max_eq_left positive).symm, id, fun _ _ _ => rfl⟩
  | .cons f rest, w, w', passed => by
    simp only [WireStruct.rosWalk] at passed
    cases found : f.rosLayout with
    | none => simp [found] at passed
    | some natural =>
      simp only [found] at passed
      have here := f.agrees_of found
      obtain ⟨k, sized, within⟩ := here.sized
      split at passed
      · cases passed
      · next same =>
        rw [not_not, here.align] at same
        rw [sized, Option.getD_some, here.align, here.size] at passed
        have behind := rest.walked_of passed
        refine ⟨?_, behind.natural, ?_, ?_, ?_⟩
        · simp only [WireStruct.endOffset, sized]
          exact behind.wire
        · intro positive
          rw [behind.align (lt_max_of_lt_left positive), max_assoc]
          rfl
        · intro _
          apply behind.behind
          change alignUp w.wireOffset f.wireAlign + k ≤ alignUp w.naturalOffset f.naturalAlign + f.naturalSize
          omega
        · intro L v base
          have ends := behind.leaves L v.2 base
          simp only [WireStruct.leaves]
          change f.leaves wireLayout L v.1 (base + alignUp w.wireOffset f.wireAlign) ++
              rest.leaves wireLayout L v.2 base (alignUp w.wireOffset f.wireAlign + f.wireSize.getD 0) =
            f.leaves naturalLayout L v.1 (base + alignUp w.naturalOffset f.naturalAlign) ++
              rest.leaves naturalLayout L v.2 base (alignUp w.naturalOffset f.naturalAlign + f.naturalSize)
          rw [sized, Option.getD_some, here.leaves, same]
          rw [same] at ends
          rw [ends]

end

/-! ## Decoding a memory with the leaves in their places

Whatever the bytes between them are. -/

variable (host : ByteOrder) (L : Language)

/-- The memory holds each scalar at its place. -/
def Held (memory : Bytes) (placed : List Placed) : Prop :=
  ∀ p ∈ placed, bytesAt memory p.offset p.size = host.store p.size p.value

/-- The bytes of a payload that is a piece of the memory. -/
theorem bytesAt_piece {memory payload : Bytes} {base cursor w : Nat} (piece : payload <+: memory.drop base)
    (there : cursor + w ≤ payload.length) : bytesAt payload cursor w = bytesAt memory (base + cursor) w := by
  obtain ⟨rest, whole⟩ := piece
  unfold bytesAt
  rw [← List.drop_drop, ← whole, List.drop_append_of_le_length (by omega), List.take_append_of_le_length]
  rw [List.length_drop]
  omega

theorem drop_piece {memory payload : Bytes} {base : Nat} (piece : payload <+: memory.drop base) (cursor : Nat) :
    payload.drop cursor <+: memory.drop (base + cursor) := by
  rw [← List.drop_drop]
  exact piece.drop cursor

/-- The bytes of a word, read as one. -/
theorem loadWord_native {w : Nat} (v : Word w) : word w (loadWord host true w (host.store w v.val)) = v := by
  unfold loadWord
  rw [if_pos (.inr rfl), ByteOrder.load_store, word_mod, word_val]

theorem int32_of_ge {n : Nat} (large : ¬ n < 2 ^ 31) : int32 n = .error .overflow := if_neg large

/-- What is read ends `k` further on, if an `int32_t` holds that. -/
def Reads {α : Type} (read : Nat → Result (α × Nat)) (cursor k : Nat) (a : α) : Prop :=
  read cursor = (int32 (cursor + k)).map fun next => (a, next)

theorem reads_ok {α : Type} (a : α) {cursor : Nat} (small : cursor < 2 ^ 31) : Reads (fun cursor => .ok (a, cursor)) cursor 0 a := by
  unfold Reads
  rw [Nat.add_zero, int32_of_lt small]
  rfl

/-- Two reads one behind the other. -/
theorem Reads.andThen {α β γ : Type} {read : Nat → Result (α × Nat)} {read' : Nat → Result (β × Nat)} {cursor k k' : Nat} {a : α} {b : β}
    (one : Reads read cursor k a) (two : cursor + k < 2 ^ 31 → Reads read' (cursor + k) k' b) (pair : α → β → γ) :
    Reads (fun cursor => read cursor >>= fun x => read' x.2 >>= fun y => .ok (pair x.1 y.1, y.2)) cursor (k + k') (pair a b) := by
  unfold Reads at *
  simp only [one, ← Nat.add_assoc]
  by_cases small : cursor + k < 2 ^ 31
  · rw [int32_of_lt small]
    simp only [Except.map, ok_bind, two small]
    by_cases total : cursor + k + k' < 2 ^ 31
    · rw [int32_of_lt total]
      rfl
    · rw [int32_of_ge total]
      rfl
  · rw [int32_of_ge small, int32_of_ge (by omega)]
    rfl

/-- A step over padding, and a read behind it. -/
theorem Reads.behind {α : Type} {step : Nat → Result Nat} {read : Nat → Result (α × Nat)} {cursor next k : Nat} {a : α}
    (stepped : step cursor = int32 next) (read_ : next < 2 ^ 31 → Reads read next k a) (after : cursor ≤ next) :
    Reads (fun cursor => step cursor >>= read) cursor (next - cursor + k) a := by
  have reach : cursor + (next - cursor + k) = next + k := by omega
  unfold Reads at *
  simp only [stepped, reach]
  by_cases small : next < 2 ^ 31
  · rw [int32_of_lt small]
    exact read_ small
  · rw [int32_of_ge small, int32_of_ge (by omega)]
    rfl

theorem reads_word {memory payload : Bytes} {base cursor : Nat} (piece : payload <+: memory.drop base) (t : ScalarType) (v : t.Bits)
    (room : cursor + t.size ≤ payload.length) (held : Held host memory [⟨base + cursor, t.size, (t.toWord v).val⟩]) :
    Reads (fun cursor => decodeWord host true t.size payload cursor >>= fun w => .ok (t.ofWord w.1, w.2)) cursor t.size v := by
  have bytes := (bytesAt_piece piece room).trans (held _ List.mem_cons_self)
  unfold Reads decodeWord advance
  simp only [if_neg (Nat.not_lt.mpr room)]
  by_cases small : cursor + t.size < 2 ^ 31
  · rw [int32_of_lt small]
    simp only [ok_bind, Except.map, bytes, loadWord_native, t.ofWord_toWord]
  · rw [int32_of_ge small]
    rfl

theorem wordsAt_held {memory payload : Bytes} {base w : Nat} (piece : payload <+: memory.drop base) (l : List (Word w)) {cursor : Nat}
    (room : cursor + l.length * w ≤ payload.length) (held : Held host memory (wordsPlaced l (base + cursor))) :
    (wordsAt host true w payload l.length cursor).1 = l := by
  induction l generalizing cursor with
  | nil => rfl
  | cons v l ih =>
    rw [List.length_cons, Nat.succ_mul] at room
    have here := (bytesAt_piece piece (by omega : cursor + w ≤ payload.length)).trans (held _ List.mem_cons_self)
    have rest := ih (by omega : cursor + w + l.length * w ≤ payload.length) fun p member =>
      held p (List.mem_cons_of_mem _ (by rwa [← Nat.add_assoc] at member))
    change word w (loadWord host true w (bytesAt payload cursor w)) :: (wordsAt host true w payload l.length (cursor + w)).1 = v :: l
    rw [here, loadWord_native, rest]

theorem reads_words {memory payload : Bytes} {base cursor : Nat} (piece : payload <+: memory.drop base) {t : ScalarType} (l : List t.Bits)
    (room : cursor + l.length * t.size ≤ payload.length) (held : Held host memory (wordsPlaced (l.map t.toWord) (base + cursor))) :
    Reads (fun cursor => (Element.scalar t).directDecode plain L host true l.length payload cursor) cursor (l.length * t.size) ⟨l, rfl⟩ := by
  have count : (l.map t.toWord).length = l.length := List.length_map _
  have words := wordsAt_held host piece (l.map t.toWord) (by rwa [count]) held
  rw [count] at words
  have found : (wordsAt host true t.size payload l.length cursor).map t.ofWord = ⟨l, rfl⟩ := by
    apply Subtype.ext
    change List.map t.ofWord (wordsAt host true t.size payload l.length cursor).1 = l
    have same : t.ofWord ∘ t.toWord = id := funext t.ofWord_toWord
    rw [words, List.map_map, same, List.map_id]
  unfold Reads
  change (advance payload.length (l.length * t.size) cursor >>= fun next =>
    (Except.ok ((wordsAt host true t.size payload l.length cursor).map t.ofWord, next) : Result _)) = _
  rw [found]
  unfold advance
  rw [if_neg (Nat.not_lt.mpr room)]
  rfl

theorem WireField.alignDecode_known (f : WireField) {payload : Bytes} {offset : Nat} (room : alignUp offset f.wireAlign ≤ payload.length)
    (small : offset < 2 ^ 31) : f.alignDecode (some offset) payload offset = int32 (alignUp offset f.wireAlign) := by
  have after := le_alignUp offset f.wireAlign_pos
  have reach : offset + (alignUp offset f.wireAlign - offset) = alignUp offset f.wireAlign := by omega
  unfold WireField.alignDecode
  by_cases one : f.wireAlign ≤ 1
  · have exact_ : f.wireAlign = 1 := Nat.le_antisymm one f.wireAlign_pos
    rw [if_pos one, exact_, alignUp_of_aligned Nat.one_pos (Nat.mod_one offset), int32_of_lt small]
  · rw [if_neg one]
    simp only [WireField.staticPadding, Option.map_some]
    cases pad : alignUp offset f.wireAlign - offset with
    | zero =>
      have still : alignUp offset f.wireAlign = offset := by omega
      rw [still, int32_of_lt small]
      rfl
    | succ more =>
      rw [pad] at reach
      change advance payload.length (more + 1) offset = _
      unfold advance
      rw [reach, if_neg (Nat.not_lt.mpr room)]

theorem decodeGap_known {align : Nat} (positive : 0 < align) (first : Bool) {payload : Bytes} {cursor : Nat}
    (room : elementStart align first cursor ≤ payload.length) (small : cursor < 2 ^ 31) :
    decodeGap align first payload cursor = int32 (elementStart align first cursor) := by
  unfold decodeGap
  by_cases one : align ≤ 1
  · have exact_ : align = 1 := Nat.le_antisymm one positive
    subst exact_
    have still : elementStart 1 first cursor = cursor := by
      cases first with
      | true => rfl
      | false => exact alignUp_of_aligned Nat.one_pos (Nat.mod_one cursor)
    rw [if_pos one, still, int32_of_lt small]
  · rw [if_neg one]
    cases first with
    | true => exact (int32_of_lt small).symm
    | false =>
      change alignUp cursor align ≤ payload.length at room
      change skip payload.length (padding cursor align) cursor = int32 (alignUp cursor align)
      rw [alignUp_eq cursor positive] at room ⊢
      unfold skip
      by_cases fits : cursor + padding cursor align < 2 ^ 31
      · rw [int32_of_lt fits]
        exact if_neg (Nat.not_lt.mpr room)
      · rw [int32_of_ge fits]

theorem WireStruct.endOffset_le : (s : WireStruct) → {offset k : Nat} → s.endOffset offset = some k → offset ≤ k
  | .nil, offset, k, ends => by
    cases ends
    exact Nat.le_refl _
  | .cons f rest, offset, k, ends => by
    simp only [WireStruct.endOffset] at ends
    cases sized : f.wireSize with
    | none => simp [sized] at ends
    | some one =>
      simp only [sized] at ends
      have after := le_alignUp offset f.wireAlign_pos
      have behind := rest.endOffset_le ends
      omega

/-- A message of `k` bytes that its own decode reads from its own offset 0. -/
theorem reads_nested {α : Type} {decode : Bytes → Nat → Result (α × Nat)} {payload : Bytes} {cursor k : Nat} {a : α}
    (inner : Reads (decode (payload.drop cursor)) 0 k a) :
    Reads (fun cursor => decode (payload.drop cursor) 0 >>= fun nested => int32 (cursor + nested.2) >>= fun next =>
      .ok (nested.1, next)) cursor k a := by
  unfold Reads at *
  simp only [inner, Nat.zero_add]
  by_cases small : k < 2 ^ 31
  · rw [int32_of_lt small]
    simp only [Except.map, ok_bind]
    by_cases total : cursor + k < 2 ^ 31
    · rw [int32_of_lt total]
      rfl
    · rw [int32_of_ge total]
      rfl
  · rw [int32_of_ge small, int32_of_ge (by omega)]
    rfl

/-- One element of `directDecode`, in native order. -/
def readElement (s : WireStruct) (first : Bool) (payload : Bytes) (decoded : Nat) : Result (s.Ros L × Nat) := do
  let decoded ← decodeGap s.selfAlign first payload decoded
  let nested ← s.directDecodeFields plain L host true (some 0) (payload.drop decoded) 0
  let next ← int32 (decoded + nested.2)
  .ok (nested.1, next)

/-- How far `n` messages of `k` bytes reach from the first one's start. -/
def messagesSize (n k stride : Nat) : Nat := if n = 0 then 0 else (n - 1) * stride + k

theorem reads_messages {s : WireStruct} {k : Nat} {memory payload : Bytes} {base : Nat}
    (inner : ∀ (v : s.Ros L) (start : Nat), start + k ≤ payload.length → Held host memory (s.leaves wireLayout L v (base + start) 0) →
      Reads (s.directDecodeFields plain L host true (some 0) (payload.drop start)) 0 k v)
    (l : List (s.Ros L)) (first : Bool) {cursor : Nat} (small : cursor < 2 ^ 31)
    (aligned : elementStart s.selfAlign first cursor % s.selfAlign = 0)
    (room : l.length ≠ 0 → elementStart s.selfAlign first cursor + messagesSize l.length k (alignUp k s.selfAlign) ≤ payload.length)
    (held : Held host memory (leavesEach (fun v start => s.leaves wireLayout L v start 0) (alignUp k s.selfAlign) l
      (base + elementStart s.selfAlign first cursor))) :
    Reads (fun cursor => takeEach (readElement host L s) l.length first payload cursor) cursor
      (if l.length = 0 then 0 else
        elementStart s.selfAlign first cursor - cursor + messagesSize l.length k (alignUp k s.selfAlign)) ⟨l, rfl⟩ := by
  induction l generalizing first cursor with
  | nil => exact reads_ok _ small
  | cons v l ih =>
    have stride := le_alignUp k s.selfAlign_pos
    have after : cursor ≤ elementStart s.selfAlign first cursor := by
      cases first with
      | true => exact Nat.le_refl _
      | false => exact le_alignUp cursor s.selfAlign_pos
    have size : messagesSize (v :: l).length k (alignUp k s.selfAlign) = l.length * alignUp k s.selfAlign + k := rfl
    replace room := room (Nat.succ_ne_zero _)
    rw [size] at room
    have here : Reads (readElement host L s first payload) cursor (elementStart s.selfAlign first cursor - cursor + k) v := by
      apply Reads.behind (decodeGap_known s.selfAlign_pos first (by omega) small) _ after
      intro _
      apply reads_nested
      exact inner v _ (by omega) fun p member => held p (List.mem_append_left _ member)
    have reach : cursor + (elementStart s.selfAlign first cursor - cursor + k) = elementStart s.selfAlign first cursor + k := by omega
    have next : elementStart s.selfAlign false (elementStart s.selfAlign first cursor + k) =
        elementStart s.selfAlign first cursor + alignUp k s.selfAlign := alignUp_add k s.selfAlign_pos aligned
    have behind : cursor + (elementStart s.selfAlign first cursor - cursor + k) < 2 ^ 31 →
        Reads (fun cursor => takeEach (readElement host L s) l.length false payload cursor)
          (cursor + (elementStart s.selfAlign first cursor - cursor + k))
          (if l.length = 0 then 0 else alignUp k s.selfAlign - k + messagesSize l.length k (alignUp k s.selfAlign)) ⟨l, rfl⟩ := by
      rw [reach]
      intro between
      have rest := @ih false (elementStart s.selfAlign first cursor + k) between
      rw [next] at rest
      have gap : elementStart s.selfAlign first cursor + alignUp k s.selfAlign - (elementStart s.selfAlign first cursor + k) =
          alignUp k s.selfAlign - k := by omega
      rw [gap] at rest
      apply rest
      · rw [Nat.add_mod, aligned, alignUp_mod k s.selfAlign_pos]
        simp
      · intro some_
        unfold messagesSize
        obtain ⟨m, count⟩ := Nat.exists_eq_succ_of_ne_zero some_
        rw [count, Nat.succ_mul] at room
        rw [if_neg some_, count, Nat.succ_sub_one]
        omega
      · intro p member
        apply held p
        apply List.mem_append_right
        rwa [Nat.add_assoc]
    have both := here.andThen behind Exactly.cons
    have total : elementStart s.selfAlign first cursor - cursor + k +
        (if l.length = 0 then 0 else alignUp k s.selfAlign - k + messagesSize l.length k (alignUp k s.selfAlign)) =
        elementStart s.selfAlign first cursor - cursor + messagesSize (v :: l).length k (alignUp k s.selfAlign) := by
      rw [size]
      split
      · next none => rw [none, Nat.zero_mul, Nat.zero_add, Nat.add_zero]
      · next some_ =>
        obtain ⟨m, count⟩ := Nat.exists_eq_succ_of_ne_zero some_
        unfold messagesSize
        rw [if_neg some_, count, Nat.succ_sub_one, Nat.succ_mul]
        omega
    rw [total] at both
    exact both

mutual

theorem WireField.directDecode_reads : (f : WireField) → {k : Nat} → f.wireSize = some k → (v : f.Ros L) →
    {memory payload : Bytes} → {base cursor : Nat} → payload <+: memory.drop base → cursor + k ≤ payload.length → cursor < 2 ^ 31 →
    cursor % f.wireAlign = 0 → Held host memory (f.leaves wireLayout L v (base + cursor)) →
    Reads (f.directDecode plain L host true payload) cursor k v
  | .scalar t, k, sized, v, memory, payload, base, cursor, piece, room, _, _, held => by
    cases sized
    exact reads_word host piece t v room held
  | .string _, _, sized, _, _, _, _, _, _, _, _, _, _ => by simp [WireField.wireSize] at sized
  | .nested s, k, sized, v, memory, payload, base, cursor, piece, room, _, _, held => by
    simp only [WireField.wireSize] at sized
    apply reads_nested
    apply s.directDecodeFields_reads sized v (drop_piece piece cursor) _ (by decide) held
    rw [List.length_drop]
    omega
  | .array (.fixed n) (.scalar t), k, sized, v, memory, payload, base, cursor, piece, room, _, _, held => by
    cases sized
    change Exactly t.Bits n at v
    obtain ⟨l, rfl⟩ := v
    exact reads_words host L piece l room held
  | .array (.fixed _) .string, _, sized, _, _, _, _, _, _, _, _, _, _ => by simp [WireField.wireSize] at sized
  | .array (.fixed n) (.nested s), k, sized, v, memory, payload, base, cursor, piece, room, small, aligned, held => by
    simp only [WireField.wireSize, Option.map_eq_some_iff] at sized
    obtain ⟨one, size, rfl⟩ := sized
    change Exactly (s.Ros L) n at v
    obtain ⟨l, rfl⟩ := v
    have stride : wireLayout.stride s = alignUp one s.selfAlign := by
      change alignUp (s.wireSize.getD 0) s.selfAlign = alignUp one s.selfAlign
      rw [show s.wireSize = some one from size, Option.getD_some]
    simp only [WireField.leaves, Element.leaves, stride] at held
    have inner : ∀ (v : s.Ros L) (start : Nat), start + one ≤ payload.length →
        Held host memory (s.leaves wireLayout L v (base + start) 0) →
        Reads (s.directDecodeFields plain L host true (some 0) (payload.drop start)) 0 one v := by
      intro v start inside held
      apply s.directDecodeFields_reads size v (drop_piece piece start) _ (by decide) held
      rw [List.length_drop]
      omega
    have read := reads_messages host L inner l true small aligned (fun _ => room) held
    have length : (if l.length = 0 then 0 else elementStart s.selfAlign true cursor - cursor +
        messagesSize l.length one (alignUp one s.selfAlign)) = messagesSize l.length one (alignUp one s.selfAlign) := by
      have none : elementStart s.selfAlign true cursor - cursor = 0 := Nat.sub_self cursor
      rw [none, Nat.zero_add]
      unfold messagesSize
      split <;> rfl
    rw [length] at read
    unfold Reads at read ⊢
    change readEach plain (readElement host L s) l.length true payload cursor = _
    rw [readEach_plain]
    exact read
  | .array (.varying _) _, _, sized, _, _, _, _, _, _, _, _, _, _ => by simp [WireField.wireSize] at sized

theorem WireStruct.directDecodeFields_reads : (s : WireStruct) → {offset k : Nat} → s.endOffset offset = some k → (v : s.Ros L) →
    {memory payload : Bytes} → {base : Nat} → payload <+: memory.drop base → k ≤ payload.length → offset < 2 ^ 31 →
    Held host memory (s.leaves wireLayout L v base offset) →
    Reads (s.directDecodeFields plain L host true (some offset) payload) offset (k - offset) v
  | .nil, offset, k, ends, _, _, _, _, _, _, small, _ => by
    cases ends
    rw [Nat.sub_self]
    exact reads_ok _ small
  | .cons f rest, offset, k, ends, v, memory, payload, base, piece, room, small, held => by
    simp only [WireStruct.endOffset] at ends
    cases sized : f.wireSize with
    | none => simp [sized] at ends
    | some one =>
      simp only [sized] at ends
      have after := le_alignUp offset f.wireAlign_pos
      have within := rest.endOffset_le ends
      have split : Held host memory (f.leaves wireLayout L v.1 (base + alignUp offset f.wireAlign)) ∧
          Held host memory (rest.leaves wireLayout L v.2 base (alignUp offset f.wireAlign + one)) := by
        have both := List.forall_mem_append.mp held
        refine ⟨both.1, ?_⟩
        have behind := both.2
        change ∀ p ∈ rest.leaves wireLayout L v.2 base (alignUp offset f.wireAlign + f.wireSize.getD 0), _ at behind
        rw [sized] at behind
        exact behind
      have padded := @WireField.alignDecode_known f payload offset (by omega) small
      have next : f.nextOffset (some offset) = some (alignUp offset f.wireAlign + one) := by
        simp only [WireField.nextOffset, sized]
      have read : alignUp offset f.wireAlign < 2 ^ 31 → Reads (fun cursor => f.directDecode plain L host true payload cursor >>= fun v =>
          rest.directDecodeFields plain L host true (f.nextOffset (some offset)) payload v.2 >>= fun w => .ok ((v.1, w.1), w.2))
          (alignUp offset f.wireAlign) (one + (k - (alignUp offset f.wireAlign + one))) (v.1, v.2) := by
        intro fits
        have here := f.directDecode_reads sized v.1 piece (by omega) fits (alignUp_mod offset f.wireAlign_pos) split.1
        refine here.andThen ?_ Prod.mk
        intro between
        rw [next]
        exact rest.directDecodeFields_reads ends v.2 piece room between split.2
      have whole := Reads.behind padded read after
      have total : alignUp offset f.wireAlign - offset + (one + (k - (alignUp offset f.wireAlign + one))) = k - offset := by omega
      rw [total] at whole
      exact whole

end

namespace WireStruct

/-- A type that is lent has every scalar of its C struct where the wire has it, and the struct's first bytes decode to the
message - as far as `decode` can count them. -/
theorem inplace_same_layout (s : WireStruct) (lent : s.inplaceBytes ≠ 0) :
    s.wireSize = some s.inplaceBytes ∧ s.inplaceBytes ≤ s.naturalSize ∧
    ∀ (L : Language) (v : s.Ros L), s.leaves naturalLayout L v 0 0 = s.leaves wireLayout L v 0 0 ∧
      ∀ (host : ByteOrder) (memory : Bytes), memory.length = s.naturalSize → Held host memory (s.leaves naturalLayout L v 0 0) →
        s.directDecodeFields plain L host true (some 0) (memory.take s.inplaceBytes) 0 =
          (int32 s.inplaceBytes).map fun n => (v, n) := by
  cases found : s.rosNaturalLayout with
  | none =>
    unfold inplaceBytes at lent
    rw [found] at lent
    exact absurd rfl lent
  | some natural =>
    have agrees : s.Agrees natural := agrees_of_walked (fun w' => s.walked_of) found
    obtain ⟨k, sized, within⟩ := agrees.sized
    have bytes : s.inplaceBytes = k := by
      unfold inplaceBytes at lent ⊢
      rw [found] at lent ⊢
      simp only [sized, Option.getD_some] at lent ⊢
      split
      · rfl
      · next no =>
        rw [if_neg no] at lent
        exact absurd rfl lent
    rw [bytes]
    refine ⟨sized, within, ?_⟩
    intro L v
    have same := (agrees.leaves L v 0).symm
    refine ⟨same, ?_⟩
    intro host memory length held
    rw [same] at held
    have piece : memory.take k <+: memory.drop 0 := List.take_prefix k memory
    have room : k ≤ (memory.take k).length := by
      rw [List.length_take, length]
      omega
    have read := s.directDecodeFields_reads host L sized v piece room (by decide) held
    rw [Nat.sub_zero] at read
    unfold Reads at read
    rw [Nat.zero_add] at read
    exact read

/-- `uint32 x`, `uint8 b`: 5 bytes on the wire, 8 in memory, and 8 apart in an array either way. -/
def padded : WireStruct := .cons (.scalar .uint32) (.cons (.scalar .uint8) .nil)

/-- `uint64 t` and two of them. -/
def lent : WireStruct := .cons (.scalar .uint64) (.cons (.array (.fixed 2) (.nested padded)) .nil)

theorem lentPair_two {α : Type} (a b : α) : [a, b].length = 2 := rfl

def lentValue : lent.Ros c :=
  (word 8 1, ⟨[(word 4 2, word 1 3, ()), (word 4 4, word 1 5, ())], lentPair_two _ _⟩, ())

/-- The message in memory, with whatever the padding holds. -/
def lentMemory : Bytes := [1, 0, 0, 0, 0, 0, 0, 0, 2, 0, 0, 0, 3, 9, 9, 9, 4, 0, 0, 0, 5, 9, 9, 9]

theorem lent_decodes : lent.inplaceBytes = 21 ∧ lent.naturalSize = 24 ∧
    lent.directDecodeFields plain c .little true (some 0) (lentMemory.take 21) 0 = .ok (lentValue, 21) := by
  have bytes : lent.inplaceBytes = 21 := by decide
  have decoded := (inplace_same_layout lent (by decide)).2.2 c lentValue
  have held : Held .little lentMemory (lent.leaves naturalLayout c lentValue 0 0) := by
    unfold Held
    decide
  have read := decoded.2 .little lentMemory rfl held
  rw [bytes] at read
  exact ⟨bytes, rfl, read⟩

end WireStruct

end TypeSupport

end Tickle
