import Tickle.Codec.DirectImage
import Tickle.Codec.Places

/-! # The codec in two steps

A ROS 2 message converted to the TickLE struct and encoded from there, and back the same way. The direct codecs are to
write its bytes exactly. They do, short of a sequence of 65,535 elements or more: `to_tickle` cuts its count to two bytes,
and a direct codec writes the escape and four bytes.
-/

namespace Tickle

namespace TypeSupport

open Cursor

/-! ## Conversion -/

theorem zero_notMem_cut (bytes : Bytes) : (0 : UInt8) ∉ cut bytes := by
  intro zero
  simpa using List.mem_takeWhile_imp zero

theorem cut_length_le (bytes : Bytes) : (cut bytes).length ≤ bytes.length := (List.takeWhile_prefix _).length_le

theorem unbounded_fits (bytes : Bytes) : ∀ n ∈ (none : Option Nat), bytes.length ≤ n := by
  intro n member
  cases member

theorem bounded_fits {most : Nat} {bytes : Bytes} (within : bytes.length ≤ most) : ∀ n ∈ some most, (cut bytes).length ≤ n := by
  intro n member
  cases member
  exact (cut_length_le bytes).trans within

/-- A `char*` to the string's own bytes, which C reads up to the first NUL. -/
def aliased (bytes : Bytes) : Text none := ⟨cut bytes, zero_notMem_cut bytes, unbounded_fits _⟩

/-- The string copied into a `char[most + 1]`. Of a NULL string, whose size is 0, nothing is copied. -/
def copied (most : Nat) (s : Option Bytes) : Option (Text (some most)) :=
  if within : (s.getD []).length ≤ most then some ⟨cut (s.getD []), zero_notMem_cut _, bounded_fits within⟩ else none

/-- A loop over elements that gives up at the first one refused. -/
def convertAll {α β : Type} (convert : α → Option β) : (l : List α) → Option (Exactly β l.length)
  | [] => some ⟨[], List.length_nil⟩
  | a :: l => (convert a).bind fun b => (convertAll convert l).map (Exactly.cons b)

/-- As many as there have to be. -/
def resized {β : Type} {m n : Nat} (same : m = n) (l : Exactly β m) : Exactly β n := ⟨l.1, l.2.trans same⟩

theorem truncated_within {β : Type} {n most : Nat} (within : n ≤ most) (l : Exactly β n) :
    (l.1.take (n % 256 ^ 2)).length ≤ most ∧ (l.1.take (n % 256 ^ 2)).length < 256 ^ 2 := by
  have small := Nat.mod_lt n (show 0 < 256 ^ 2 by decide)
  rw [List.length_take, l.2]
  omega

/-- The elements, with their count cut to a `uint16_t`. -/
def truncated {β : Type} {n : Nat} {k : Capacity} (within : n ≤ k.max) (l : Exactly β n) : (ArrayMode.varying k).Of β :=
  ⟨l.1.take (n % 256 ^ 2), truncated_within within l⟩

mutual

/-- `_to_tickle_field_lines`. -/
def WireField.toTickle : (f : WireField) → f.Ros c → Option f.Val
  | .scalar t, v => some (t.toWord v)
  | .string none, v => some (Option.map aliased v)
  | .string (some k), v => copied k.max v
  | .nested s, v => s.toTickle v
  | .array (.fixed _) e, v => (convertAll e.toTickle v.1).map (resized v.2)
  | .array (.varying k) e, v =>
    if within : List.length v ≤ k.max then (convertAll e.toTickle v).map (truncated within) else none

def Element.toTickle : (e : Element) → e.Ros c → Option e.Val
  | .scalar t, v => some (t.toWord v)
  | .string, v => some (Option.map aliased v)
  | .nested s, v => s.toTickle v

/-- `to_tickle`. -/
def WireStruct.toTickle : (s : WireStruct) → s.Ros c → Option s.Val
  | .nil, _ => some ()
  | .cons f rest, v => (f.toTickle v.1).bind fun a => (rest.toTickle v.2).map (Prod.mk a)

end

/-- `rosidl_runtime_c__String__assign`, which refuses NULL. -/
def assigned {bound : Option Nat} (t : Option (Text bound)) : Option c.Str := t.map fun t => c.assign t.bytes

mutual

/-- `_from_tickle_field_lines`. -/
def WireField.fromTickle : (f : WireField) → f.Val → Option (f.Ros c)
  | .scalar t, v => some (t.ofWord v)
  | .string none, v => assigned v
  | .string (some _), v => assigned (some v)
  | .nested s, v => s.fromTickle v
  | .array (.fixed _) e, v => (convertAll e.fromTickle v.1).map (resized v.2)
  | .array (.varying _) e, v => (convertAll e.fromTickle v.1).map Subtype.val

def Element.fromTickle : (e : Element) → e.Val → Option (e.Ros c)
  | .scalar t, v => some (t.ofWord v)
  | .string, v => assigned v
  | .nested s, v => s.fromTickle v

/-- `from_tickle`. -/
def WireStruct.fromTickle : (s : WireStruct) → s.Val → Option (s.Ros c)
  | .nil, _ => some ()
  | .cons f rest, v => (f.fromTickle v.1).bind fun a => (rest.fromTickle v.2).map (Prod.mk a)

end

mutual

/-- The C message that holds what the C++ message holds. -/
def WireField.asC : (f : WireField) → f.Ros cpp → f.Ros c
  | .scalar _, v => v
  | .string _, v => some v
  | .nested s, v => s.asC v
  | .array (.fixed _) e, v => Exactly.map e.asC v
  | .array (.varying _) e, v => List.map e.asC v

def Element.asC : (e : Element) → e.Ros cpp → e.Ros c
  | .scalar _, v => v
  | .string, v => some v
  | .nested s, v => s.asC v

def WireStruct.asC : (s : WireStruct) → s.Ros cpp → s.Ros c
  | .nil, v => v
  | .cons f rest, v => (f.asC v.1, rest.asC v.2)

end

/-- The ways of a message to the wire and back. -/
inductive Path where
  | direct | directCpp | twoStep
  deriving DecidableEq

namespace Path

variable (s : WireStruct)

def encodeSize (w : s.Ros cpp) : Path → Result Nat
  | .direct => s.directEncodeSize c (s.asC w)
  | .directCpp => s.directEncodeSize cpp w
  | .twoStep => (s.toTickle (s.asC w)).elim (.error .refused) s.encodeSize

def encode (host : ByteOrder) (w : s.Ros cpp) (len : Nat) : Path → Result Bytes
  | .direct => s.directEncode c host (s.asC w) len
  | .directCpp => s.directEncode cpp host w len
  | .twoStep => (s.toTickle (s.asC w)).elim (.error .refused) fun t => s.encode host t len

/-- The message decoded, as C holds it, and how much of the payload it took. -/
def decode (host : ByteOrder) (isNativeEndian : Bool) (payload : Bytes) : Path → Result (s.Ros c × Nat)
  | .direct => s.directDecodeFields plain c host isNativeEndian (some 0) payload 0
  | .directCpp => (s.directDecodeFields plain cpp host isNativeEndian (some 0) payload 0).map fun r => (s.asC r.1, r.2)
  | .twoStep => s.decode host isNativeEndian payload >>= fun r =>
      (s.fromTickle r.1).elim (.error .refused) fun m => .ok (m, r.2)

end Path

mutual

/-- Every sequence in the message has a count below the escape. -/
def WireField.Narrow : (f : WireField) → f.Ros c → Prop
  | .scalar _, _ => True
  | .string _, _ => True
  | .nested s, v => s.Narrow v
  | .array (.fixed _) e, v => ∀ a ∈ v.1, e.Narrow a
  | .array (.varying _) e, v => List.length v < countEscape ∧ ∀ a ∈ (show List (e.Ros c) from v), e.Narrow a

def Element.Narrow : (e : Element) → e.Ros c → Prop
  | .scalar _, _ => True
  | .string, _ => True
  | .nested s, v => s.Narrow v

def WireStruct.Narrow : (s : WireStruct) → s.Ros c → Prop
  | .nil, _ => True
  | .cons f rest, v => f.Narrow v.1 ∧ rest.Narrow v.2

end

/-! ## Two images that part for good -/

/-- Behind a start four bytes behind the other's the first image ends four bytes behind the other. -/
def Apart (image image' : Nat → Bytes) : Prop :=
  ∀ a b, a + 4 ≤ b → a + (image a).length + 4 ≤ b + (image' b).length

/-- One image where `narrow` holds; where it does not, the first is shorter by four bytes or more. No padding makes
up for them: nothing is aligned to more than four. -/
structure Trails (narrow : Prop) (image image' : Nat → Bytes) : Prop where
  same : narrow → image = image'
  apart : Apart image image'
  shorter : ¬ narrow → ∀ a, (image a).length + 4 ≤ (image' a).length

theorem andThen_assoc (one two three : Nat → Bytes) :
    Cursor.andThen (Cursor.andThen one two) three = Cursor.andThen one (Cursor.andThen two three) := by
  funext cursor
  simp only [Cursor.andThen, List.append_assoc, List.length_append, Nat.add_assoc]

section Trails

variable {narrow narrow' : Prop} {image image' more more' : Nat → Bytes}

theorem Apart.andThen (one : Apart image image') (two : Apart more more') :
    Apart (Cursor.andThen image more) (Cursor.andThen image' more') := by
  intro a b behind
  have here := two _ _ (one a b behind)
  rw [andThen_length, andThen_length]
  omega

theorem apart_bytes {short long : Bytes} (le : short.length ≤ long.length) : Apart (fun _ => short) fun _ => long := by
  intro a b behind
  simp only
  omega

theorem apart_nothing : Apart (fun _ => []) fun _ => [] := apart_bytes (Nat.le_refl _)

theorem apart_padding {align : Nat} (divides : align ∣ 4) : Apart (padImage align) (padImage align) := by
  intro a b behind
  have positive : 0 < align := Nat.pos_of_dvd_of_pos divides (by decide)
  have shifted : alignUp a align + 4 ≤ alignUp b align := by
    unfold alignUp
    rcases cases_dvd_four divides with rfl | rfl | rfl <;> omega
  rw [alignUp_eq a positive, alignUp_eq b positive] at shifted
  simp only [padImage, zeros_length]
  omega

theorem Apart.trails (apart : Apart image image) : Trails True image image where
  same _ := rfl
  apart := apart
  shorter wide := absurd trivial wide

theorem Trails.congr (one : Trails narrow image image') (iff : narrow' ↔ narrow) : Trails narrow' image image' where
  same holds := one.same (iff.mp holds)
  apart := one.apart
  shorter wide := one.shorter fun holds => wide (iff.mpr holds)

theorem Trails.andThen (one : Trails narrow image image') (two : Trails narrow' more more') :
    Trails (narrow ∧ narrow') (Cursor.andThen image more) (Cursor.andThen image' more') where
  same both := by rw [one.same both.1, two.same both.2]
  apart := one.apart.andThen two.apart
  shorter wide a := by
    rw [andThen_length, andThen_length]
    by_cases here : narrow
    · have rest := two.shorter (fun there => wide ⟨here, there⟩) (a + (image a).length)
      rw [← one.same here]
      omega
    · have front := one.shorter here a
      have rest := two.apart (a + (image a).length) (a + (image' a).length) (by omega)
      omega

/-- Once the count in front is longer, what is behind only has to stay apart. -/
theorem trails_longer {short long : Bytes} (longer : short.length + 4 ≤ long.length) (wide : ¬ narrow)
    (rest : Apart more more') : Trails narrow (Cursor.andThen (fun _ => short) more) (Cursor.andThen (fun _ => long) more') where
  same holds := absurd holds wide
  apart := (apart_bytes (by omega)).andThen rest
  shorter _ a := by
    have behind := rest (a + short.length) (a + long.length) (by omega)
    rw [andThen_length, andThen_length]
    omega

/-- A nested message starts at 0 of its own. -/
theorem Trails.nested (one : Trails narrow image image') : Trails narrow (fun _ => image 0) fun _ => image' 0 where
  same holds := by rw [one.same holds]
  apart := by
    apply apart_bytes
    by_cases here : narrow
    · rw [one.same here]
    · have shorter := one.shorter here 0
      omega
  shorter wide _ := one.shorter wide 0

variable {α β : Type} {narrowOf : α → Prop} {each : Bool → β → Nat → Bytes} {each' : Bool → α → Nat → Bytes}
  {l : List α} {m : List β}

theorem trails_each (one : List.Forall₂ (fun a b => ∀ first, Trails (narrowOf a) (each first b) (each' first a)) l m)
    (first : Bool) : Trails (∀ a ∈ l, narrowOf a) (imageEach each first m) (imageEach each' first l) := by
  induction one generalizing first with
  | nil => exact apart_nothing.trails.congr (by simp)
  | cons here _ ih => exact ((here first).andThen (ih false)).congr List.forall_mem_cons

theorem apart_each_take (one : List.Forall₂ (fun a b => ∀ first, Trails (narrowOf a) (each first b) (each' first a)) l m)
    (first : Bool) (n : Nat) : Apart (imageEach each first (m.take n)) (imageEach each' first l) := by
  induction one generalizing first n with
  | nil =>
    rw [List.take_nil]
    exact apart_nothing
  | cons here _ ih =>
    cases n with
    | zero =>
      intro a b behind
      simp only [List.take_zero, imageEach, List.length_nil]
      omega
    | succ n => exact (here first).apart.andThen (ih false n)

end Trails

theorem apart_text (order : ByteOrder) (bytes : Bytes) : Apart (textImage order bytes) (textImage order bytes) := by
  have stored : Apart (fun _ => order.store 2 (bytes.length + 1)) fun _ => order.store 2 (bytes.length + 1) :=
    apart_bytes (Nat.le_refl _)
  have text : Apart (fun _ => bytes ++ [0]) fun _ => bytes ++ [0] := apart_bytes (Nat.le_refl _)
  exact stored.andThen (text.andThen (apart_padding (Nat.dvd_refl 4)))

theorem apart_gap {align : Nat} (divides : align ∣ 4) (first : Bool) : Apart (gapImage align first) (gapImage align first) := by
  cases first with
  | true => exact apart_nothing
  | false => exact apart_padding divides

theorem andThen_nothing (image : Nat → Bytes) : andThen (fun _ => []) image = image := by
  funext cursor
  simp [andThen]

/-! ## What conversion keeps -/

theorem convertAll_some {α β : Type} {convert : α → Option β} {l : List α} {m : Exactly β l.length}
    (all : convertAll convert l = some m) : List.Forall₂ (fun a b => convert a = some b) l m.1 := by
  induction l with
  | nil =>
    cases all
    exact List.Forall₂.nil
  | cons a l ih =>
    obtain ⟨b, here, rest⟩ := Option.bind_eq_some_iff.mp all
    obtain ⟨m', there, rfl⟩ := Option.map_eq_some_iff.mp rest
    exact List.Forall₂.cons here (ih there)

theorem convertAll_of {α β : Type} {convert : α → Option β} {l : List α} {m : List β}
    (all : List.Forall₂ (fun a b => convert a = some b) l m) : convertAll convert l = some ⟨m, all.length_eq.symm⟩ := by
  induction all with
  | nil => rfl
  | cons here _ ih =>
    simp only [convertAll, here, Option.bind_some, ih, Option.map_some]
    rfl

theorem copied_some {most : Nat} {bytes : Bytes} {t : Text (some most)} (converted : copied most (some bytes) = some t) :
    t.bytes = cut bytes := by
  unfold copied at converted
  split at converted
  · cases converted
    rfl
  · cases converted

/-- What a field's sequence converts to. -/
theorem toTickle_sequence {k : Capacity} {e : Element} {v : (WireField.array (.varying k) e).Ros c}
    {t : ArrayMode.Of e.Val (.varying k)} (converted : (WireField.array (.varying k) e).toTickle v = some t) :
    ∃ m : List e.Val, List.Forall₂ (fun a b => e.toTickle a = some b) v m ∧
      ArrayMode.elements t = m.take (List.length v % 256 ^ 2) := by
  unfold WireField.toTickle at converted
  split at converted
  · obtain ⟨l, all, rfl⟩ := Option.map_eq_some_iff.mp converted
    exact ⟨l.1, convertAll_some all, rfl⟩
  · cases converted

theorem toTickle_fixed {n : Nat} {e : Element} {v : (WireField.array (.fixed n) e).Ros c}
    {t : ArrayMode.Of e.Val (.fixed n)} (converted : (WireField.array (.fixed n) e).toTickle v = some t) :
    List.Forall₂ (fun a b => e.toTickle a = some b) v.1 (ArrayMode.elements t) := by
  obtain ⟨l, all, rfl⟩ := Option.map_eq_some_iff.mp converted
  exact convertAll_some all

theorem take_narrow {α β : Type} {l : List α} {m : List β} {R : α → β → Prop} (all : List.Forall₂ R l m)
    (few : l.length < countEscape) : m.take (l.length % 256 ^ 2) = m := by
  unfold countEscape at few
  rw [Nat.mod_eq_of_lt (by omega), all.length_eq, List.take_length]

variable (order : ByteOrder)

theorem scalars_trails {t : ScalarType} {l : List t.Bits} {m : List (Word t.size)}
    (all : List.Forall₂ (fun a b => some (t.toWord a) = some b) l m) :
    Trails True (fun _ => m.flatMap fun v => order.store t.size v.val)
      (fun _ => l.flatMap fun v => order.store t.size (t.toWord v).val) ∧
    ∀ n, Apart (fun _ => (m.take n).flatMap fun v => order.store t.size v.val)
      fun _ => l.flatMap fun v => order.store t.size (t.toWord v).val := by
  have same : m = l.map t.toWord := by
    induction all with
    | nil => rfl
    | cons here _ ih =>
      cases here
      rw [ih, List.map_cons]
  subst same
  rw [List.flatMap_map]
  refine ⟨(apart_bytes (Nat.le_refl _)).trails, fun n => apart_bytes ?_⟩
  rw [flatMap_store_length, flatMap_bits_length, List.length_take, List.length_map]
  exact Nat.mul_le_mul_right _ (Nat.min_le_right _ _)

mutual

theorem WireField.toTickle_trails : (f : WireField) → (v : f.Ros c) → (t : f.Val) → f.toTickle v = some t →
    f.Accepts c v → Trails (f.Narrow v) (f.image order t) (f.directImage c order v)
  | .scalar _, _, _, converted, _ => by
    cases converted
    exact (apart_bytes (Nat.le_refl _)).trails
  | .string none, v, _, converted, accepts => by
    obtain ⟨bytes, here, -, -⟩ := accepts
    change v = some bytes at here
    subst here
    cases converted
    exact (apart_text order (cut bytes)).trails
  | .string (some k), v, t, converted, accepts => by
    obtain ⟨bytes, here, -, -⟩ := accepts
    change v = some bytes at here
    subst here
    have text := copied_some converted
    change Trails True (textImage order t.bytes) (textImage order (cut bytes))
    rw [text]
    exact (apart_text order (cut bytes)).trails
  | .nested s, v, t, converted, accepts => (s.toTickle_trails v t converted accepts).nested
  | .array (.fixed n) e, v, t, converted, accepts => by
    change Exactly e.Val n at t
    have elements := (e.toTickle_trails v.1 t.1 (toTickle_fixed converted) accepts).1
    change Trails _ (andThen (fun _ => []) (e.image order t.1)) _
    rw [andThen_nothing]
    exact elements
  | .array (.varying k) e, v, t, converted, accepts => by
    change ArrayMode.Of e.Val (.varying k) at t
    obtain ⟨m, all, kept⟩ := toTickle_sequence converted
    obtain ⟨elements, part⟩ := e.toTickle_trails v m all accepts.2
    have pad := apart_padding e.headAlign_dvd
    change Trails _ (andThen (andThen (fun _ => order.store 2 (ArrayMode.elements t).length) (padImage e.headAlign))
      (e.image order (ArrayMode.elements t))) (andThen (fun _ => countImage order (List.length v)) _)
    rw [andThen_assoc, kept]
    by_cases few : List.length v < countEscape
    · have count : countImage order (List.length v) = order.store 2 (m.take (List.length v % 256 ^ 2)).length := by
        rw [take_narrow all few, ← all.length_eq]
        exact if_pos few
      have head := (apart_bytes (Nat.le_refl (countImage order (List.length v)).length)).trails
      rw [take_narrow all few] at count ⊢
      rw [← count]
      exact (head.andThen (pad.trails.andThen elements)).congr ⟨fun narrow => ⟨trivial, trivial, narrow.2⟩, fun narrow => ⟨few, narrow.2.2⟩⟩
    · have longer : (order.store 2 (m.take (List.length v % 256 ^ 2)).length).length + 4 ≤ (countImage order (List.length v)).length := by
        rw [countImage_length, if_neg few]
        simp
      exact trails_longer longer (fun narrow => few narrow.1) (pad.andThen (part _))

theorem Element.toTickle_trails : (e : Element) → (l : List (e.Ros c)) → (m : List e.Val) →
    List.Forall₂ (fun a b => e.toTickle a = some b) l m → (∀ a ∈ l, e.Accepts c a) →
    Trails (∀ a ∈ l, e.Narrow a) (e.image order m) (e.directImage c order l) ∧
      ∀ n, Apart (e.image order (m.take n)) (e.directImage c order l)
  | .scalar t, l, m, all, _ => by
    obtain ⟨same, part⟩ := scalars_trails order all
    exact ⟨same.congr (by simp [Element.Narrow]), part⟩
  | .string, l, m, all, accepts => by
    have one := ((List.forall₂_and_left l m).mpr ⟨accepts, all⟩).imp
      (S := fun a b => ∀ _ : Bool, Trails (Element.string.Narrow a) (pointerImage order b) (stringImage order (c.data a)))
      fun a b both _ => by
        obtain ⟨⟨bytes, here, -, -⟩, converted⟩ := both
        change a = some bytes at here
        subst here
        cases converted
        exact (apart_text order (cut bytes)).trails
    exact ⟨trails_each one true, apart_each_take one true⟩
  | .nested s, l, m, all, accepts => by
    have one := ((List.forall₂_and_left l m).mpr ⟨accepts, all⟩).imp
      (S := fun a b => ∀ first : Bool, Trails (s.Narrow a) (andThen (gapImage s.selfAlign first) fun _ => s.image order b 0)
        (andThen (gapImage s.selfAlign first) fun _ => s.directImage c order a 0))
      fun a b both first => by
        have gap := (apart_gap s.selfAlign_dvd first).trails
        exact (gap.andThen (s.toTickle_trails a b both.2 both.1).nested).congr (iff_of_eq (true_and _)).symm
    exact ⟨trails_each one true, apart_each_take one true⟩

theorem WireStruct.toTickle_trails : (s : WireStruct) → (v : s.Ros c) → (t : s.Val) → s.toTickle v = some t →
    s.Accepts c v → Trails (s.Narrow v) (s.image order t) (s.directImage c order v)
  | .nil, _, _, _, _ => apart_nothing.trails
  | .cons f rest, v, t, converted, accepts => by
    obtain ⟨a, here, behind⟩ := Option.bind_eq_some_iff.mp converted
    obtain ⟨b, there, rfl⟩ := Option.map_eq_some_iff.mp behind
    have pad := (apart_padding f.wireAlign_dvd).trails
    have fields := (f.toTickle_trails v.1 a here accepts.1).andThen (rest.toTickle_trails v.2 b there accepts.2)
    exact (pad.andThen fields).congr (iff_of_eq (true_and _)).symm

end

/-! ## The message that comes back -/

theorem clean_of {s : c.Str} {bytes : Bytes} (here : c.data s = some bytes) : c.clean s = some (cut bytes) := by
  unfold Language.clean
  rw [here]
  rfl

theorem forall₂_converted {α β γ : Type} {convert : α → Option β} {back : β → Option γ} {clean : α → γ} {good : α → Prop}
    {l : List α} {m : List β} (one : ∀ a b, convert a = some b → good a → back b = some (clean a))
    (all : List.Forall₂ (fun a b => convert a = some b) l m) (accepts : ∀ a ∈ l, good a) :
    List.Forall₂ (fun b c => back b = some c) m (l.map clean) := by
  induction all with
  | nil => exact List.Forall₂.nil
  | cons here _ ih =>
    have first := one _ _ here (accepts _ List.mem_cons_self)
    exact List.Forall₂.cons first (ih fun a member => accepts a (List.mem_cons_of_mem _ member))

mutual

theorem WireField.fromTickle_toTickle : (f : WireField) → (v : f.Ros c) → (t : f.Val) → f.toTickle v = some t →
    f.Accepts c v ∧ f.Narrow v → f.fromTickle t = some (f.clean c v)
  | .scalar k, v, _, converted, _ => by
    cases converted
    exact congrArg some (k.ofWord_toWord v)
  | .string none, v, _, converted, good => by
    obtain ⟨bytes, here, -, -⟩ := good.1
    change _ = some (c.clean v)
    rw [clean_of here]
    change v = some bytes at here
    subst here
    cases converted
    rfl
  | .string (some k), v, t, converted, good => by
    obtain ⟨bytes, here, -, -⟩ := good.1
    change some (some t.bytes) = some (c.clean v)
    rw [clean_of here]
    change v = some bytes at here
    subst here
    rw [copied_some converted]
    rfl
  | .nested s, v, t, converted, good => s.fromTickle_toTickle v t converted good
  | .array (.fixed n) e, v, t, converted, good => by
    change Exactly e.Val n at t
    have each : ∀ a ∈ v.1, e.Accepts c a ∧ e.Narrow a := fun a member => ⟨good.1 a member, good.2 a member⟩
    have all : List.Forall₂ _ t.1 _ := forall₂_converted e.fromTickle_toTickle (toTickle_fixed converted) each
    change (convertAll e.fromTickle t.1).map (resized t.2) = _
    rw [convertAll_of all]
    rfl
  | .array (.varying k) e, v, t, converted, good => by
    change ArrayMode.Of e.Val (.varying k) at t
    obtain ⟨m, all, kept⟩ := toTickle_sequence converted
    rw [take_narrow all good.2.1] at kept
    have each : ∀ a ∈ (show List (e.Ros c) from v), e.Accepts c a ∧ e.Narrow a :=
      fun a member => ⟨good.1.2 a member, good.2.2 a member⟩
    have all := forall₂_converted e.fromTickle_toTickle all each
    change (convertAll e.fromTickle (ArrayMode.elements t)).map Subtype.val = _
    rw [kept, convertAll_of all]
    rfl

theorem Element.fromTickle_toTickle : (e : Element) → (v : e.Ros c) → (t : e.Val) → e.toTickle v = some t →
    e.Accepts c v ∧ e.Narrow v → e.fromTickle t = some (e.clean c v)
  | .scalar k, v, _, converted, _ => by
    cases converted
    exact congrArg some (k.ofWord_toWord v)
  | .string, v, _, converted, good => by
    obtain ⟨bytes, here, -, -⟩ := good.1
    change _ = some (c.clean v)
    rw [clean_of here]
    change v = some bytes at here
    subst here
    cases converted
    rfl
  | .nested s, v, t, converted, good => s.fromTickle_toTickle v t converted good

theorem WireStruct.fromTickle_toTickle : (s : WireStruct) → (v : s.Ros c) → (t : s.Val) → s.toTickle v = some t →
    s.Accepts c v ∧ s.Narrow v → s.fromTickle t = some (s.clean c v)
  | .nil, _, _, _, _ => rfl
  | .cons f rest, v, t, converted, good => by
    obtain ⟨a, here, behind⟩ := Option.bind_eq_some_iff.mp converted
    obtain ⟨b, there, rfl⟩ := Option.map_eq_some_iff.mp behind
    have one := f.fromTickle_toTickle v.1 a here ⟨good.1.1, good.2.1⟩
    have others := rest.fromTickle_toTickle v.2 b there ⟨good.1.2, good.2.2⟩
    change ((f.fromTickle a).bind fun a => (rest.fromTickle b).map (Prod.mk a)) = _
    rw [one, others]
    rfl

end

theorem forall₂_short {α β : Type} {convert : α → Option β} {good : α → Prop} {short : β → Prop} {l : List α} {m : List β}
    (one : ∀ a b, convert a = some b → good a → short b) (all : List.Forall₂ (fun a b => convert a = some b) l m)
    (accepts : ∀ a ∈ l, good a) : ∀ b ∈ m, short b := by
  induction all with
  | nil => simp
  | cons here _ ih =>
    have first := one _ _ here (accepts _ List.mem_cons_self)
    exact List.forall_mem_cons.mpr ⟨first, ih fun a member => accepts a (List.mem_cons_of_mem _ member)⟩

mutual

/-- A direct codec takes no string longer than its length on the wire can say, so neither does what it converts to hold
one. -/
theorem WireField.toTickle_short : (f : WireField) → (v : f.Ros c) → (t : f.Val) → f.toTickle v = some t →
    f.Accepts c v → f.ShortTexts t
  | .scalar _, _, _, _, _ => trivial
  | .string none, _, _, _, _ => trivial
  | .string (some k), v, t, converted, accepts => by
    obtain ⟨bytes, here, -, short⟩ := accepts
    change v = some bytes at here
    subst here
    change t.bytes.length < maxStringLength
    rw [copied_some converted]
    exact short
  | .nested s, v, t, converted, accepts => s.toTickle_short v t converted accepts
  | .array (.fixed n) e, v, t, converted, accepts => forall₂_short e.toTickle_short (toTickle_fixed converted) accepts
  | .array (.varying k) e, v, t, converted, accepts => by
    change ArrayMode.Of e.Val (.varying k) at t
    obtain ⟨m, all, kept⟩ := toTickle_sequence converted
    have short := forall₂_short e.toTickle_short all accepts.2
    intro b member
    rw [kept] at member
    exact short b (List.mem_of_mem_take member)

theorem Element.toTickle_short : (e : Element) → (v : e.Ros c) → (t : e.Val) → e.toTickle v = some t →
    e.Accepts c v → e.ShortTexts t
  | .scalar _, _, _, _, _ => trivial
  | .string, _, _, _, _ => trivial
  | .nested s, v, t, converted, accepts => s.toTickle_short v t converted accepts

theorem WireStruct.toTickle_short : (s : WireStruct) → (v : s.Ros c) → (t : s.Val) → s.toTickle v = some t →
    s.Accepts c v → s.ShortTexts t
  | .nil, _, _, _, _ => trivial
  | .cons f rest, v, t, converted, accepts => by
    obtain ⟨a, here, behind⟩ := Option.bind_eq_some_iff.mp converted
    obtain ⟨b, there, rfl⟩ := Option.map_eq_some_iff.mp behind
    exact ⟨f.toTickle_short v.1 a here accepts.1, rest.toTickle_short v.2 b there accepts.2⟩

end

/-! ## C and C++ -/

theorem imageEach_map {α β : Type} {each : Bool → β → Nat → Bytes} {each' : Bool → α → Nat → Bytes} {f : α → β}
    (one : ∀ first a, each first (f a) = each' first a) (first : Bool) (l : List α) :
    imageEach each first (l.map f) = imageEach each' first l := by
  induction l generalizing first with
  | nil => rfl
  | cons a l ih => simp only [List.map_cons, imageEach, one, ih]

mutual

theorem WireField.directImage_asC : (f : WireField) → (w : f.Ros cpp) →
    f.directImage c order (f.asC w) = f.directImage cpp order w
  | .scalar _, _ => rfl
  | .string _, _ => rfl
  | .nested s, w => by
    funext cursor
    exact congrFun (s.directImage_asC w) 0
  | .array (.fixed _) e, w => e.directImage_asC w.1
  | .array (.varying _) e, w => by
    change List (e.Ros cpp) at w
    change andThen (fun _ => countImage order (List.map e.asC w).length)
      (andThen (padImage e.headAlign) (e.directImage c order (List.map e.asC w))) = _
    rw [e.directImage_asC w, List.length_map]
    rfl

theorem Element.directImage_asC : (e : Element) → (l : List (e.Ros cpp)) →
    e.directImage c order (l.map e.asC) = e.directImage cpp order l
  | .scalar _, l => congrArg (fun l => fun _ => List.flatMap _ l) (List.map_id l)
  | .string, l => imageEach_map (fun _ _ => rfl) true l
  | .nested s, l => imageEach_map (fun first a => by rw [show (Element.nested s).asC a = s.asC a from rfl, s.directImage_asC a]) true l

theorem WireStruct.directImage_asC : (s : WireStruct) → (w : s.Ros cpp) →
    s.directImage c order (s.asC w) = s.directImage cpp order w
  | .nil, _ => rfl
  | .cons f rest, w => by
    change andThen (padImage f.wireAlign) (andThen (f.directImage c order (f.asC w.1)) (rest.directImage c order (rest.asC w.2))) = _
    rw [f.directImage_asC w.1, rest.directImage_asC w.2]
    rfl

end

mutual

theorem WireField.clean_asC : (f : WireField) → (w : f.Ros cpp) → f.clean c (f.asC w) = f.asC (f.clean cpp w)
  | .scalar _, _ => rfl
  | .string _, _ => rfl
  | .nested s, w => s.clean_asC w
  | .array (.fixed _) e, w => Subtype.ext (e.clean_asC w.1)
  | .array (.varying _) e, w => e.clean_asC w

theorem Element.clean_asC : (e : Element) → (l : List (e.Ros cpp)) →
    (l.map e.asC).map (e.clean c) = (l.map (e.clean cpp)).map e.asC
  | .scalar _, l => by
    rw [List.map_map, List.map_map]
    rfl
  | .string, l => by
    rw [List.map_map, List.map_map]
    rfl
  | .nested s, l => by
    rw [List.map_map, List.map_map]
    exact List.map_congr_left fun a _ => s.clean_asC a

theorem WireStruct.clean_asC : (s : WireStruct) → (w : s.Ros cpp) → s.clean c (s.asC w) = s.asC (s.clean cpp w)
  | .nil, _ => rfl
  | .cons f rest, w => congrArg₂ Prod.mk (f.clean_asC w.1) (rest.clean_asC w.2)

end

/-! ## The three paths -/

section Direct

variable (host sender : ByteOrder) {L : Language} {s : WireStruct} {v : s.Ros L} {n : Nat}

theorem WireStruct.directEncode_eq (measured : s.directEncodeSize L v = .ok n) (len : Nat) :
    s.directEncode L host v len = if n ≤ len then .ok (s.directImage L host v 0) else .error .short := by
  obtain ⟨rfl, below, accepts⟩ := WireStruct.directEncodeSize_ok L host measured
  have written := s.directEncodeFields_puts L host (some 0) v accepts len [] known_zero (Nat.zero_le _)
    (by simp only [List.length_nil, Nat.zero_add]; exact below)
  simp only [List.length_nil, Nat.zero_add, List.nil_append] at written
  exact written

theorem WireStruct.directDecode_image (measured : s.directEncodeSize L v = .ok n) :
    s.directDecodeFields plain L host (decide (host = sender)) (some 0) (s.directImage L sender v 0) 0 =
      .ok (s.clean L v, n) := by
  obtain ⟨rfl, below, accepts⟩ := WireStruct.directEncodeSize_ok L sender measured
  have read := s.directDecodeFields_takes L host sender (some 0) v accepts [] [] known_zero
    (by simp only [List.length_nil, Nat.zero_add]; exact below)
  simp only [List.length_nil, Nat.zero_add, List.nil_append, List.append_nil] at read
  exact read

end Direct

namespace Path

variable {s : WireStruct} {w : s.Ros cpp} {n : Nat}

/-- What the two-step path measures is what `to_tickle` made of the message. -/
theorem twoStep_converted (measured : encodeSize s w .twoStep = .ok n) :
    ∃ t, s.toTickle (s.asC w) = some t ∧ s.encodeSize t = .ok n := by
  unfold encodeSize at measured
  cases converted : s.toTickle (s.asC w) with
  | none =>
    rw [converted] at measured
    cases measured
  | some t =>
    rw [converted] at measured
    exact ⟨t, rfl, measured⟩

theorem length_eq (accepts : s.Accepts c (s.asC w)) (narrow : s.Narrow (s.asC w)) {p : Path}
    (measured : p.encodeSize s w = .ok n) : n = (s.directImage c order (s.asC w) 0).length := by
  cases p with
  | direct => exact (WireStruct.directEncodeSize_ok c order measured).1
  | directCpp =>
    rw [s.directImage_asC order w]
    exact (WireStruct.directEncodeSize_ok cpp order measured).1
  | twoStep =>
    obtain ⟨t, converted, sized⟩ := twoStep_converted measured
    rw [← (s.toTickle_trails order _ t converted accepts).same narrow]
    exact (WireStruct.encodeSize_ok order sized).1

theorem encode_eq (accepts : s.Accepts c (s.asC w)) (narrow : s.Narrow (s.asC w)) {p : Path}
    (measured : p.encodeSize s w = .ok n) (host : ByteOrder) (len : Nat) :
    p.encode s host w len = if n ≤ len then .ok (s.directImage c host (s.asC w) 0) else .error .short := by
  cases p with
  | direct => exact WireStruct.directEncode_eq host measured len
  | directCpp =>
    rw [s.directImage_asC host w]
    exact WireStruct.directEncode_eq host measured len
  | twoStep =>
    obtain ⟨t, converted, sized⟩ := twoStep_converted measured
    unfold encode
    rw [converted, ← (s.toTickle_trails host _ t converted accepts).same narrow]
    exact WireStruct.encode_eq host sized len

theorem decode_eq (accepts : s.Accepts c (s.asC w)) (narrow : s.Narrow (s.asC w)) {p : Path}
    (measured : p.encodeSize s w = .ok n) (host sender : ByteOrder) :
    p.decode s host (decide (host = sender)) (s.directImage c sender (s.asC w) 0) = .ok (s.clean c (s.asC w), n) := by
  cases p with
  | direct => exact WireStruct.directDecode_image host sender measured
  | directCpp =>
    unfold decode
    rw [s.directImage_asC sender w, s.clean_asC w, WireStruct.directDecode_image host sender measured]
    rfl
  | twoStep =>
    obtain ⟨t, converted, sized⟩ := twoStep_converted measured
    have short := s.toTickle_short _ t converted accepts
    have back := s.fromTickle_toTickle _ t converted ⟨accepts, narrow⟩
    unfold decode
    rw [← (s.toTickle_trails sender _ t converted accepts).same narrow, WireStruct.decode_image host sender sized,
      verdict_of short]
    change (s.fromTickle t).elim (Except.error Stop.refused) _ = _
    rw [back]
    rfl

/-- The message goes one way by all paths: each tells the same size and writes the same bytes, on a host of either order and
into a buffer of any length, and reads the message out of what another wrote, on a host of the same order or the other.
A string comes back up to its first NUL. -/
structure Interoperate (s : WireStruct) (w : s.Ros cpp) : Prop where
  size : ∀ p q : Path, p.encodeSize s w = q.encodeSize s w
  bytes : ∀ (p q : Path) host len, p.encode s host w len = q.encode s host w len
  message : ∀ (p q : Path) host sender len bytes, q.encode s sender w len = .ok bytes →
    p.decode s host (decide (host = sender)) bytes = .ok (s.clean c (s.asC w), bytes.length)

theorem interoperate_of_narrow (accepted : ∀ p : Path, ∃ n, p.encodeSize s w = .ok n) (narrow : s.Narrow (s.asC w)) :
    Interoperate s w := by
  have accepts : s.Accepts c (s.asC w) := by
    obtain ⟨n, measured⟩ := accepted .direct
    exact (WireStruct.directEncodeSize_ok c .little measured).2.2
  have sized : ∀ (p : Path) order, p.encodeSize s w = .ok (s.directImage c order (s.asC w) 0).length := by
    intro p order
    obtain ⟨n, measured⟩ := accepted p
    rw [measured, length_eq order accepts narrow measured]
  refine ⟨fun p q => ?_, fun p q host len => ?_, fun p q host sender len bytes written => ?_⟩
  · rw [sized p .little, sized q .little]
  · rw [encode_eq accepts narrow (sized p host), encode_eq accepts narrow (sized q host)]
  · rw [encode_eq accepts narrow (sized q sender)] at written
    split at written
    · cases written
      exact decode_eq accepts narrow (sized p sender) host sender
    · cases written

/-- A count cut to two bytes makes the two-step path shorter than the direct one, whatever follows. -/
theorem sizes_differ_of_wide {m : Nat} (direct : encodeSize s w .direct = .ok m) (twoStep : encodeSize s w .twoStep = .ok n)
    (wide : ¬ s.Narrow (s.asC w)) : n + 4 ≤ m := by
  obtain ⟨rfl, -, accepts⟩ := WireStruct.directEncodeSize_ok c .little direct
  obtain ⟨t, converted, sized⟩ := twoStep_converted twoStep
  obtain ⟨rfl, -, -⟩ := WireStruct.encodeSize_ok .little sized
  exact (s.toTickle_trails .little _ t converted accepts).shorter wide 0

/-- The direct codecs are the two-step one on a message all of them accept, if and only if each of its sequences has fewer
than 65,535 elements. -/
theorem interoperate_iff_narrow (s : WireStruct) (w : s.Ros cpp) (accepted : ∀ p : Path, ∃ n, p.encodeSize s w = .ok n) :
    Interoperate s w ↔ s.Narrow (s.asC w) := by
  constructor
  · intro all
    by_contra wide
    obtain ⟨m, direct⟩ := accepted .direct
    obtain ⟨n, twoStep⟩ := accepted .twoStep
    have apart := sizes_differ_of_wide direct twoStep wide
    have same := all.size .direct .twoStep
    rw [direct, twoStep] at same
    cases same
    omega
  · exact interoperate_of_narrow accepted

/-- `labelled` as C++ holds it. -/
def labelledMessage : labelled.Ros cpp := (word 1 7, [104, 105], [word 4 5, word 4 6], ())

theorem labelledMessage_interoperates : (∀ p : Path, p.encodeSize labelled labelledMessage = .ok 20) ∧
    Interoperate labelled labelledMessage := by
  have sized : ∀ p : Path, p.encodeSize labelled labelledMessage = .ok 20 := by
    intro p
    cases p <;> decide
  refine ⟨sized, (interoperate_iff_narrow labelled labelledMessage fun p => ⟨20, sized p⟩).mpr ?_⟩
  refine ⟨trivial, trivial, ⟨?_, fun _ _ => trivial⟩, trivial⟩
  decide

/-- `uint8[<=65535] data`. -/
def blob : WireStruct := .cons (.array (.varying ⟨65535, .bounded⟩) (.scalar .uint8)) .nil

def fullBlob : blob.Ros cpp := (List.replicate 65535 (word 1 0), ())

theorem blob_directEncodeSize {L : Language} {l : List (Word 1)} (full : l.length = 65535) :
    blob.directEncodeSize L (l, ()) = .ok 65541 := by
  change (((directCountSize (some 65535) l.length 0 >>= fun size => Except.ok (directPaddingSize 1 size + l.length * 1)) >>=
    fun size => Except.ok size) >>= fitsInt32) = _
  rw [full]
  decide

theorem blob_encodeSize {t : ArrayMode.Of (Word 1) (.varying ⟨65535, .bounded⟩)} (full : (ArrayMode.elements t).length = 65535) :
    blob.encodeSize (t, ()) = .ok 65537 := by
  change ((countOfSize (.varying ⟨65535, .bounded⟩) (ArrayMode.elements t).length 0 >>= fun size =>
    paddingSize (.varying ⟨65535, .bounded⟩) 1 size >>= fun size => int32 (size + (ArrayMode.elements t).length * 1)) >>=
    fun size => Except.ok size) = _
  rw [full]
  decide

theorem blob_toTickle {l : List (Word 1)} (full : l.length = 65535) :
    ∃ t : ArrayMode.Of (Word 1) (.varying ⟨65535, .bounded⟩),
      blob.toTickle (l, ()) = some (t, ()) ∧ (ArrayMode.elements t).length = 65535 := by
  have each : List.Forall₂ (fun a b : Word 1 => (Element.scalar .uint8).toTickle a = some b) l l :=
    List.forall₂_same.mpr fun _ _ => rfl
  have within : l.length ≤ 65535 := full.le
  refine ⟨truncated within ⟨l, rfl⟩, ?_, ?_⟩
  · change ((if within : l.length ≤ 65535 then (convertAll (Element.scalar .uint8).toTickle l).map (truncated within)
      else none).bind fun a => some (a, ())) = _
    rw [dif_pos within]
    exact congrArg (fun r => (Option.map (truncated within) r).bind fun a => some (a, ())) (convertAll_of each)
  · change (l.take (l.length % 256 ^ 2)).length = 65535
    rw [List.length_take, full]
    decide

/-- 65,535 bytes: the direct codecs write 6 bytes of count, the other path 2. -/
theorem fullBlob_apart : encodeSize blob fullBlob .direct = .ok 65541 ∧ encodeSize blob fullBlob .directCpp = .ok 65541 ∧
    encodeSize blob fullBlob .twoStep = .ok 65537 ∧ ¬ Interoperate blob fullBlob := by
  have direct : encodeSize blob fullBlob .direct = .ok 65541 :=
    blob_directEncodeSize ((List.length_map _).trans List.length_replicate)
  have directCpp : encodeSize blob fullBlob .directCpp = .ok 65541 := blob_directEncodeSize List.length_replicate
  have twoStep : encodeSize blob fullBlob .twoStep = .ok 65537 := by
    obtain ⟨t, converted, full⟩ := blob_toTickle (l := (blob.asC fullBlob).1) ((List.length_map _).trans List.length_replicate)
    change (blob.toTickle ((blob.asC fullBlob).1, ())).elim (Except.error Stop.refused) blob.encodeSize = _
    rw [converted]
    exact blob_encodeSize full
  refine ⟨direct, directCpp, twoStep, fun all => ?_⟩
  have same := all.size .direct .twoStep
  rw [direct, twoStep] at same
  cases same

end Path

end TypeSupport

end Tickle
