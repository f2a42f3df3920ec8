import Tickle.Codec.DirectImage

/-! # What a payload can make a direct decoder do

Whatever the bytes, a decoder should allocate for a sequence no more elements than the rest of the payload can hold,
and step over no more than it carries. The scalars and strings of a sequence are looked for before they are allocated
(`Element.directDecodeSequence`); nested messages are not, and a type with a sequence of them falls to a count with nothing behind it.
-/

namespace Tickle

namespace TypeSupport

open Cursor

/-- A sequence allocated: its elements, the bytes of the payload ahead of the cursor, and the least an element takes. -/
structure Allocation where
  count : Nat
  left : Nat
  unit : Nat
  deriving DecidableEq, Repr

/-- The bytes left could hold the elements. -/
def Allocation.Within (a : Allocation) : Prop := a.count * a.unit ≤ a.left

structure Ledger where
  allocations : List Allocation
  steps : Nat
  deriving DecidableEq, Repr

def Ledger.start : Ledger := ⟨[], 0⟩

/-- A decoder that keeps the ledger, also of a run that fails. -/
def Metered (α : Type) : Type := Ledger → Result α × Ledger

namespace Metered

variable {α β : Type}

def pure (a : α) : Metered α := fun σ => (.ok a, σ)

def bind (d : Metered α) (f : α → Metered β) : Metered β := fun σ =>
  match d σ with
  | (.ok a, σ) => f a σ
  | (.error e, σ) => (.error e, σ)

instance : Monad Metered where
  pure := pure
  bind := bind

end Metered

def metered : Machine Metered where
  lift r := fun σ => (r, σ)
  allocate count left unit := fun σ => (.ok (), { σ with allocations := ⟨count, left, unit⟩ :: σ.allocations })
  step n := fun σ => (.ok (), { σ with steps := σ.steps + n })

/-- A run of a type's decoder over a payload. -/
def WireStruct.meter (s : WireStruct) (L : Language) (host : ByteOrder) (isNativeEndian : Bool) (payload : Bytes) :
    Result (s.Ros L × Nat) × Ledger :=
  s.directDecodeFields metered L host isNativeEndian (some 0) payload 0 Ledger.start

/-! ## Types -/

mutual

/-- No sequence of nested messages, at any depth. -/
def WireField.Flat : WireField → Prop
  | .scalar _ => True
  | .string _ => True
  | .nested s => s.Flat
  | .array (.fixed _) e => e.Flat
  | .array (.varying _) (.nested _) => False
  | .array (.varying _) _ => True

def Element.Flat : Element → Prop
  | .scalar _ => True
  | .string => True
  | .nested s => s.Flat

def WireStruct.Flat : WireStruct → Prop
  | .nil => True
  | .cons f rest => f.Flat ∧ rest.Flat

end

mutual

/-- The elements of fixed arrays of nested messages: as many steps, whatever the payload. -/
def WireField.loops : WireField → Nat
  | .scalar _ => 0
  | .string _ => 0
  | .nested s => s.loops
  | .array (.fixed n) (.nested s) => n * (s.loops + 1)
  | .array _ _ => 0

def WireStruct.loops : WireStruct → Nat
  | .nil => 0
  | .cons f rest => f.loops + rest.loops

end

/-! ## Bounded runs -/

section Bounded

variable {α β : Type} {len cursor cursor' k k' : Nat}

/-- What a run from `cursor` did to the ledger: it allocated within the payload, and stepped over no more elements than
the bytes it took, `k` and the one it failed at. -/
def Charged (len cursor k : Nat) (σ : Ledger) : Result (α × Nat) × Ledger → Prop
  | (.ok r, τ) => (∀ a ∈ τ.allocations, a ∈ σ.allocations ∨ a.Within) ∧
      cursor ≤ r.2 ∧ r.2 ≤ len ∧ τ.steps ≤ σ.steps + k + (r.2 - cursor)
  | (.error _, τ) => (∀ a ∈ τ.allocations, a ∈ σ.allocations ∨ a.Within) ∧
      τ.steps ≤ σ.steps + k + (len - cursor) + 1

def Bounded (len cursor k : Nat) (d : Metered (α × Nat)) : Prop := ∀ σ, Charged len cursor k σ (d σ)

/-- A run charged after another one is charged with it. -/
theorem Charged.after {σ τ : Ledger} {out : Result (α × Nat) × Ledger} (later : Charged len cursor' k' τ out)
    (old : ∀ a ∈ τ.allocations, a ∈ σ.allocations ∨ a.Within) (after : cursor ≤ cursor') (within : cursor' ≤ len)
    (paid : τ.steps ≤ σ.steps + k + (cursor' - cursor)) : Charged len cursor (k + k') σ out := by
  obtain ⟨r, υ⟩ := out
  have all : (∀ a ∈ υ.allocations, a ∈ τ.allocations ∨ a.Within) → ∀ a ∈ υ.allocations, a ∈ σ.allocations ∨ a.Within := by
    intro more a member
    obtain before | fine := more a member
    · exact old a before
    · exact Or.inr fine
  cases r with
  | ok r =>
    obtain ⟨more, here, there, steps⟩ := later
    exact ⟨all more, by omega, there, by omega⟩
  | error e =>
    obtain ⟨more, steps⟩ := later
    exact ⟨all more, by omega⟩

theorem Charged.later {σ τ : Ledger} {out : Result (α × Nat) × Ledger} (charged : Charged len cursor' k τ out)
    (old : ∀ a ∈ τ.allocations, a ∈ σ.allocations ∨ a.Within) (after : cursor ≤ cursor') (within : cursor' ≤ len)
    (paid : τ.steps ≤ σ.steps + (cursor' - cursor)) : Charged len cursor k σ out := by
  have together := charged.after old after within (show τ.steps ≤ σ.steps + 0 + (cursor' - cursor) from paid)
  rw [Nat.zero_add] at together
  exact together

theorem Bounded.earlier {d : Metered (α × Nat)} (bounded : Bounded len cursor' k d) (before : cursor ≤ cursor')
    (within : cursor' ≤ len) : Bounded len cursor k d :=
  fun σ => (bounded σ).later (fun _ member => Or.inl member) before within (Nat.le_add_right _ _)

theorem bounded_lift {r : Result β} {f : β → Metered (α × Nat)}
    (then_ : ∀ b, r = .ok b → Bounded len cursor k (f b)) : Bounded len cursor k (metered.lift r >>= f) := by
  intro σ
  cases r with
  | ok b => exact then_ b rfl σ
  | error e =>
    refine ⟨fun a member => Or.inl member, ?_⟩
    omega

theorem bounded_read {r : Result (α × Nat)} (found : ∀ a, r = .ok a → cursor ≤ a.2 ∧ a.2 ≤ len) :
    Bounded len cursor k (metered.lift r) := by
  intro σ
  cases r with
  | ok a =>
    obtain ⟨after, within⟩ := found a rfl
    exact ⟨fun x member => Or.inl member, after, within, by omega⟩
  | error e =>
    refine ⟨fun a member => Or.inl member, ?_⟩
    omega

theorem bounded_allocate {count left unit : Nat} {f : Unit → Metered (α × Nat)} (within : count * unit ≤ left)
    (then_ : Bounded len cursor k (f ())) (there : cursor ≤ len) :
    Bounded len cursor k (metered.allocate count left unit >>= f) := by
  intro σ
  have charged := then_ { σ with allocations := ⟨count, left, unit⟩ :: σ.allocations }
  have old : ∀ a ∈ (⟨count, left, unit⟩ :: σ.allocations : List Allocation), a ∈ σ.allocations ∨ a.Within := by
    intro a member
    cases member with
    | head => exact Or.inr within
    | tail _ member => exact Or.inl member
  exact charged.later old (Nat.le_refl cursor) there (Nat.le_add_right _ _)

theorem Bounded.bind {d : Metered (α × Nat)} {f : α × Nat → Metered (β × Nat)} (one : Bounded len cursor k d)
    (two : ∀ a cursor', cursor ≤ cursor' → cursor' ≤ len → Bounded len cursor' k' (f (a, cursor'))) :
    Bounded len cursor (k + k') (d >>= f) := by
  intro σ
  have charged := one σ
  change Charged len cursor (k + k') σ (Metered.bind d f σ)
  unfold Metered.bind
  rcases run : d σ with ⟨r, τ⟩
  rw [run] at charged
  cases r with
  | error e =>
    obtain ⟨old, steps⟩ := charged
    exact ⟨old, by omega⟩
  | ok r =>
    obtain ⟨a, cursor'⟩ := r
    obtain ⟨old, after, within, paid⟩ := charged
    exact (two a cursor' after within τ).after old after within paid

theorem bounded_pure {a : α} (after : cursor ≤ cursor') (within : cursor' ≤ len) :
    Bounded len cursor k (pure (a, cursor') : Metered (α × Nat)) := by
  intro σ
  exact ⟨fun x member => Or.inl member, after, within, by omega⟩

theorem Bounded.map {d : Metered (α × Nat)} (one : Bounded len cursor k d) (g : α → β) :
    Bounded len cursor k (d >>= fun r => pure (g r.1, r.2)) := by
  have both : Bounded len cursor (k + 0) (d >>= fun r => pure (g r.1, r.2)) := by
    apply Bounded.bind one
    intro a cursor' _ within
    exact bounded_pure (Nat.le_refl cursor') within
  exact both

/-- Steps paid for by the bytes taken. -/
theorem bounded_steps {a : α} {n : Nat} (after : cursor + n ≤ cursor') (within : cursor' ≤ len) :
    Bounded len cursor k (metered.step n >>= fun _ => pure (a, cursor')) := by
  intro σ
  refine ⟨fun x member => Or.inl member, ?_, within, ?_⟩
  · omega
  · change σ.steps + n ≤ σ.steps + k + (cursor' - cursor)
    omega

/-- A loop whose elements each take a byte or more. -/
theorem bounded_each {read : Bool → Bytes → Nat → Metered (α × Nat)} {payload : Bytes}
    (one : ∀ first cursor, cursor ≤ len → ∃ r : Result (α × Nat), read first payload cursor = metered.lift r ∧
      ∀ a, r = .ok a → cursor < a.2 ∧ a.2 ≤ len) (n : Nat) (first : Bool) (there : cursor ≤ len) :
    Bounded len cursor 0 (readEach metered read n first payload cursor) := by
  induction n generalizing first cursor with
  | zero => exact bounded_pure (Nat.le_refl cursor) there
  | succ n ih =>
    intro σ
    obtain ⟨r, same, found⟩ := one first cursor there
    have unfolded : readEach metered read (n + 1) first payload cursor σ = (metered.lift r >>= fun a =>
        readEach metered read n false payload a.2 >>= fun l => pure (Exactly.cons a.1 l.1, l.2))
          { σ with steps := σ.steps + 1 } := by
      rw [← same]
      rfl
    rw [unfolded]
    cases r with
    | error e => exact ⟨fun a member => Or.inl member, by change σ.steps + 1 ≤ _; omega⟩
    | ok a =>
      obtain ⟨after, within⟩ := found a rfl
      have rest := (ih false within).map (Exactly.cons a.1)
      have paid : σ.steps + 1 ≤ σ.steps + (a.2 - cursor) := by omega
      exact (rest { σ with steps := σ.steps + 1 }).later (fun _ member => Or.inl member) after.le within paid

/-- A loop over elements that may take nothing: each is paid for beforehand. -/
theorem bounded_each_fixed {read : Bool → Bytes → Nat → Metered (α × Nat)} {payload : Bytes}
    (one : ∀ first cursor, cursor ≤ len → Bounded len cursor k (read first payload cursor)) (n : Nat) (first : Bool)
    (there : cursor ≤ len) : Bounded len cursor (n * (k + 1)) (readEach metered read n first payload cursor) := by
  induction n generalizing first cursor with
  | zero => exact bounded_pure (Nat.le_refl cursor) there
  | succ n ih =>
    intro σ
    have element : Bounded len cursor (k + n * (k + 1)) (read first payload cursor >>= fun a =>
        readEach metered read n false payload a.2 >>= fun l => pure (Exactly.cons a.1 l.1, l.2)) :=
      (one first cursor there).bind fun a _ _ within => (ih false within).map (Exactly.cons a)
    have paid : σ.steps + 1 ≤ σ.steps + 1 + (cursor - cursor) := Nat.le_add_right _ _
    have kept : ∀ a ∈ σ.allocations, a ∈ σ.allocations ∨ a.Within := fun _ member => Or.inl member
    have charged := (element { σ with steps := σ.steps + 1 }).after kept (Nat.le_refl cursor) there paid
    have total : 1 + (k + n * (k + 1)) = (n + 1) * (k + 1) := by
      rw [Nat.succ_mul]
      omega
    rw [total] at charged
    exact charged

end Bounded

/-! ## Where the readers leave the cursor -/

theorem advance_ok {len k cursor next : Nat} (h : advance len k cursor = .ok next) :
    next = cursor + k ∧ cursor + k ≤ len := by
  unfold advance at h
  split at h
  · cases h
  · obtain ⟨rfl, -⟩ := int32_ok h
    exact ⟨rfl, by omega⟩

theorem skip_ok {len k cursor next : Nat} (h : skip len k cursor = .ok next) :
    next = cursor + k ∧ cursor + k ≤ len := by
  unfold skip at h
  cases sum : int32 (cursor + k) with
  | error e => simp [sum] at h
  | ok m =>
    obtain ⟨rfl, -⟩ := int32_ok sum
    simp only [sum] at h
    split at h
    · cases h
    · cases h
      exact ⟨rfl, by omega⟩

theorem WireField.alignDecode_ok {f : WireField} {offset : Option Nat} {payload : Bytes} {decoded next : Nat}
    (h : f.alignDecode offset payload decoded = .ok next) (there : decoded ≤ payload.length) :
    decoded ≤ next ∧ next ≤ payload.length := by
  unfold WireField.alignDecode at h
  split at h
  · cases h
    exact ⟨Nat.le_refl _, there⟩
  · split at h
    · cases h
      exact ⟨Nat.le_refl _, there⟩
    · obtain ⟨rfl, within⟩ := advance_ok h
      exact ⟨Nat.le_add_right _ _, within⟩
    · obtain ⟨rfl, within⟩ := skip_ok h
      exact ⟨Nat.le_add_right _ _, within⟩

theorem decodeGap_ok {align : Nat} {first : Bool} {payload : Bytes} {decoded next : Nat}
    (h : decodeGap align first payload decoded = .ok next) (there : decoded ≤ payload.length) :
    decoded ≤ next ∧ next ≤ payload.length := by
  unfold decodeGap at h
  split at h
  · cases h
    exact ⟨Nat.le_refl _, there⟩
  · split at h
    · cases h
      exact ⟨Nat.le_refl _, there⟩
    · obtain ⟨rfl, within⟩ := skip_ok h
      exact ⟨Nat.le_add_right _ _, within⟩

theorem decodeText_ok {host : ByteOrder} {native : Bool} {bound : Option Nat} {payload : Bytes} {decoded : Nat}
    {t : Text bound × Nat} (h : decodeText host native bound payload decoded = .ok t) :
    decoded < t.2 ∧ t.2 ≤ payload.length := by
  unfold decodeText at h
  obtain ⟨strLen, -, h⟩ := bind_ok h
  simp only at h
  split at h
  · cases h
  · split at h
    · cases h
    · obtain ⟨d, two, h⟩ := bind_ok h
      obtain ⟨rfl, -⟩ := int32_ok two
      split at h
      · cases h
      · split at h
        · obtain ⟨next, sum, h⟩ := bind_ok h
          obtain ⟨rfl, -⟩ := int32_ok sum
          obtain ⟨last, skipped, h⟩ := bind_ok h
          obtain ⟨rfl, within⟩ := skip_ok skipped
          cases h
          simp only
          omega
        · cases h

theorem directDecodeText_ok {L : Language} {host : ByteOrder} {native : Bool} {bound : Option Nat} {payload : Bytes}
    {decoded : Nat} {t : L.Str × Nat} (h : directDecodeText L host native bound payload decoded = .ok t) :
    decoded < t.2 ∧ t.2 ≤ payload.length := by
  obtain ⟨text, found, h⟩ := bind_ok h
  cases h
  exact decodeText_ok found

theorem directPeekCount_ok {host : ByteOrder} {native : Bool} {bound : Option Nat} {payload : Bytes} {decoded : Nat}
    {counted : Nat × Nat} (h : directPeekCount host native bound payload decoded = .ok counted) :
    decoded ≤ counted.2 ∧ counted.2 ≤ payload.length := by
  unfold directPeekCount at h
  obtain ⟨short, peeked, h⟩ := bind_ok h
  have two : decoded + 2 ≤ payload.length := by
    unfold peekCount at peeked
    split at peeked
    · cases peeked
    · omega
  obtain ⟨wide, found, h⟩ := bind_ok h
  have placed : decoded ≤ wide.2 ∧ wide.2 + 2 ≤ payload.length := by
    unfold escapedCount at found
    split at found
    · split at found
      · cases found
      · cases sum : int32 (decoded + 4) with
        | error e => simp [sum, Except.map] at found
        | ok next =>
          obtain ⟨rfl, -⟩ := int32_ok sum
          simp only [sum, Except.map, Except.ok.injEq] at found
          rw [← found]
          simp only
          omega
    · cases found
      exact ⟨Nat.le_refl _, two⟩
  split at h
  · cases h
  · cases sum : int32 (wide.2 + 2) with
    | error e => simp [sum, Except.map] at h
    | ok next =>
      obtain ⟨rfl, -⟩ := int32_ok sum
      simp only [sum, Except.map, Except.ok.injEq] at h
      rw [← h]
      simp only
      omega

/-! ## Types without a sequence of messages -/

/-- A nested message is read from a payload of its own, the rest of this one. -/
theorem bounded_nested {α : Type} {len decoded k : Nat} {d : Metered (α × Nat)} (there : decoded ≤ len)
    (inner : Bounded (len - decoded) 0 k d) :
    Bounded len decoded k (d >>= fun nested => metered.lift (int32 (decoded + nested.2)) >>= fun next =>
      pure (nested.1, next)) := by
  intro σ
  have charged := inner σ
  change Charged len decoded k σ (Metered.bind d _ σ)
  unfold Metered.bind
  rcases run : d σ with ⟨r, τ⟩
  rw [run] at charged
  cases r with
  | error e =>
    obtain ⟨old, steps⟩ := charged
    exact ⟨old, by omega⟩
  | ok r =>
    obtain ⟨old, after, within, paid⟩ := charged
    have last : Bounded len (decoded + r.2) 0 (metered.lift (int32 (decoded + r.2)) >>= fun next =>
        (pure (r.1, next) : Metered (α × Nat))) := by
      apply bounded_lift
      intro next sum
      obtain ⟨rfl, -⟩ := int32_ok sum
      exact bounded_pure (Nat.le_refl _) (by omega)
    exact (last τ).after old (Nat.le_add_right _ _) (by omega) (by omega)

variable (L : Language) (host : ByteOrder) (native : Bool)

theorem bounded_strings {payload : Bytes} {decoded : Nat} (n : Nat) (there : decoded ≤ payload.length) :
    Bounded payload.length decoded 0 (readEach metered (fun _ payload decoded =>
      metered.lift (directDecodeText L host native none payload decoded)) n true payload decoded) := by
  apply bounded_each _ n true there
  intro first cursor _
  exact ⟨_, rfl, fun _ found => directDecodeText_ok found⟩

theorem bounded_words {t : ScalarType} {payload : Bytes} {decoded : Nat} (n : Nat) :
    Bounded payload.length decoded 0 (metered.lift (advance payload.length (n * t.size) decoded) >>= fun next =>
      metered.step n >>= fun _ => (pure ((wordsAt host native t.size payload n decoded).map t.ofWord, next) :
        Metered (Exactly t.Bits n × Nat))) := by
  apply bounded_lift
  intro next stepped
  obtain ⟨rfl, within⟩ := advance_ok stepped
  apply bounded_steps _ within
  have each : n * 1 ≤ n * t.size := Nat.mul_le_mul_left n t.size_pos
  omega

theorem checked {len cursor need : Nat} {u : Unit}
    (h : (if len < cursor + need then .error .short else .ok () : Result Unit) = .ok u) : cursor + need ≤ len := by
  split at h
  · cases h
  · omega

/-- A sequence of scalars is allocated once they are known to be there. -/
theorem bounded_scalars {t : ScalarType} {payload : Bytes} {decoded : Nat} (n : Nat)
    (there : decoded ≤ payload.length) : Bounded payload.length decoded 0
      ((Element.scalar t).directDecodeSequence metered L host native n payload decoded) := by
  apply bounded_lift
  intro start padded
  have placed : decoded ≤ start ∧ start ≤ payload.length := by
    split at padded
    · cases padded
      exact ⟨Nat.le_refl _, there⟩
    · obtain ⟨rfl, within⟩ := skip_ok padded
      exact ⟨Nat.le_add_right _ _, within⟩
  apply Bounded.earlier _ placed.1 placed.2
  apply bounded_lift
  intro _ found
  have room := checked found
  apply bounded_allocate _ (bounded_words host native n) placed.2
  omega

/-- A sequence of strings is allocated once the payload has four bytes for each. -/
theorem bounded_texts {payload : Bytes} {decoded : Nat} (n : Nat) (there : decoded ≤ payload.length) :
    Bounded payload.length decoded 0 (Element.string.directDecodeSequence metered L host native n payload decoded) := by
  apply bounded_lift
  intro _ found
  have room := checked found
  apply bounded_allocate _ (bounded_strings L host native n there) there
  unfold leastString
  omega

mutual

theorem WireField.directDecode_bounded : (f : WireField) → f.Flat → (payload : Bytes) → (decoded : Nat) →
    decoded ≤ payload.length →
    Bounded payload.length decoded f.loops (f.directDecode metered L host native payload decoded)
  | .scalar t, _, payload, decoded, _ => by
    apply bounded_lift
    intro v found
    obtain ⟨next, stepped, rest⟩ := bind_ok found
    obtain ⟨rfl, within⟩ := advance_ok stepped
    cases rest
    exact bounded_pure (Nat.le_add_right _ _) within
  | .string k, _, payload, decoded, _ => by
    apply bounded_read
    intro t found
    obtain ⟨after, within⟩ := directDecodeText_ok found
    exact ⟨after.le, within⟩
  | .nested s, flat, payload, decoded, there => by
    have inner := s.directDecodeFields_bounded flat (some 0) (payload.drop decoded) 0 (Nat.zero_le _)
    rw [List.length_drop] at inner
    exact bounded_nested there inner
  | .array (.fixed n) (.scalar t), _, payload, decoded, _ => bounded_words host native n
  | .array (.fixed n) .string, _, payload, decoded, there => bounded_strings L host native n there
  | .array (.fixed n) (.nested s), flat, payload, decoded, there => by
    apply bounded_each_fixed _ n true there
    intro first cursor within
    apply bounded_lift
    intro next gap
    obtain ⟨after, inside⟩ := decodeGap_ok gap within
    have inner := s.directDecodeFields_bounded flat (some 0) (payload.drop next) 0 (Nat.zero_le _)
    rw [List.length_drop] at inner
    exact (bounded_nested inside inner).earlier after inside
  | .array (.varying k) (.scalar t), _, payload, decoded, _ => by
    apply bounded_lift
    intro count found
    obtain ⟨after, within⟩ := directPeekCount_ok found
    exact ((bounded_scalars L host native count.1 within).map Subtype.val).earlier after within
  | .array (.varying k) .string, _, payload, decoded, _ => by
    apply bounded_lift
    intro count found
    obtain ⟨after, within⟩ := directPeekCount_ok found
    exact ((bounded_texts L host native count.1 within).map Subtype.val).earlier after within
  | .array (.varying _) (.nested _), flat, _, _, _ => flat.elim

theorem WireStruct.directDecodeFields_bounded : (s : WireStruct) → s.Flat → (offset : Option Nat) → (payload : Bytes) →
    (decoded : Nat) → decoded ≤ payload.length →
    Bounded payload.length decoded s.loops (s.directDecodeFields metered L host native offset payload decoded)
  | .nil, _, _, payload, decoded, there => bounded_pure (Nat.le_refl _) there
  | .cons f rest, flat, offset, payload, decoded, there => by
    apply bounded_lift
    intro start aligned
    obtain ⟨after, within⟩ := WireField.alignDecode_ok aligned there
    have here := f.directDecode_bounded flat.1 payload start within
    have both : Bounded payload.length start (f.loops + rest.loops) (f.directDecode metered L host native payload start >>=
        fun v => rest.directDecodeFields metered L host native (f.nextOffset offset) payload v.2 >>= fun w =>
          pure ((v.1, w.1), w.2)) := by
      apply Bounded.bind here
      intro v cursor _ inside
      exact (rest.directDecodeFields_bounded flat.2 (f.nextOffset offset) payload cursor inside).map (Prod.mk v)
    exact both.earlier after within

end

/-! ## The ledger changes nothing -/

section Follows

variable {α β : Type}

/-- The metered run finds what the plain one finds, and forgets no allocation. -/
def Follows (d : Metered α) (r : Result α) : Prop :=
  ∀ σ, (d σ).1 = r ∧ ∀ a ∈ σ.allocations, a ∈ (d σ).2.allocations

theorem follows_lift (r : Result α) : Follows (metered.lift r) (plain.lift r) :=
  fun _ => ⟨rfl, fun _ member => member⟩

theorem follows_allocate (count left unit : Nat) :
    Follows (metered.allocate count left unit) (plain.allocate count left unit) :=
  fun _ => ⟨rfl, fun _ member => List.mem_cons_of_mem _ member⟩

theorem follows_step (n : Nat) : Follows (metered.step n) (plain.step n) :=
  fun _ => ⟨rfl, fun _ member => member⟩

theorem follows_pure (a : α) : Follows (pure a) (pure a) := fun _ => ⟨rfl, fun _ member => member⟩

theorem Follows.bind {d : Metered α} {r : Result α} {f : α → Metered β} {g : α → Result β} (one : Follows d r)
    (two : ∀ a, Follows (f a) (g a)) : Follows (d >>= f) (r >>= g) := by
  intro σ
  obtain ⟨same, kept⟩ := one σ
  change (Metered.bind d f σ).1 = _ ∧ ∀ a ∈ σ.allocations, a ∈ (Metered.bind d f σ).2.allocations
  unfold Metered.bind
  rcases run : d σ with ⟨out, τ⟩
  rw [run] at same kept
  simp only at same kept
  subst same
  cases out with
  | error e => exact ⟨rfl, kept⟩
  | ok a =>
    obtain ⟨same, more⟩ := two a τ
    exact ⟨same, fun x member => more x (kept x member)⟩

theorem follows_each {read : Bool → Bytes → Nat → Metered (α × Nat)} {read' : Bool → Bytes → Nat → Result (α × Nat)}
    (one : ∀ first payload cursor, Follows (read first payload cursor) (read' first payload cursor)) (n : Nat) (first : Bool)
    (payload : Bytes) (cursor : Nat) :
    Follows (readEach metered read n first payload cursor) (readEach plain read' n first payload cursor) := by
  induction n generalizing first cursor with
  | zero => exact follows_pure _
  | succ n ih =>
    exact (follows_step 1).bind fun _ => (one first payload cursor).bind fun a =>
      (ih false a.2).bind fun l => follows_pure _

end Follows

mutual

theorem WireField.directDecode_follows : (f : WireField) → (payload : Bytes) → (decoded : Nat) →
    Follows (f.directDecode metered L host native payload decoded) (f.directDecode plain L host native payload decoded)
  | .scalar _, _, _ => (follows_lift _).bind fun _ => follows_pure _
  | .string _, _, _ => follows_lift _
  | .nested s, payload, decoded => (s.directDecodeFields_follows (some 0) (payload.drop decoded) 0).bind fun _ =>
      (follows_lift _).bind fun _ => follows_pure _
  | .array (.fixed n) e, payload, decoded => e.directDecode_follows n payload decoded
  | .array (.varying _) e, payload, _ => (follows_lift _).bind fun count =>
      (e.directDecodeSequence_follows count.1 payload count.2).bind fun _ => follows_pure _

theorem Element.directDecode_follows : (e : Element) → (n : Nat) → (payload : Bytes) → (decoded : Nat) →
    Follows (e.directDecode metered L host native n payload decoded) (e.directDecode plain L host native n payload decoded)
  | .scalar _, _, _, _ => (follows_lift _).bind fun _ => (follows_step _).bind fun _ => follows_pure _
  | .string, n, payload, decoded => follows_each (fun _ _ _ => follows_lift _) n true payload decoded
  | .nested s, n, payload, decoded =>
    follows_each (fun _ payload _ => (follows_lift _).bind fun decoded =>
      (s.directDecodeFields_follows (some 0) (payload.drop decoded) 0).bind fun _ =>
        (follows_lift _).bind fun _ => follows_pure _) n true payload decoded

theorem Element.directDecodeSequence_follows : (e : Element) → (n : Nat) → (payload : Bytes) → (decoded : Nat) →
    Follows (e.directDecodeSequence metered L host native n payload decoded)
      (e.directDecodeSequence plain L host native n payload decoded)
  | .scalar _, _, _, _ => (follows_lift _).bind fun _ => (follows_lift _).bind fun _ => (follows_allocate _ _ _).bind
      fun _ => (follows_lift _).bind fun _ => (follows_step _).bind fun _ => follows_pure _
  | .string, n, payload, _ => (follows_lift _).bind fun _ => (follows_allocate _ _ _).bind fun _ =>
      follows_each (fun _ _ _ => follows_lift _) n true payload _
  | .nested s, n, payload, _ => (follows_lift _).bind fun decoded => (follows_allocate _ _ _).bind fun _ =>
      follows_each (fun _ payload _ => (follows_lift _).bind fun decoded =>
        (s.directDecodeFields_follows (some 0) (payload.drop decoded) 0).bind fun _ =>
          (follows_lift _).bind fun _ => follows_pure _) n true payload decoded

theorem WireStruct.directDecodeFields_follows : (s : WireStruct) → (offset : Option Nat) → (payload : Bytes) →
    (decoded : Nat) → Follows (s.directDecodeFields metered L host native offset payload decoded)
      (s.directDecodeFields plain L host native offset payload decoded)
  | .nil, _, _, _ => follows_pure _
  | .cons f rest, offset, payload, _ => (follows_lift _).bind fun decoded =>
      (f.directDecode_follows payload decoded).bind fun v =>
        (rest.directDecodeFields_follows (f.nextOffset offset) payload v.2).bind fun _ => follows_pure _

end

/-! ## Types with a sequence of messages -/

mutual

/-- Sizes and bounds as the IDL allows them: not 0. -/
def WireField.Declared : WireField → Prop
  | .scalar _ => True
  | .string _ => True
  | .nested s => s.Declared
  | .array (.fixed n) e => 0 < n ∧ e.Declared
  | .array (.varying k) e => (∀ n ∈ k.bound, 0 < n) ∧ e.Declared

def Element.Declared : Element → Prop
  | .scalar _ => True
  | .string => True
  | .nested s => s.Declared

def WireStruct.Declared : WireStruct → Prop
  | .nil => True
  | .cons f rest => f.Declared ∧ rest.Declared

end

mutual

/-- The elements of every sequence take a byte or more. -/
def WireField.Weighty : WireField → Prop
  | .scalar _ => True
  | .string _ => True
  | .nested s => s.Weighty
  | .array (.fixed _) e => e.Weighty
  | .array (.varying _) e => 0 < e.least ∧ e.Weighty

def Element.Weighty : Element → Prop
  | .scalar _ => True
  | .string => True
  | .nested s => s.Weighty

def WireStruct.Weighty : WireStruct → Prop
  | .nil => True
  | .cons f rest => f.Weighty ∧ rest.Weighty

end

theorem ScalarType.align_le (t : ScalarType) : t.align ≤ 4 := Nat.min_le_right _ _

mutual

theorem WireField.wireAlign_le : (f : WireField) → f.wireAlign ≤ 4
  | .scalar t => t.align_le
  | .string _ => by simp [WireField.wireAlign, countSize]
  | .nested s => by
    simp only [WireField.wireAlign]
    exact s.selfAlign_le
  | .array (.fixed _) e => by
    simp only [WireField.wireAlign]
    exact e.align_le
  | .array (.varying _) _ => by simp [WireField.wireAlign, countSize]

theorem Element.align_le : (e : Element) → e.align ≤ 4
  | .scalar t => t.align_le
  | .string => by simp [Element.align, countSize]
  | .nested s => by
    simp only [Element.align]
    exact s.selfAlign_le

theorem WireStruct.selfAlign_le : (s : WireStruct) → s.selfAlign ≤ 4
  | .nil => by simp [WireStruct.selfAlign]
  | .cons f rest => by
    simp only [WireStruct.selfAlign]
    exact max_le f.wireAlign_le rest.selfAlign_le

end

/-- The run allocates more than the payload could hold. -/
def Overruns {α : Type} (d : Metered α) : Prop := ∀ σ, ∃ a ∈ (d σ).2.allocations, ¬ a.Within

section Overruns

variable {α β : Type}

theorem Overruns.bind {d : Metered α} {f : α → Metered β} {g : α → Result β} (over_ : Overruns d)
    (rest : ∀ a, Follows (f a) (g a)) : Overruns (d >>= f) := by
  intro σ
  obtain ⟨a, member, long⟩ := over_ σ
  change ∃ a ∈ (Metered.bind d f σ).2.allocations, _
  unfold Metered.bind
  rcases run : d σ with ⟨out, τ⟩
  rw [run] at member
  cases out with
  | error e => exact ⟨a, member, long⟩
  | ok b => exact ⟨a, (rest b τ).2 a member, long⟩

/-- A run that gets through its first part overruns in the second. -/
theorem overruns_after {d : Metered α} {f : α → Metered β} {a : α} (passed : Follows d (.ok a))
    (over_ : Overruns (f a)) : Overruns (d >>= f) := by
  intro σ
  change ∃ a ∈ (Metered.bind d f σ).2.allocations, _
  unfold Metered.bind
  have same := (passed σ).1
  rcases run : d σ with ⟨out, τ⟩
  rw [run] at same
  simp only at same
  subst same
  exact over_ τ

theorem overruns_allocate {count left unit : Nat} {f : Unit → Metered β} {g : Unit → Result β}
    (long : ¬ count * unit ≤ left) (rest : ∀ u, Follows (f u) (g u)) :
    Overruns (metered.allocate count left unit >>= f) := by
  apply Overruns.bind _ rest
  intro σ
  exact ⟨⟨count, left, unit⟩, List.mem_cons_self, long⟩

end Overruns

/-- A count of one with nothing behind it. -/
theorem overruns_sequence {k : Capacity} {s : WireStruct} (declared : ∀ n ∈ k.bound, 0 < n) (weighty : 0 < s.least)
    (before : Bytes) (small : before.length + 2 + padding (before.length + 2) s.selfAlign < 2 ^ 31) :
    ∃ tail, Overruns ((WireField.array (.varying k) (.nested s)).directDecode metered L host true (before ++ tail)
      before.length) := by
  refine ⟨countImage host 1 ++ padImage s.selfAlign (before.length + 2), ?_⟩
  have countable : Countable k.bound 1 := ⟨declared, by decide⟩
  have two : (countImage host 1).length = 2 := countImage_length host 1
  have counted := directPeekCount_takes host host countable before (padImage s.selfAlign (before.length + 2)) trivial
    (by rw [two]; omega)
  have padded := skips_padding s.selfAlign_pos (before ++ countImage host 1) [] trivial
    (by simp only [List.length_append, two, padImage, zeros_length]; exact small)
  simp only [decide_true, two, List.length_append, List.append_assoc, List.append_nil] at counted padded
  apply overruns_after (a := (1, before.length + 2))
  · rw [counted]
    exact follows_lift _
  · apply Overruns.bind _ fun _ => follows_pure _
    apply overruns_after (a := before.length + 2 + (padImage s.selfAlign (before.length + 2)).length)
    · simp only [List.length_append, two]
      rw [padded]
      exact follows_lift _
    · apply overruns_allocate
      · simp only [List.length_append, two]
        omega
      · intro _
        exact follows_each (fun _ payload _ => (follows_lift _).bind fun decoded =>
          (s.directDecodeFields_follows L host true (some 0) (payload.drop decoded) 0).bind fun _ =>
            (follows_lift _).bind fun _ => follows_pure _) _ _ _ _

theorem padding_small (count : Nat) (cursor : Nat) {align : Nat} (positive : 0 < align) (most : align ≤ 4) :
    2 + padding (cursor + 2) align ≤ (countImage host count).length +
      (padImage align (cursor + (countImage host count).length)).length := by
  have below := padding_lt (cursor + 2) positive
  rw [countImage_length]
  simp only [padImage, zeros_length]
  split <;> omega

mutual

/-- Some payload makes the decoder of a field overrun that has a sequence of messages in it. -/
theorem WireField.overruns_of_not_flat : (f : WireField) → ¬ f.Flat → f.Declared → f.Weighty → (v : f.Ros L) →
    f.Accepts L v → (before : Bytes) → before.length + (f.directImage L host v before.length).length < 2 ^ 31 →
    ∃ tail, Overruns (f.directDecode metered L host true (before ++ tail) before.length)
  | .scalar _, deep, _, _, _, _, _, _ => absurd trivial deep
  | .string _, deep, _, _, _, _, _, _ => absurd trivial deep
  | .nested s, deep, declared, weighty, v, accepts, before, small => by
    obtain ⟨tail, over_⟩ := s.overruns_of_not_flat deep declared weighty v accepts (some 0) [] known_zero
      (by simp only [WireField.directImage] at small; simp only [List.length_nil]; omega)
    refine ⟨tail, ?_⟩
    simp only [List.nil_append, List.length_nil] at over_
    simp only [WireField.directDecode, List.drop_left]
    exact over_.bind fun _ => (follows_lift _).bind fun _ => follows_pure _
  | .array (.fixed _) (.scalar _), deep, _, _, _, _, _, _ => absurd trivial deep
  | .array (.fixed _) .string, deep, _, _, _, _, _, _ => absurd trivial deep
  | .array (.fixed n) (.nested s), deep, declared, weighty, v, accepts, before, small => by
    change Exactly (s.Ros L) n at v
    obtain ⟨l, rfl⟩ := v
    cases l with
    | nil => exact absurd declared.1 (Nat.lt_irrefl 0)
    | cons a l =>
      have first : (s.directImage L host a 0).length < 2 ^ 31 := by
        simp only [WireField.directImage, Element.directImage, imageEach, andThen_length] at small
        omega
      obtain ⟨tail, over_⟩ := s.overruns_of_not_flat deep declared.2 weighty a (accepts a List.mem_cons_self) (some 0) []
        known_zero (by simp only [List.length_nil]; omega)
      refine ⟨tail, ?_⟩
      simp only [List.nil_append, List.length_nil] at over_
      have gap : decodeGap s.selfAlign true (before ++ tail) before.length = .ok before.length := by
        unfold decodeGap
        split <;> rfl
      have element : Overruns (metered.lift (decodeGap s.selfAlign true (before ++ tail) before.length) >>= fun decoded =>
          s.directDecodeFields metered L host true (some 0) ((before ++ tail).drop decoded) 0 >>= fun nested =>
            metered.lift (int32 (decoded + nested.2)) >>= fun next => (pure (nested.1, next) : Metered (s.Ros L × Nat))) := by
        rw [gap]
        apply overruns_after (follows_lift (.ok before.length))
        rw [List.drop_left]
        exact over_.bind fun _ => (follows_lift _).bind fun _ => follows_pure _
      apply overruns_after (follows_step 1)
      apply element.bind
      intro b
      exact (follows_each (fun _ payload _ => (follows_lift _).bind fun decoded =>
        (s.directDecodeFields_follows L host true (some 0) (payload.drop decoded) 0).bind fun _ =>
          (follows_lift _).bind fun _ => follows_pure _) _ _ _ _).bind fun _ => follows_pure _
  | .array (.varying _) (.scalar _), deep, _, _, _, _, _, _ => absurd trivial deep
  | .array (.varying _) .string, deep, _, _, _, _, _, _ => absurd trivial deep
  | .array (.varying k) (.nested s), _, declared, weighty, v, _, before, small => by
    apply overruns_sequence L host declared.1 weighty.1
    have least := padding_small host (List.length v) before.length s.selfAlign_pos s.selfAlign_le
    simp only [WireField.directImage, andThen_length, Element.headAlign] at small
    omega

theorem WireStruct.overruns_of_not_flat : (s : WireStruct) → ¬ s.Flat → s.Declared → s.Weighty → (v : s.Ros L) →
    s.Accepts L v → (offset : Option Nat) → (before : Bytes) → Known offset before.length →
    before.length + (s.directImage L host v before.length).length < 2 ^ 31 →
    ∃ tail, Overruns (s.directDecodeFields metered L host true offset (before ++ tail) before.length)
  | .nil, deep, _, _, _, _, _, _, _, _ => absurd trivial deep
  | .cons f rest, deep, declared, weighty, v, accepts, offset, before, known, small => by
    simp only [WireStruct.directImage, andThen_length] at small
    have ready := f.leads_ready offset before.length known
    have pad := f.alignDecode_skips offset before
    by_cases flat : f.Flat
    · have behind : ¬ rest.Flat := fun others => deep ⟨flat, others⟩
      have next := f.leads_next_direct L host offset v.1 _ ready
      obtain ⟨tail, over_⟩ := rest.overruns_of_not_flat behind declared.2 weighty.2 v.2 accepts.2 (f.nextOffset offset)
        (before ++ padImage f.wireAlign before.length ++
          f.directImage L host v.1 (before.length + (padImage f.wireAlign before.length).length))
        (by simp only [List.length_append]; exact next)
        (by simp only [List.length_append]; omega)
      have read := f.directDecode_takes L host host v.1 accepts.1 (before ++ padImage f.wireAlign before.length) tail
        (by rw [List.length_append]; exact ready.1) (by rw [List.length_append]; omega)
      refine ⟨padImage f.wireAlign before.length ++
        (f.directImage L host v.1 (before.length + (padImage f.wireAlign before.length).length) ++ tail), ?_⟩
      have padded := pad (f.directImage L host v.1 (before.length + (padImage f.wireAlign before.length).length) ++ tail)
        known (by omega)
      simp only [List.length_append, decide_true, List.append_assoc] at read padded over_
      have passed := f.directDecode_follows L host true (before ++ (padImage f.wireAlign before.length ++
        (f.directImage L host v.1 (before.length + (padImage f.wireAlign before.length).length) ++ tail)))
        (before.length + (padImage f.wireAlign before.length).length)
      rw [read] at passed
      apply overruns_after (a := before.length + (padImage f.wireAlign before.length).length)
      · rw [← padded]
        exact follows_lift _
      · apply overruns_after passed
        apply Overruns.bind _ fun _ => follows_pure _
        simp only [Nat.add_assoc] at over_ ⊢
        exact over_
    · obtain ⟨tail, over_⟩ := f.overruns_of_not_flat flat declared.1 weighty.1 v.1 accepts.1
        (before ++ padImage f.wireAlign before.length) (by rw [List.length_append]; omega)
      have padded := pad tail known (by omega)
      refine ⟨padImage f.wireAlign before.length ++ tail, ?_⟩
      simp only [List.length_append, List.append_assoc] at padded over_
      apply overruns_after (a := before.length + (padImage f.wireAlign before.length).length)
      · rw [← padded]
        exact follows_lift _
      · apply over_.bind
        intro w
        exact (rest.directDecodeFields_follows L host true (f.nextOffset offset) _ w.2).bind fun _ => follows_pure _

end

/-! ## Frugal types -/

namespace WireStruct

/-- No payload makes a decoder of the type allocate more than is left of it, or step over more elements than it has
bytes: the arrays of fixed size and the element it fails at apart. -/
def Frugal (s : WireStruct) : Prop := ∀ (L : Language) (host : ByteOrder) (isNativeEndian : Bool) (payload : Bytes),
  (∀ a ∈ (s.meter L host isNativeEndian payload).2.allocations, a.Within) ∧
    (s.meter L host isNativeEndian payload).2.steps ≤ payload.length + s.loops + 1

theorem frugal_of_flat {s : WireStruct} (flat : s.Flat) : s.Frugal := by
  intro L host native payload
  have charged := s.directDecodeFields_bounded L host native flat (some 0) payload 0 (Nat.zero_le _) Ledger.start
  change Charged _ _ _ _ (s.meter L host native payload) at charged
  rcases run : s.meter L host native payload with ⟨out, σ⟩
  rw [run] at charged
  cases out with
  | ok r =>
    obtain ⟨more, after, within, steps⟩ := charged
    refine ⟨fun a member => (more a member).resolve_left List.not_mem_nil, ?_⟩
    simp only [Ledger.start] at steps
    simp only
    omega
  | error e =>
    obtain ⟨more, steps⟩ := charged
    refine ⟨fun a member => (more a member).resolve_left List.not_mem_nil, ?_⟩
    simp only [Ledger.start] at steps
    simp only
    omega

theorem flat_of_frugal {s : WireStruct} (declared : s.Declared) (weighty : s.Weighty) {L : Language} {v : s.Ros L}
    {n : Nat} (measured : s.directEncodeSize L v = .ok n) (frugal : s.Frugal) : s.Flat := by
  by_contra deep
  obtain ⟨size, small, accepts⟩ := WireStruct.directEncodeSize_ok L .little measured
  obtain ⟨tail, over_⟩ := s.overruns_of_not_flat L .little deep declared weighty v accepts (some 0) [] known_zero
    (by simp only [List.length_nil]; omega)
  obtain ⟨a, member, long⟩ := over_ Ledger.start
  exact long ((frugal L .little true tail).1 a member)

/-- The direct decoders are frugal for every type without a sequence of messages, and for no other: of the types the IDL
has, whose sequences' elements take a byte and which some message goes out in. -/
theorem frugal_iff_flat (s : WireStruct) : (s.Flat → s.Frugal) ∧
    (s.Declared → s.Weighty → (∃ (L : Language) (v : s.Ros L) (n : Nat), s.directEncodeSize L v = .ok n) →
      (s.Frugal ↔ s.Flat)) := by
  refine ⟨frugal_of_flat, ?_⟩
  rintro declared weighty ⟨L, v, n, measured⟩
  exact ⟨flat_of_frugal declared weighty measured, frugal_of_flat⟩

end WireStruct

/-- `uint8 flag`. -/
def flagged : WireStruct := .cons (.scalar .uint8) .nil

/-- `Flagged[] flags`. -/
def flags : WireStruct := .cons (.array (.varying ⟨4, .auto⟩) (.nested flagged)) .nil

/-- A count of `0x00FF_FFFF` behind the escape, and nothing else. -/
def hollow : Bytes := [0xFF, 0xFF, 0xFF, 0xFF, 0xFF, 0]

theorem flags_weighty : flags.Weighty := ⟨⟨by decide, trivial, trivial⟩, trivial⟩

theorem hollow_count_allocates : flags.Weighty ∧
    (flags.meter c .little true hollow).2.allocations = [⟨16777215, 0, 1⟩] ∧ ¬ flags.Frugal := by
  have run : (flags.meter c .little true hollow).2.allocations = [⟨16777215, 0, 1⟩] := by decide +kernel
  refine ⟨flags_weighty, run, ?_⟩
  intro frugal
  have within := (frugal c .little true hollow).1 ⟨16777215, 0, 1⟩ (by rw [run]; exact List.mem_singleton_self _)
  exact absurd (show 16777215 * 1 ≤ 0 from within) (by decide)

/-- `uint8 a`, `Flagged b`, `string[] c`. -/
def listed : WireStruct :=
  .cons (.scalar .uint8) (.cons (.nested flagged) (.cons (.array (.varying ⟨4, .auto⟩) .string) .nil))

theorem listed_frugal : listed.Flat ∧ listed.Frugal := by
  have flat : listed.Flat := ⟨trivial, ⟨trivial, trivial⟩, trivial, trivial⟩
  exact ⟨flat, (WireStruct.frugal_iff_flat listed).1 flat⟩

end TypeSupport

end Tickle
