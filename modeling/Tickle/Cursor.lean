import Mathlib

/-! # A buffer written and read through a cursor

A codec walks a buffer with a cursor that a signed 32-bit integer holds: a writer refuses what has no
room (`put`), a reader what is not there (`advance`), and a sum past the integer's range has no value
(`int32`). What a writer puts, a reader takes and a measure counts is said by one function from the
cursor to bytes, its image: `Puts`, `Takes` and `Counts` relate each to it, and compose.
-/

namespace Cursor

/-- Why a codec stops. -/
inductive Stop where
  | short | refused | null | memory
  /-- A signed sum out of range. -/
  | overflow
  deriving DecidableEq, Repr

abbrev Result := Except Stop

abbrev Bytes := List UInt8

@[simp] theorem ok_bind {α β : Type} (a : α) (f : α → Result β) : (Except.ok a >>= f) = f a := rfl

@[simp] theorem error_bind {α β : Type} (e : Stop) (f : α → Result β) : ((.error e : Result α) >>= f) = .error e := rfl

theorem bind_ok {α β : Type} {r : Result α} {f : α → Result β} {b : β} (h : (r >>= f) = .ok b) :
    ∃ a, r = .ok a ∧ f a = .ok b := by
  cases r with
  | error e => cases h
  | ok a => exact ⟨a, rfl, h⟩

/-! ## Octets of a number -/

/-- The `w` low octets of a number, the lowest first. -/
def octets : Nat → Nat → Bytes
  | 0, _ => []
  | w + 1, n => UInt8.ofNat n :: octets w (n / 256)

def value : Bytes → Nat
  | [] => 0
  | b :: bs => b.toNat + 256 * value bs

/-- The number with its `w` octets in the other order. -/
def swap (w n : Nat) : Nat := value (octets w n).reverse

@[simp] theorem octets_length (w n : Nat) : (octets w n).length = w := by
  induction w generalizing n with
  | zero => rfl
  | succ w ih => simp [octets, ih]

theorem value_octets (w n : Nat) : value (octets w n) = n % 256 ^ w := by
  induction w generalizing n with
  | zero => simp [octets, value, Nat.mod_one]
  | succ w ih =>
    have low : (UInt8.ofNat n).toNat = n % 256 := by simp
    simp only [octets, value, ih, low]
    rw [pow_succ', Nat.mod_mul]

theorem value_lt (bs : Bytes) : value bs < 256 ^ bs.length := by
  induction bs with
  | nil => simp [value]
  | cons b bs ih =>
    have small := b.toNat_lt
    simp only [value, List.length_cons, pow_succ']
    omega

theorem octets_value (bs : Bytes) : octets bs.length (value bs) = bs := by
  induction bs with
  | nil => rfl
  | cons b bs ih =>
    have small := b.toNat_lt
    have low : UInt8.ofNat (b.toNat + 256 * value bs) = b := by
      apply UInt8.toNat_inj.mp
      simp only [UInt8.toNat_ofNat']
      omega
    have high : (b.toNat + 256 * value bs) / 256 = value bs := by omega
    simp only [List.length_cons, value, octets, low, high, ih]

theorem swap_value {w : Nat} {bs : Bytes} (width : bs.length = w) : swap w (value bs) = value bs.reverse := by
  subst width
  unfold swap
  rw [octets_value]

/-! ## Alignment -/

/-- How many bytes bring `cursor` to a multiple of `a`. -/
def padding (cursor a : Nat) : Nat := (a - cursor % a) % a

def alignUp (offset a : Nat) : Nat := (offset + a - 1) / a * a

def zeros (n : Nat) : Bytes := List.replicate n 0

@[simp] theorem zeros_length (n : Nat) : (zeros n).length = n := List.length_replicate

theorem padding_lt (cursor : Nat) {a : Nat} (positive : 0 < a) : padding cursor a < a := Nat.mod_lt _ positive

theorem add_padding_mod (cursor : Nat) {a : Nat} (positive : 0 < a) : (cursor + padding cursor a) % a = 0 := by
  have below := Nat.mod_lt cursor positive
  unfold padding
  rw [Nat.add_mod, Nat.mod_mod]
  by_cases aligned : cursor % a = 0
  · simp [aligned]
  · rw [Nat.mod_eq_of_lt (by omega : a - cursor % a < a)]
    have whole : cursor % a + (a - cursor % a) = a := by omega
    rw [whole, Nat.mod_self]

theorem padding_eq_zero {cursor a : Nat} (aligned : cursor % a = 0) : padding cursor a = 0 := by
  simp [padding, aligned]

theorem alignUp_eq (offset : Nat) {a : Nat} (positive : 0 < a) : alignUp offset a = offset + padding offset a := by
  have below := padding_lt offset positive
  obtain ⟨q, exact_⟩ := Nat.dvd_of_mod_eq_zero (add_padding_mod offset positive)
  have lower : offset + padding offset a ≤ offset + a - 1 := by omega
  have upper : offset + a - 1 < a * q + a := by omega
  have quotient : (offset + a - 1) / a = q := by
    apply Nat.div_eq_of_lt_le
    · rw [mul_comm, ← exact_]
      exact lower
    · rw [Nat.succ_mul, mul_comm]
      exact upper
  unfold alignUp
  rw [quotient, mul_comm, ← exact_]

theorem alignUp_of_aligned {offset a : Nat} (positive : 0 < a) (aligned : offset % a = 0) :
    alignUp offset a = offset := by
  rw [alignUp_eq offset positive, padding_eq_zero aligned, Nat.add_zero]

/-! ## Steps of a codec -/

/-- A sum kept in a signed 32-bit integer. -/
def int32 (n : Nat) : Result Nat := if n < 2 ^ 31 then .ok n else .error .overflow

/-- Writes `more` behind what is written, where a buffer of `len` bytes has room. -/
def put (len : Nat) (more done : Bytes) : Result Bytes :=
  if len < done.length + more.length then .error .short
  else (int32 (done.length + more.length)).map fun _ => done ++ more

/-- Steps over `k` bytes that are there. -/
def advance (len k cursor : Nat) : Result Nat :=
  if len < cursor + k then .error .short else int32 (cursor + k)

/-- Steps over `k` bytes, and then looks whether they were there. -/
def skip (len k cursor : Nat) : Result Nat :=
  match int32 (cursor + k) with
  | .error e => .error e
  | .ok cursor => if len < cursor then .error .short else .ok cursor

theorem int32_ok {n m : Nat} (h : int32 n = .ok m) : m = n ∧ n < 2 ^ 31 := by
  unfold int32 at h
  split at h
  · next small =>
    cases h
    exact ⟨rfl, small⟩
  · cases h

theorem int32_of_lt {n : Nat} (small : n < 2 ^ 31) : int32 n = .ok n := if_pos small

theorem advance_of_le {len k cursor : Nat} (there : cursor + k ≤ len) (small : cursor + k < 2 ^ 31) :
    advance len k cursor = .ok (cursor + k) := by
  unfold advance
  rw [if_neg (by omega), int32_of_lt small]

theorem skip_of_le {len k cursor : Nat} (there : cursor + k ≤ len) (small : cursor + k < 2 ^ 31) :
    skip len k cursor = .ok (cursor + k) := by
  unfold skip
  rw [int32_of_lt small]
  exact if_neg (by omega)

/-! ## What a writer, a measure and a reader do with an image

Each from the cursors `start` allows. -/

/-- `write` puts `image`, or has no room. -/
def Puts (len : Nat) (start : Nat → Prop) (write : Bytes → Result Bytes) (image : Nat → Bytes) : Prop :=
  ∀ done, start done.length → done.length ≤ len → done.length + (image done.length).length < 2 ^ 31 →
    write done = if done.length + (image done.length).length ≤ len then .ok (done ++ image done.length)
      else .error .short

/-- What `measure` answers is where `image` ends, and it answers only what is `good`. -/
def Counts (start : Nat → Prop) (measure : Nat → Result Nat) (image : Nat → Bytes) (good : Prop) : Prop :=
  ∀ cursor n, start cursor → cursor < 2 ^ 31 → measure cursor = .ok n →
    n = cursor + (image cursor).length ∧ n < 2 ^ 31 ∧ good

/-- As `Counts`, of a measure that is not kept in 32 bits. -/
def Measures (start : Nat → Prop) (measure : Nat → Result Nat) (image : Nat → Bytes) (good : Prop) : Prop :=
  ∀ cursor n, start cursor → measure cursor = .ok n → n = cursor + (image cursor).length ∧ good

/-- `read` finds in `image` what `found` says. -/
def Takes {α : Type} (start : Nat → Prop) (read : Bytes → Nat → Result (α × Nat)) (image : Nat → Bytes)
    (found : Result α) : Prop :=
  ∀ before after, start before.length → before.length + (image before.length).length < 2 ^ 31 →
    read (before ++ image before.length ++ after) before.length =
      found.map fun a => (a, before.length + (image before.length).length)

/-- `step` steps over `image`. -/
def Skips (start : Nat → Prop) (step : Bytes → Nat → Result Nat) (image : Nat → Bytes) : Prop :=
  ∀ before after, start before.length → before.length + (image before.length).length < 2 ^ 31 →
    step (before ++ image before.length ++ after) before.length = .ok (before.length + (image before.length).length)

/-- One image behind another. -/
def andThen (first second : Nat → Bytes) (cursor : Nat) : Bytes :=
  first cursor ++ second (cursor + (first cursor).length)

@[simp] theorem andThen_length (first second : Nat → Bytes) (cursor : Nat) :
    (andThen first second cursor).length =
      (first cursor).length + (second (cursor + (first cursor).length)).length := by
  simp [andThen]

/-- A start of the second image, wherever the first one started. -/
def Leads (start : Nat → Prop) (image : Nat → Bytes) (start' : Nat → Prop) : Prop :=
  ∀ cursor, start cursor → start' (cursor + (image cursor).length)

def anywhere : Nat → Prop := fun _ => True

theorem leads_anywhere (start : Nat → Prop) (image : Nat → Bytes) : Leads start image anywhere := fun _ _ => trivial

variable {len : Nat} {α β : Type} {start start' : Nat → Prop} {image first second : Nat → Bytes}

theorem puts_put (start : Nat → Prop) (more : Bytes) : Puts len start (put len more) fun _ => more := by
  intro done _ within small
  unfold put
  by_cases room : done.length + more.length ≤ len
  · rw [if_neg (by omega), int32_of_lt small, if_pos room]
    rfl
  · rw [if_pos (by omega), if_neg room]

theorem puts_ok : Puts len start (fun done => .ok done) fun _ => [] := by
  intro done _ within small
  simp [within]

/-- A writer that at each of its starts is another one. -/
theorem Puts.congr {write write' : Bytes → Result Bytes} {image' : Nat → Bytes} (one : Puts len start' write image)
    (within : ∀ cursor, start cursor → start' cursor)
    (same : ∀ done : Bytes, start done.length → write' done = write done)
    (sameImage : ∀ cursor, start cursor → image' cursor = image cursor) : Puts len start write' image' := by
  intro done starts room small
  rw [sameImage _ starts] at small ⊢
  rw [same done starts, one done (within _ starts) room small]

theorem Puts.andThen {write₁ write₂ : Bytes → Result Bytes} (one : Puts len start write₁ first)
    (two : Puts len start' write₂ second) (leads : Leads start first start') :
    Puts len start (fun done => write₁ done >>= write₂) (andThen first second) := by
  intro done starts within small
  rw [andThen_length] at small ⊢
  simp only [one done starts within (by omega)]
  by_cases room : done.length + (first done.length).length ≤ len
  · rw [if_pos room]
    have next := two (done ++ first done.length) (by rw [List.length_append]; exact leads _ starts)
      (by rw [List.length_append]; exact room) (by rw [List.length_append]; omega)
    rw [List.length_append] at next
    change write₂ (done ++ first done.length) = _
    rw [next, Cursor.andThen, Nat.add_assoc, List.append_assoc]
  · rw [if_neg room, if_neg (by omega)]
    rfl

theorem counts_int32 {measure : Nat → Result Nat}
    (same : ∀ cursor, start cursor → measure cursor = int32 (cursor + (image cursor).length)) :
    Counts start measure image True := by
  intro cursor n starts _ counted
  rw [same cursor starts] at counted
  obtain ⟨rfl, small⟩ := int32_ok counted
  exact ⟨rfl, small, trivial⟩

theorem counts_ok : Counts start (fun cursor => .ok cursor) (fun _ => []) True := by
  intro cursor n _ small counted
  cases counted
  exact ⟨rfl, small, trivial⟩

theorem Counts.andThen {measure₁ measure₂ : Nat → Result Nat} {good good' : Prop}
    (one : Counts start measure₁ first good) (two : Counts start' measure₂ second good')
    (leads : Leads start first start') :
    Counts start (fun cursor => measure₁ cursor >>= measure₂) (andThen first second) (good ∧ good') := by
  intro cursor n starts small counted
  obtain ⟨m, here, rest⟩ := bind_ok counted
  obtain ⟨rfl, between, fine⟩ := one cursor m starts small here
  obtain ⟨rfl, below, fine'⟩ := two _ n (leads cursor starts) between rest
  rw [andThen_length]
  exact ⟨by omega, below, fine, fine'⟩

theorem Counts.mono {measure : Nat → Result Nat} {good good' : Prop} (one : Counts start' measure image good)
    (within : ∀ cursor, start cursor → start' cursor) (gives : good → good') :
    Counts start measure image good' := by
  intro cursor n starts small counted
  obtain ⟨ends, below, fine⟩ := one cursor n (within cursor starts) small counted
  exact ⟨ends, below, gives fine⟩

theorem measures_ok {measure : Nat → Result Nat}
    (same : ∀ cursor, start cursor → measure cursor = .ok (cursor + (image cursor).length)) :
    Measures start measure image True := by
  intro cursor n starts counted
  rw [same cursor starts] at counted
  cases counted
  exact ⟨rfl, trivial⟩

theorem Measures.andThen {measure₁ measure₂ : Nat → Result Nat} {good good' : Prop}
    (one : Measures start measure₁ first good) (two : Measures start' measure₂ second good')
    (leads : Leads start first start') :
    Measures start (fun cursor => measure₁ cursor >>= measure₂) (andThen first second) (good ∧ good') := by
  intro cursor n starts counted
  obtain ⟨m, here, rest⟩ := bind_ok counted
  obtain ⟨rfl, fine⟩ := one cursor m starts here
  obtain ⟨rfl, fine'⟩ := two _ n (leads cursor starts) rest
  rw [andThen_length]
  exact ⟨by omega, fine, fine'⟩

theorem Measures.mono {measure : Nat → Result Nat} {good good' : Prop} (one : Measures start' measure image good)
    (within : ∀ cursor, start cursor → start' cursor) (gives : good → good') :
    Measures start measure image good' := by
  intro cursor n starts counted
  obtain ⟨ends, fine⟩ := one cursor n (within cursor starts) counted
  exact ⟨ends, gives fine⟩

theorem Takes.andThen {read₁ : Bytes → Nat → Result (α × Nat)} {read₂ : α → Bytes → Nat → Result (β × Nat)}
    {found : Result α} {then_ : α → Result β} (one : Takes start read₁ first found)
    (two : ∀ a, found = .ok a → Takes start' (read₂ a) second (then_ a)) (leads : Leads start first start') :
    Takes start (fun payload cursor => read₁ payload cursor >>= fun r => read₂ r.1 payload r.2)
      (andThen first second) (found >>= then_) := by
  intro before after starts small
  rw [andThen_length] at small ⊢
  have here := one before (second (before.length + (first before.length).length) ++ after) starts (by omega)
  have same : before ++ Cursor.andThen first second before.length ++ after = before ++ first before.length ++
      (second (before.length + (first before.length).length) ++ after) := by
    simp only [Cursor.andThen, List.append_assoc]
  simp only [same, here]
  cases found with
  | error e => rfl
  | ok a =>
    have next := two a rfl (before ++ first before.length) after
      (by rw [List.length_append]; exact leads _ starts) (by rw [List.length_append]; omega)
    rw [List.length_append, List.append_assoc (before ++ first before.length)] at next
    rw [← Nat.add_assoc]
    exact next

theorem Skips.andThen {step : Bytes → Nat → Result Nat} {read : Bytes → Nat → Result (α × Nat)} {found : Result α}
    (one : Skips start step first) (two : Takes start' read second found) (leads : Leads start first start') :
    Takes start (fun payload cursor => step payload cursor >>= read payload) (andThen first second) found := by
  intro before after starts small
  rw [andThen_length] at small ⊢
  have here := one before (second (before.length + (first before.length).length) ++ after) starts (by omega)
  have same : before ++ Cursor.andThen first second before.length ++ after = before ++ first before.length ++
      (second (before.length + (first before.length).length) ++ after) := by
    simp only [Cursor.andThen, List.append_assoc]
  have next := two (before ++ first before.length) after
    (by rw [List.length_append]; exact leads _ starts) (by rw [List.length_append]; omega)
  rw [List.length_append, List.append_assoc (before ++ first before.length)] at next
  simp only [same, here, ← Nat.add_assoc]
  exact next

theorem skips_advance {k : Nat → Nat} :
    Skips start (fun payload cursor => advance payload.length (k cursor) cursor) fun cursor => zeros (k cursor) := by
  intro before after _ small
  rw [zeros_length] at small ⊢
  exact advance_of_le (by simp) small

theorem skips_skip {k : Nat → Nat} :
    Skips start (fun payload cursor => skip payload.length (k cursor) cursor) fun cursor => zeros (k cursor) := by
  intro before after _ small
  rw [zeros_length] at small ⊢
  exact skip_of_le (by simp) small

theorem skips_ok : Skips start (fun _ cursor => .ok cursor) fun _ => [] := by
  intro before after _ small
  rfl

theorem Skips.congr {step step' : Bytes → Nat → Result Nat} {image' : Nat → Bytes} (one : Skips start' step image)
    (within : ∀ cursor, start cursor → start' cursor)
    (same : ∀ payload cursor, start cursor → step' payload cursor = step payload cursor)
    (sameImage : ∀ cursor, start cursor → image' cursor = image cursor) : Skips start step' image' := by
  intro before after starts small
  rw [sameImage _ starts] at small ⊢
  rw [same _ _ starts, one before after (within _ starts) small]

theorem Takes.within {read : Bytes → Nat → Result (α × Nat)} {found : Result α} (one : Takes start' read image found)
    (within : ∀ cursor, start cursor → start' cursor) : Takes start read image found :=
  fun before after starts => one before after (within _ starts)

/-- A reader's value, made into another. -/
theorem Takes.map {read : Bytes → Nat → Result (α × Nat)} {found : Result α} (one : Takes start read image found)
    (f : α → β) :
    Takes start (fun payload cursor => read payload cursor >>= fun r => .ok (f r.1, r.2)) image (found.map f) := by
  intro before after starts small
  simp only [one before after starts small]
  cases found <;> rfl

/-! ## What a reader makes of a value that may not have survived -/

open Classical in
/-- The value if it is good, a refusal if not. -/
noncomputable def verdict (good : Prop) (a : α) : Result α := if good then .ok a else .error .refused

theorem verdict_of {good : Prop} (h : good) (a : α) : verdict good a = .ok a := if_pos h

theorem verdict_not {good : Prop} (h : ¬ good) (a : α) : verdict good a = .error .refused := if_neg h

theorem verdict_both {good good' : Prop} {γ : Type} (a : α) (b : β) (f : α → β → γ) :
    (verdict good a >>= fun a => (verdict good' b).map (f a)) = verdict (good ∧ good') (f a b) := by
  by_cases here : good
  · by_cases there : good'
    · rw [verdict_of here, verdict_of there, verdict_of ⟨here, there⟩]
      rfl
    · rw [verdict_of here, verdict_not there, verdict_not (mt And.right there)]
      rfl
  · rw [verdict_not here, verdict_not (mt And.left here)]
    rfl

theorem verdict_map {good : Prop} (a : α) (f : α → β) : (verdict good a).map f = verdict good (f a) := by
  by_cases here : good
  · rw [verdict_of here, verdict_of here]
    rfl
  · rw [verdict_not here, verdict_not here]
    rfl

/-! ## Loops over elements

`first` tells the element in front, which a codec may align in another way. -/

/-- `n` elements. -/
abbrev Exactly (α : Type) (n : Nat) := {l : List α // l.length = n}

def Exactly.cons {n : Nat} (a : α) (l : Exactly α n) : Exactly α (n + 1) := ⟨a :: l.1, congrArg (· + 1) l.2⟩

theorem map_exactly {n : Nat} (f : α → β) (l : Exactly α n) : (l.1.map f).length = n := by
  rw [List.length_map, l.2]

def Exactly.map {n : Nat} (f : α → β) (l : Exactly α n) : Exactly β n := ⟨l.1.map f, map_exactly f l⟩

def imageEach (image : Bool → α → Nat → Bytes) : Bool → List α → Nat → Bytes
  | _, [] => fun _ => []
  | first, a :: l => andThen (image first a) (imageEach image false l)

def putEach (write : Bool → α → Bytes → Result Bytes) : Bool → List α → Bytes → Result Bytes
  | _, [], done => .ok done
  | first, a :: l, done => write first a done >>= putEach write false l

def countEach (measure : Bool → α → Nat → Result Nat) : Bool → List α → Nat → Result Nat
  | _, [], cursor => .ok cursor
  | first, a :: l, cursor => measure first a cursor >>= countEach measure false l

def takeEach (read : Bool → Bytes → Nat → Result (α × Nat)) :
    (n : Nat) → Bool → Bytes → Nat → Result (Exactly α n × Nat)
  | 0, _, _, cursor => .ok (⟨[], rfl⟩, cursor)
  | n + 1, first, payload, cursor => do
    let a ← read first payload cursor
    let l ← takeEach read n false payload a.2
    .ok (Exactly.cons a.1 l.1, l.2)

theorem puts_each {write : Bool → α → Bytes → Result Bytes} {image : Bool → α → Nat → Bytes} {l : List α}
    (one : ∀ first, ∀ a ∈ l, Puts len anywhere (write first a) (image first a)) (first : Bool) :
    Puts len anywhere (putEach write first l) (imageEach image first l) := by
  induction l generalizing first with
  | nil => exact puts_ok
  | cons a l ih =>
    have head := one first a List.mem_cons_self
    have tail := ih (fun first b member => one first b (List.mem_cons_of_mem a member)) false
    exact head.andThen tail (leads_anywhere _ _)

theorem counts_each {measure : Bool → α → Nat → Result Nat} {image : Bool → α → Nat → Bytes} {good : α → Prop}
    {l : List α} (one : ∀ first, ∀ a ∈ l, Counts anywhere (measure first a) (image first a) (good a))
    (first : Bool) : Counts anywhere (countEach measure first l) (imageEach image first l) (∀ a ∈ l, good a) := by
  induction l generalizing first with
  | nil => exact counts_ok.mono (fun _ _ => trivial) (by simp)
  | cons a l ih =>
    have head := one first a List.mem_cons_self
    have tail := ih (fun first b member => one first b (List.mem_cons_of_mem a member)) false
    exact (head.andThen tail (leads_anywhere _ _)).mono (fun _ _ => trivial) List.forall_mem_cons.mpr

theorem measures_each {measure : Bool → α → Nat → Result Nat} {image : Bool → α → Nat → Bytes} {good : α → Prop}
    {l : List α} (one : ∀ first, ∀ a ∈ l, Measures anywhere (measure first a) (image first a) (good a))
    (first : Bool) : Measures anywhere (countEach measure first l) (imageEach image first l) (∀ a ∈ l, good a) := by
  induction l generalizing first with
  | nil =>
    intro cursor n _ counted
    cases counted
    exact ⟨rfl, by simp⟩
  | cons a l ih =>
    have head := one first a List.mem_cons_self
    have tail := ih (fun first b member => one first b (List.mem_cons_of_mem a member)) false
    exact (head.andThen tail (leads_anywhere _ _)).mono (fun _ _ => trivial) List.forall_mem_cons.mpr

theorem takes_each {read : Bool → Bytes → Nat → Result (α × Nat)} {image : Bool → α → Nat → Bytes}
    {good : α → Prop} {l : List α}
    (one : ∀ first, ∀ a ∈ l, Takes anywhere (read first) (image first a) (verdict (good a) a)) (first : Bool) :
    Takes anywhere (takeEach read l.length first) (imageEach image first l)
      (verdict (∀ a ∈ l, good a) (⟨l, rfl⟩ : Exactly α l.length)) := by
  induction l generalizing first with
  | nil =>
    have all : ∀ a ∈ ([] : List α), good a := by simp
    rw [verdict_of all]
    intro before after _ small
    rfl
  | cons a l ih =>
    have head := one first a List.mem_cons_self
    have tail := ih (fun first b member => one first b (List.mem_cons_of_mem a member)) false
    have both := head.andThen (fun b _ => tail.map (Exactly.cons b)) (leads_anywhere _ _)
    rw [verdict_both] at both
    simp only [List.forall_mem_cons]
    exact both

/-- As `takes_each`, where every element is found, as `f` makes it. -/
theorem takes_each_map {read : Bool → Bytes → Nat → Result (β × Nat)} {image : Bool → α → Nat → Bytes}
    {f : α → β} {l : List α}
    (one : ∀ first, ∀ a ∈ l, Takes anywhere (read first) (image first a) (.ok (f a))) (first : Bool) :
    Takes anywhere (takeEach read l.length first) (imageEach image first l)
      (.ok (Exactly.map f (⟨l, rfl⟩ : Exactly α l.length))) := by
  induction l generalizing first with
  | nil =>
    intro before after _ small
    rfl
  | cons a l ih =>
    have head := one first a List.mem_cons_self
    have tail := ih (fun first b member => one first b (List.mem_cons_of_mem a member)) false
    exact head.andThen (fun b _ => tail.map (Exactly.cons b)) (leads_anywhere _ _)

end Cursor
