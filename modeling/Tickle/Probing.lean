import Mathlib

/-! # Open addressing

A ring of `n` slots in which every element has a home. An element is placed at the first free slot from its home on (`place`), so that
no slot between its home and its own is free (`Chained`): a probe that starts at the home of an element and stops at a free slot comes
by it.
-/

namespace Probing

variable {α : Type*} {n : Nat} {home : α → Nat} {table : Nat → Option α}

/-! ## The ring -/

/-- The steps from slot `a` on to slot `b`. -/
def ahead (n a b : Nat) : Nat := (b + (n - a % n)) % n

theorem ahead_lt (positive : 0 < n) (a b : Nat) : ahead n a b < n := Nat.mod_lt _ positive

/-- What is missing to a slot's turn, added to it. -/
theorem add_turn (positive : 0 < n) (a b : Nat) : (a + b + (n - a % n)) % n = b % n := by
  have small : a % n < n := Nat.mod_lt _ positive
  have whole : a + b + (n - a % n) = b + n * (a / n + 1) := by
    have := Nat.div_add_mod a n
    rw [Nat.mul_add, Nat.mul_one]
    omega
  rw [whole, Nat.add_mul_mod_self_left]

theorem add_ahead {a b : Nat} (within : b < n) : (a + ahead n a b) % n = b := by
  unfold ahead
  rw [Nat.add_mod_mod, ← Nat.add_assoc, add_turn (by omega), Nat.mod_eq_of_lt within]

theorem ahead_add {a j : Nat} (within : j < n) : ahead n a ((a + j) % n) = j := by
  unfold ahead
  rw [Nat.mod_add_mod, add_turn (by omega), Nat.mod_eq_of_lt within]

theorem succ_mod (a j : Nat) : ((a + j) % n + 1) % n = (a + (j + 1)) % n := by
  rw [Nat.mod_add_mod, Nat.add_assoc]

/-! ## Placing -/

/-- The first free slot from `slot` on. -/
def seek (table : Nat → Option α) (n : Nat) : (rounds : Nat) → (slot : Nat) → Nat
  | 0, slot => slot
  | rounds + 1, slot => if (table slot).isNone then slot else seek table n rounds ((slot + 1) % n)

/-- The walk ends at the first free slot. -/
theorem seek_eq {rounds a j d : Nat} (taken : ∀ i, j ≤ i → i < d → (table ((a + i) % n)).isSome)
    (free : table ((a + d) % n) = none) (some_ : j ≤ d) (enough : d - j < rounds) :
    seek table n rounds ((a + j) % n) = (a + d) % n := by
  induction rounds generalizing j with
  | zero => exact absurd enough (Nat.not_lt_zero _)
  | succ rounds ih =>
    unfold seek
    by_cases here : j = d
    · subst here
      rw [free]
      rfl
    · have full := taken j (Nat.le_refl j) (by omega)
      have notFree : (table ((a + j) % n)).isNone = false := by
        rw [Option.isNone_eq_false_iff]
        exact full
      rw [notFree, if_neg Bool.false_ne_true, succ_mod]
      exact ih (fun i from_ before => taken i (by omega) before) (by omega) (by omega)

/-- The first free slot from `a` on, when there is one. -/
theorem exists_free {slot : Nat} (within : slot < n) (free : table slot = none) (a : Nat) :
    ∃ d < n, table ((a + d) % n) = none ∧ ∀ i < d, (table ((a + i) % n)).isSome := by
  classical
  have there : ∃ d, d < n ∧ table ((a + d) % n) = none :=
    ⟨ahead n a slot, ahead_lt (by omega) a slot, by rw [add_ahead within]; exact free⟩
  refine ⟨Nat.find there, (Nat.find_spec there).1, (Nat.find_spec there).2, ?_⟩
  intro i before
  have notFree := Nat.find_min there before
  rw [Option.isSome_iff_ne_none]
  intro none_
  exact notFree ⟨before.trans (Nat.find_spec there).1, none_⟩

/-- The element put at the first free slot from its home on. -/
def place (n : Nat) (home : α → Nat) (table : Nat → Option α) (x : α) : Nat → Option α :=
  fun slot => if slot = seek table n n (home x % n) then some x else table slot

/-- What the slots of a table hold of a list of elements: each at one slot, in no other, and none that is not of the list; nothing
free between an element and its home. -/
structure Holds (n : Nat) (home : α → Nat) (table : Nat → Option α) (elements : List α) : Prop where
  mem : ∀ slot < n, ∀ x, table slot = some x → x ∈ elements
  there : ∀ x ∈ elements, ∃ slot < n, table slot = some x
  once : ∀ slot < n, ∀ slot' < n, ∀ x, table slot = some x → table slot' = some x → slot = slot'
  chained : ∀ slot < n, ∀ x, table slot = some x → ∀ j < ahead n (home x) slot, (table ((home x + j) % n)).isSome
  room : ((Finset.range n).filter fun slot => (table slot).isSome).card = elements.length

theorem Holds.free {elements : List α} (holds : Holds n home table elements) (fewer : elements.length < n) :
    ∃ slot < n, table slot = none := by
  by_contra full
  push Not at full
  have all : (Finset.range n).filter (fun slot => (table slot).isSome) = Finset.range n := by
    apply Finset.filter_true_of_mem
    intro slot mem
    rw [Option.isSome_iff_ne_none]
    exact full slot (Finset.mem_range.mp mem)
  have card := holds.room
  rw [all, Finset.card_range] at card
  omega

theorem holds_empty (nothing : ∀ slot < n, table slot = none) : Holds n home table [] where
  mem := by
    intro slot within x some_
    rw [nothing slot within] at some_
    exact absurd some_ (by simp)
  there := fun x mem => absurd mem List.not_mem_nil
  once := by
    intro slot within _ _ x some_
    rw [nothing slot within] at some_
    exact absurd some_ (by simp)
  chained := by
    intro slot within x some_
    rw [nothing slot within] at some_
    exact absurd some_ (by simp)
  room := by
    rw [List.length_nil, Finset.card_eq_zero, Finset.filter_eq_empty_iff]
    intro slot mem
    rw [nothing slot (Finset.mem_range.mp mem)]
    exact Bool.false_ne_true

/-- Where an element is placed. -/
theorem place_slot {elements : List α} (holds : Holds n home table elements) (fewer : elements.length < n) (x : α) :
    ∃ d < n, seek table n n (home x % n) = (home x + d) % n ∧ table ((home x + d) % n) = none ∧
      ∀ i < d, (table ((home x + i) % n)).isSome := by
  obtain ⟨slot, within, free⟩ := holds.free fewer
  obtain ⟨d, short, none_, before⟩ := exists_free within free (home x)
  refine ⟨d, short, ?_, none_, before⟩
  have walked := @seek_eq α n table n (home x) 0 d (fun i _ => before i) none_ (Nat.zero_le _) (by omega)
  exact walked

theorem Holds.place {elements : List α} (holds : Holds n home table elements) (fewer : elements.length < n) {x : α}
    (new : x ∉ elements) : Holds n home (Probing.place n home table x) (elements ++ [x]) := by
  obtain ⟨d, short, found, free, before⟩ := place_slot holds fewer x
  have positive : 0 < n := by omega
  have inside : (home x + d) % n < n := Nat.mod_lt _ positive
  have at_ : Probing.place n home table x ((home x + d) % n) = some x := by
    unfold Probing.place
    rw [found, if_pos rfl]
  have other : ∀ slot, slot ≠ (home x + d) % n → Probing.place n home table x slot = table slot := by
    intro slot differ
    unfold Probing.place
    rw [found, if_neg differ]
  have grows : ∀ slot, (table slot).isSome → (Probing.place n home table x slot).isSome := by
    intro slot full
    rw [other slot]
    · exact full
    · rintro rfl
      rw [free] at full
      exact absurd full (by simp)
  have back : ∀ slot y, Probing.place n home table x slot = some y → y ≠ x → table slot = some y := by
    intro slot y some_ differ
    rwa [other slot] at some_
    rintro rfl
    rw [at_] at some_
    exact differ (Option.some_injective _ some_).symm
  have only : ∀ slot < n, Probing.place n home table x slot = some x → slot = (home x + d) % n := by
    intro slot within some_
    by_contra differ
    rw [other slot differ] at some_
    exact new (holds.mem slot within x some_)
  constructor
  · intro slot within y some_
    rw [List.mem_append, List.mem_singleton]
    by_cases same : y = x
    · exact .inr same
    · exact .inl (holds.mem slot within y (back slot y some_ same))
  · intro y mem
    rw [List.mem_append, List.mem_singleton] at mem
    rcases mem with old | rfl
    · obtain ⟨slot, within, some_⟩ := holds.there y old
      refine ⟨slot, within, ?_⟩
      rw [other slot]
      · exact some_
      · rintro rfl
        rw [free] at some_
        exact absurd some_ (by simp)
    · exact ⟨_, inside, at_⟩
  · intro slot within slot' within' y some_ some_'
    by_cases same : y = x
    · subst same
      rw [only slot within some_, only slot' within' some_']
    · exact holds.once slot within slot' within' y (back slot y some_ same) (back slot' y some_' same)
  · intro slot within y some_ j near
    by_cases same : y = x
    · subst same
      rw [only slot within some_, ahead_add short] at near
      exact grows _ (before j near)
    · exact grows _ (holds.chained slot within y (back slot y some_ same) j near)
  · have inserted : (Finset.range n).filter (fun slot => (Probing.place n home table x slot).isSome) =
        insert ((home x + d) % n) ((Finset.range n).filter fun slot => (table slot).isSome) := by
      ext slot
      rw [Finset.mem_insert, Finset.mem_filter, Finset.mem_filter, Finset.mem_range]
      by_cases here : slot = (home x + d) % n
      · subst here
        simp [at_, inside]
      · rw [other slot here]
        simp [here]
    rw [inserted, Finset.card_insert_of_notMem, holds.room, List.length_append, List.length_singleton]
    rw [Finset.mem_filter, free]
    simp

/-- What holds of a table, and of the elements placed in it, holds after placing the elements of a list one after the other. -/
theorem placeAll_rule {P : (Nat → Option α) → List α → Prop}
    (step : ∀ table placed x, placed.length < n → x ∉ placed → P table placed → P (place n home table x) (placed ++ [x]))
    {placed elements : List α} (start : P table placed) (fewer : placed.length + elements.length < n)
    (distinct : (placed ++ elements).Nodup) : P (elements.foldl (place n home) table) (placed ++ elements) := by
  induction elements generalizing table placed with
  | nil =>
    rw [List.append_nil]
    exact start
  | cons x rest ih =>
    have new : x ∉ placed := by
      intro mem
      exact List.disjoint_of_nodup_append distinct mem List.mem_cons_self
    rw [List.length_cons] at fewer
    have next := step table placed x (by omega) new start
    have whole : placed ++ x :: rest = placed ++ [x] ++ rest := by simp
    rw [List.foldl_cons]
    rw [whole] at distinct ⊢
    apply ih next _ distinct
    rw [List.length_append, List.length_singleton]
    omega

theorem Holds.placeAll {placed elements : List α} (holds : Holds n home table placed)
    (fewer : placed.length + elements.length < n) (distinct : (placed ++ elements).Nodup) :
    Holds n home (elements.foldl (Probing.place n home) table) (placed ++ elements) := by
  apply placeAll_rule (P := Holds n home) _ holds fewer distinct
  intro table placed x fewer new holds
  exact holds.place fewer new

/-- Between an element and its home no slot is free: a free slot `d` from its home lies past it. -/
theorem Holds.before_free {elements : List α} (holds : Holds n home table elements) {x : α} {j d : Nat} (within : j < n)
    (there : table ((home x + j) % n) = some x) (free : table ((home x + d) % n) = none) : j < d := by
  by_contra past
  have positive : 0 < n := by omega
  by_cases same : d = j
  · rw [same, there] at free
    exact absurd free (by simp)
  · have full := holds.chained _ (Nat.mod_lt _ positive) x there d (by rw [ahead_add within]; omega)
    rw [free] at full
    exact absurd full (by simp)

/-! ## Order -/

/-- Of two elements of one home the one placed first lies nearer to it. -/
def InOrder (n : Nat) (home : α → Nat) (table : Nat → Option α) (elements : List α) : Prop :=
  elements.Pairwise fun x y => home x = home y → ∀ j < n, ∀ k < n,
    table ((home x + j) % n) = some x → table ((home x + k) % n) = some y → j < k

theorem InOrder.place {elements : List α} (holds : Holds n home table elements) (inOrder : InOrder n home table elements)
    (fewer : elements.length < n) {x : α} (new : x ∉ elements) :
    InOrder n home (Probing.place n home table x) (elements ++ [x]) := by
  obtain ⟨d, short, found, free, before⟩ := place_slot holds fewer x
  have back : ∀ slot < n, ∀ y ∈ elements, Probing.place n home table x slot = some y → table slot = some y := by
    intro slot within y mem some_
    unfold Probing.place at some_
    split at some_
    · rw [Option.some.injEq] at some_
      exact absurd (some_ ▸ mem) new
    · exact some_
  have only : ∀ k < n, Probing.place n home table x ((home x + k) % n) = some x → k = d := by
    intro k within some_
    unfold Probing.place at some_
    split at some_
    · next here =>
      rw [found] at here
      rw [← @ahead_add n (home x) k within, here, ahead_add short]
    · exact absurd (holds.mem _ (Nat.mod_lt _ (by omega)) x some_) new
  unfold InOrder
  rw [List.pairwise_append]
  refine ⟨?_, List.pairwise_singleton _ _, ?_⟩
  · apply List.Pairwise.imp_of_mem _ inOrder
    intro y z memY memZ nearer same j withinJ k withinK atJ atK
    have positive : 0 < n := by omega
    exact nearer same j withinJ k withinK (back _ (Nat.mod_lt _ positive) y memY atJ)
      (back _ (Nat.mod_lt _ positive) z memZ atK)
  · intro y mem z last same j withinJ k withinK atJ atK
    rw [List.mem_singleton] at last
    subst last
    rw [same] at atJ atK
    rw [only k withinK atK]
    have old := back _ (Nat.mod_lt _ (by omega)) y mem atJ
    rw [← same] at old free
    exact holds.before_free withinJ old free

/-- A table built from a list has the elements of a home in the order of the list. -/
theorem InOrder.placeAll {placed elements : List α} (holds : Holds n home table placed) (inOrder : InOrder n home table placed)
    (fewer : placed.length + elements.length < n) (distinct : (placed ++ elements).Nodup) :
    InOrder n home (elements.foldl (Probing.place n home) table) (placed ++ elements) := by
  have step : ∀ table placed x, placed.length < n → x ∉ placed → Holds n home table placed ∧ InOrder n home table placed →
      Holds n home (Probing.place n home table x) (placed ++ [x]) ∧
        InOrder n home (Probing.place n home table x) (placed ++ [x]) := by
    rintro table placed x fewer new ⟨holds, inOrder⟩
    exact ⟨holds.place fewer new, inOrder.place holds fewer new⟩
  exact (placeAll_rule step ⟨holds, inOrder⟩ fewer distinct).2

/-! ## Looking up -/

/-- The walk from `slot` on to the first slot that is free or has what is looked for: nothing when the rounds are not enough. -/
def probe (table : Nat → Option α) (n : Nat) (p : α → Bool) : (rounds : Nat) → (slot : Nat) → Option (Option α)
  | 0, _ => none
  | rounds + 1, slot =>
    match table slot with
    | none => some none
    | some x => if p x then some (some x) else probe table n p rounds ((slot + 1) % n)

variable {p : α → Bool}

theorem probe_free {rounds slot : Nat} (free : table slot = none) : probe table n p (rounds + 1) slot = some none := by
  rw [probe, free]

theorem probe_hit {rounds slot : Nat} {x : α} (there : table slot = some x) (hit : p x = true) :
    probe table n p (rounds + 1) slot = some (some x) := by
  rw [probe, there]
  exact if_pos hit

theorem probe_next {rounds slot : Nat} {x : α} (there : table slot = some x) (other : p x = false) :
    probe table n p (rounds + 1) slot = probe table n p rounds ((slot + 1) % n) := by
  rw [probe, there]
  exact if_neg (by rw [other]; exact Bool.false_ne_true)

/-- The walk passes the slots that have something else. -/
theorem probe_pass {rounds a j d : Nat} (other : ∀ i, j ≤ i → i < d → ∃ x, table ((a + i) % n) = some x ∧ p x = false)
    (some_ : j ≤ d) (enough : d - j ≤ rounds) :
    probe table n p rounds ((a + j) % n) = probe table n p (rounds - (d - j)) ((a + d) % n) := by
  induction rounds generalizing j with
  | zero =>
    have here : j = d := by omega
    rw [here]
    simp
  | succ rounds ih =>
    by_cases here : j = d
    · rw [here]
      simp
    · obtain ⟨x, there, differs⟩ := other j (Nat.le_refl j) (by omega)
      rw [probe_next there differs, succ_mod, ih (fun i after before => other i (by omega) before) (by omega) (by omega)]
      have left : rounds + 1 - (d - j) = rounds - (d - (j + 1)) := by omega
      rw [left]

/-- A walk from a home finds the first element of that home that has what is looked for, and needs no more rounds than there are
slots. -/
theorem Holds.probe_eq {elements : List α} (holds : Holds n home table elements) (inOrder : InOrder n home table elements)
    (fewer : elements.length < n) {a rounds : Nat} (homed : ∀ x ∈ elements, p x = true → home x = a) (enough : n ≤ rounds) :
    probe table n p rounds (a % n) = some (elements.find? p) := by
  have positive : 0 < n := by omega
  cases sought : elements.find? p with
  | none =>
    rw [List.find?_eq_none] at sought
    obtain ⟨slot, within, free⟩ := holds.free fewer
    obtain ⟨d, short, none_, before⟩ := exists_free within free a
    have other : ∀ i, 0 ≤ i → i < d → ∃ x, table ((a + i) % n) = some x ∧ p x = false := by
      intro i _ near
      obtain ⟨x, there⟩ := Option.isSome_iff_exists.mp (before i near)
      exact ⟨x, there, Bool.eq_false_iff.mpr (sought x (holds.mem _ (Nat.mod_lt _ positive) x there))⟩
    have walked := probe_pass other (Nat.zero_le d) (by omega : d - 0 ≤ rounds)
    rw [Nat.add_zero] at walked
    obtain ⟨left, more⟩ := Nat.exists_eq_add_of_lt (by omega : d - 0 < rounds)
    rw [walked, more, show d - 0 + left + 1 - (d - 0) = left + 1 by omega, probe_free none_]
  | some x =>
    obtain ⟨hit, earlier, later, split_, missed⟩ := List.find?_eq_some_iff_append.mp sought
    have mem : x ∈ elements := List.mem_of_find?_eq_some sought
    have homeX := homed x mem hit
    obtain ⟨slot, within, there⟩ := holds.there x mem
    have short := ahead_lt positive a slot
    have place_ : (a + ahead n a slot) % n = slot := add_ahead within
    have other : ∀ i, 0 ≤ i → i < ahead n a slot → ∃ y, table ((a + i) % n) = some y ∧ p y = false := by
      intro i _ near
      have full := holds.chained slot within x there i (by rw [homeX]; exact near)
      rw [homeX] at full
      obtain ⟨y, atY⟩ := Option.isSome_iff_exists.mp full
      refine ⟨y, atY, ?_⟩
      -- a hit of an element before `x` in the list is excluded by `find?`, of one after it by the order
      by_contra found
      rw [Bool.not_eq_false] at found
      have memY := holds.mem _ (Nat.mod_lt _ positive) y atY
      have homeY := homed y memY found
      rw [split_, List.mem_append, List.mem_cons] at memY
      rcases memY with old | rfl | young
      · have := missed y old
        simp [found] at this
      · have same := holds.once _ (Nat.mod_lt _ positive) slot within y atY there
        have steps : ahead n a slot = i := by rw [← same, ahead_add (near.trans short)]
        omega
      · rw [split_] at inOrder
        have nearer := (List.pairwise_cons.mp (List.pairwise_append.mp inOrder).2.1).1 y young
        have := nearer (homeX.trans homeY.symm) (ahead n a slot) short i (by omega)
          (by rw [homeX, place_]; exact there) (by rw [homeX]; exact atY)
        omega
    have walked := probe_pass other (Nat.zero_le _) (by omega : ahead n a slot - 0 ≤ rounds)
    rw [Nat.add_zero, place_] at walked
    obtain ⟨left, more⟩ := Nat.exists_eq_add_of_lt (by omega : ahead n a slot - 0 < rounds)
    rw [walked, more, show ahead n a slot - 0 + left + 1 - (ahead n a slot - 0) = left + 1 by omega, probe_hit there hit]

/-- A walk that looks for less finds its way as well. -/
theorem probe_less {q : α → Bool} (less : ∀ x, q x = true → p x = true) {rounds slot : Nat}
    (found : probe table n q rounds slot = some none) : ∃ first, probe table n p rounds slot = some first := by
  induction rounds generalizing slot with
  | zero => exact absurd found (by simp [probe])
  | succ rounds ih =>
    cases there : table slot with
    | none => exact ⟨none, probe_free there⟩
    | some x =>
      by_cases hit : p x = true
      · exact ⟨some x, probe_hit there hit⟩
      · have missed : q x = false := Bool.eq_false_iff.mpr fun hitQ => hit (less x hitQ)
        rw [probe_next there missed] at found
        obtain ⟨first, same⟩ := ih found
        exact ⟨first, by rw [probe_next there (Bool.eq_false_iff.mpr hit), same]⟩

/-! ## Tables that may fill

Where an element may stand at several slots and the table may have no free slot left, a walk takes as many rounds as there are slots
and then gives up. -/

/-- The element at the first free slot from `slot` on, or nowhere when there is none within the rounds. -/
def put (table : Nat → Option α) (n : Nat) (x : α) : (rounds : Nat) → (slot : Nat) → Nat → Option α
  | 0, _ => table
  | rounds + 1, slot =>
    if (table slot).isNone then Function.update table slot (some x) else put table n x rounds ((slot + 1) % n)

theorem put_eq {x : α} {rounds a j d : Nat} (taken : ∀ i, j ≤ i → i < d → (table ((a + i) % n)).isSome)
    (free : table ((a + d) % n) = none) (some_ : j ≤ d) (enough : d - j < rounds) :
    put table n x rounds ((a + j) % n) = Function.update table ((a + d) % n) (some x) := by
  induction rounds generalizing j with
  | zero => exact absurd enough (Nat.not_lt_zero _)
  | succ rounds ih =>
    unfold put
    by_cases here : j = d
    · subst here
      rw [free]
      rfl
    · have full := taken j (Nat.le_refl j) (by omega)
      rw [Option.isNone_eq_false_iff.mpr full, if_neg Bool.false_ne_true, succ_mod]
      exact ih (fun i after before => taken i (by omega) before) (by omega) (by omega)

theorem put_full {x : α} (full : ∀ slot < n, (table slot).isSome) (positive : 0 < n) {rounds slot : Nat} (within : slot < n) :
    put table n x rounds slot = table := by
  induction rounds generalizing slot with
  | zero => rfl
  | succ rounds ih =>
    unfold put
    rw [Option.isNone_eq_false_iff.mpr (full slot within), if_neg Bool.false_ne_true]
    exact ih (Nat.mod_lt _ positive)

/-- Where there is a free slot, an element is put where it would be placed. -/
theorem put_eq_place {elements : List α} (holds : Holds n home table elements) (fewer : elements.length < n) (x : α) :
    put table n x n (home x % n) = place n home table x := by
  obtain ⟨d, short, found, free, before⟩ := place_slot holds fewer x
  have walked := @put_eq α n table x n (home x) 0 d (fun i _ => before i) free (Nat.zero_le _) (by omega)
  rw [Nat.add_zero] at walked
  rw [walked]
  funext slot
  unfold place
  rw [found, Function.update_apply]

theorem Holds.putAll {placed elements : List α} (holds : Holds n home table placed)
    (fewer : placed.length + elements.length < n) (distinct : (placed ++ elements).Nodup) :
    elements.foldl (fun built x => put built n x n (home x % n)) table = elements.foldl (Probing.place n home) table := by
  induction elements generalizing table placed with
  | nil => rfl
  | cons x rest ih =>
    have new : x ∉ placed := by
      intro mem
      exact List.disjoint_of_nodup_append distinct mem List.mem_cons_self
    rw [List.length_cons] at fewer
    have whole : placed ++ x :: rest = placed ++ [x] ++ rest := by simp
    rw [whole] at distinct
    rw [List.foldl_cons, List.foldl_cons, put_eq_place holds (by omega)]
    apply ih (holds.place (by omega) new) _ distinct
    rw [List.length_append, List.length_singleton]
    omega

/-- A walk from the home of the element comes by it before a free slot. -/
def Reached (n : Nat) (home : α → Nat) (table : Nat → Option α) (x : α) : Prop :=
  ∃ d < n, table ((home x + d) % n) = some x ∧ ∀ j < d, (table ((home x + j) % n)).isSome

theorem Holds.reached {elements : List α} (holds : Holds n home table elements) {x : α} (mem : x ∈ elements) :
    Reached n home table x := by
  obtain ⟨slot, within, there⟩ := holds.there x mem
  have positive : 0 < n := by omega
  refine ⟨ahead n (home x) slot, ahead_lt positive _ _, ?_, holds.chained slot within x there⟩
  rw [add_ahead within]
  exact there

theorem Reached.grows {table' : Nat → Option α} {x : α} (reached : Reached n home table x)
    (kept : ∀ slot y, table slot = some y → table' slot = some y) : Reached n home table' x := by
  obtain ⟨d, short, there, before⟩ := reached
  refine ⟨d, short, kept _ _ there, ?_⟩
  intro j near
  obtain ⟨y, at_⟩ := Option.isSome_iff_exists.mp (before j near)
  rw [kept _ y at_]
  rfl

/-- What a put leaves as it is. -/
theorem put_kept {x : α} {rounds slot : Nat} {at_ : Nat} {y : α} (there : table at_ = some y) :
    put table n x rounds slot at_ = some y := by
  induction rounds generalizing slot with
  | zero => exact there
  | succ rounds ih =>
    unfold put
    split
    · next free =>
      rw [Function.update_of_ne _ _ _, there]
      rintro rfl
      rw [there] at free
      exact absurd free Bool.false_ne_true
    · exact ih

/-- What a put adds. -/
theorem put_new {x : α} {rounds slot : Nat} {at_ : Nat} {y : α} (there : put table n x rounds slot at_ = some y) :
    table at_ = some y ∨ y = x := by
  induction rounds generalizing slot with
  | zero => exact .inl there
  | succ rounds ih =>
    unfold put at there
    split at there
    · by_cases here : at_ = slot
      · rw [here, Function.update_self, Option.some.injEq] at there
        exact .inr there.symm
      · rw [Function.update_of_ne here] at there
        exact .inl there
    · exact ih there

/-- An element put is reached, unless the table is full; one that stands somewhere in a full table is reached as well. -/
theorem reached_put {x : α} (positive : 0 < n) (there : (∃ slot < n, table slot = none) ∨ ∃ slot < n, table slot = some x) :
    Reached n home (put table n x n (home x % n)) x := by
  by_cases room : ∃ slot < n, table slot = none
  · obtain ⟨slot, within, free⟩ := room
    obtain ⟨d, short, none_, before⟩ := exists_free within free (home x)
    have walked := @put_eq α n table x n (home x) 0 d (fun i _ => before i) none_ (Nat.zero_le _) (by omega)
    rw [Nat.add_zero] at walked
    rw [walked]
    refine ⟨d, short, Function.update_self .., ?_⟩
    intro j near
    rw [Function.update_apply]
    split
    · rfl
    · exact before j near
  · have full : ∀ slot < n, (table slot).isSome := by
      intro slot within
      rw [Option.isSome_iff_ne_none]
      exact fun free => room ⟨slot, within, free⟩
    obtain ⟨slot, within, at_⟩ := there.resolve_left room
    rw [put_full full positive (Nat.mod_lt _ positive)]
    refine ⟨ahead n (home x) slot, ahead_lt positive _ _, ?_, fun j _ => full _ (Nat.mod_lt _ positive)⟩
    rw [add_ahead within]
    exact at_

/-- A walk finds the one element that has what is looked for. -/
theorem Reached.probe_eq {x : α} (reached : Reached n home table x) (hit : p x = true)
    (only : ∀ slot < n, ∀ y, table slot = some y → p y = true → y = x) : probe table n p n (home x % n) = some (some x) := by
  classical
  obtain ⟨far, short, there, taken⟩ := reached
  have positive : 0 < n := by omega
  have exists_ : ∃ d, table ((home x + d) % n) = some x := ⟨far, there⟩
  obtain ⟨d, dDef⟩ : ∃ d, d = Nat.find exists_ := ⟨_, rfl⟩
  have at_ : table ((home x + d) % n) = some x := dDef ▸ Nat.find_spec exists_
  have near : d ≤ far := dDef ▸ Nat.find_min' exists_ there
  have other : ∀ i, 0 ≤ i → i < d → ∃ y, table ((home x + i) % n) = some y ∧ p y = false := by
    intro i _ before
    obtain ⟨y, atY⟩ := Option.isSome_iff_exists.mp (taken i (by omega))
    refine ⟨y, atY, ?_⟩
    by_contra found
    rw [Bool.not_eq_false] at found
    have same := only _ (Nat.mod_lt _ positive) y atY found
    exact Nat.find_min exists_ (dDef ▸ before) (same ▸ atY)
  have walked := probe_pass other (Nat.zero_le d) (by omega : d - 0 ≤ n)
  rw [Nat.add_zero] at walked
  obtain ⟨left, more⟩ := Nat.exists_eq_add_of_lt (by omega : d - 0 < n)
  rw [walked, show n - (d - 0) = left + 1 by omega, probe_hit at_ hit]

/-- A walk finds nothing where no element has what is looked for. -/
theorem probe_nothing (positive : 0 < n) (none_ : ∀ slot < n, ∀ y, table slot = some y → p y = false) {rounds slot : Nat}
    (within : slot < n) : (probe table n p rounds slot).join = none := by
  induction rounds generalizing slot with
  | zero => rfl
  | succ rounds ih =>
    cases there : table slot with
    | none =>
      rw [probe_free there]
      rfl
    | some y =>
      rw [probe_next there (none_ slot within y there)]
      exact ih (Nat.mod_lt _ positive)

/-- What a walk finds stands in the table and has what is looked for. -/
theorem probe_found (positive : 0 < n) {x : α} {rounds slot : Nat} (within : slot < n)
    (found : probe table n p rounds slot = some (some x)) : p x = true ∧ ∃ slot' < n, table slot' = some x := by
  induction rounds generalizing slot with
  | zero => exact absurd found (by simp [probe])
  | succ rounds ih =>
    cases there : table slot with
    | none =>
      rw [probe_free there] at found
      exact absurd found (by simp)
    | some y =>
      by_cases hit : p y = true
      · rw [probe_hit there hit, Option.some.injEq, Option.some.injEq] at found
        subst found
        exact ⟨hit, slot, within, there⟩
      · rw [probe_next there (Bool.eq_false_iff.mpr hit)] at found
        exact ih (Nat.mod_lt _ positive) found

end Probing
