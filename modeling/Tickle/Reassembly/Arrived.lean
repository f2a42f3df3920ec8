import Tickle.Reassembly.Delivered

/-! # A sample all of whose units have come

While a sample is put together there is one slot that collects its units. As long as a slot is there for
them and is not given to another sample meanwhile, the slot has every unit that has come, in any order and
any number of times, and the one that comes last hands the sample over.
-/

namespace Tickle

namespace FragSample

variable {node : Context} (s : FragSample node)

/-- The slot has units of the sample. -/
def inProgress (slot : FragSlot) : Bool := slot.isFor (s.fragment 0) && slot.received ≠ ∅

def inSlot (slots : List FragSlot) (i : Nat) : Bool :=
  match slots[i]? with
  | some slot => s.inProgress slot
  | none => false

/-- The slots while the sample is not handed over: one slot has the units that have come. -/
structure Collects (arrived : Finset Nat) (slots : List FragSlot) : Prop where
  undone : ∀ (i : Nat) (slot : FragSlot), slots[i]? = some slot → slot.isFor (s.fragment 0) = true → slot.done = false
  one : ∀ (i j : Nat) (a b : FragSlot), slots[i]? = some a → slots[j]? = some b → s.inProgress a = true →
    s.inProgress b = true → i = j
  part : ∀ (i : Nat) (slot : FragSlot), slots[i]? = some slot → s.inProgress slot = true →
    slot.received ≠ Finset.range s.count
  has : ∀ n ∈ arrived, ∃ (i : Nat) (slot : FragSlot), slots[i]? = some slot ∧ slot.isFor (s.fragment 0) = true ∧ n ∈ slot.received

/-- A slot is there for the sample's units, and stays. -/
def Served (r : Reassembler) : FragEvent → Prop
  | .fragment f claim overflow =>
    (s.names f = false → ∀ i ∈ claim, s.inSlot r.slots i = false) ∧
    (∀ k ∈ overflow, s.inSlot r.slots (k + 1) = false) ∧
    (f.index < s.count → f = s.fragment f.index →
      ∃ place ∈ (r.prepare f claim overflow).2, s.cdr.length ≤ place.2.capacity)
  | .move dest => s.inSlot r.slots (dest + 1) = false
  | .release i => s.inSlot r.slots i = false

/-- The unit of the sample that an event brings. -/
def unitOf : FragEvent → Finset Nat
  | .fragment f _ _ => if f.index < s.count ∧ f = s.fragment f.index then {f.index} else ∅
  | _ => ∅

instance (r : Reassembler) : ∀ event, Decidable (s.Served r event)
  | .fragment .. => inferInstanceAs (Decidable (_ ∧ _ ∧ _))
  | .move _ => inferInstanceAs (Decidable (_ = _))
  | .release _ => inferInstanceAs (Decidable (_ = _))

variable {s} {arrived : Finset Nat} {slots : List FragSlot} {i j : Nat} {old new : FragSlot}

theorem getElem?_set_cases {x : FragSlot} (found : (slots.set i new)[j]? = some x) :
    (j = i ∧ x = new) ∨ (j ≠ i ∧ slots[j]? = some x) := by
  rw [List.getElem?_set] at found
  split at found
  · next same =>
    split at found
    · exact .inl ⟨same.symm, (Option.some.inj found).symm⟩
    · cases found
  · next other => exact .inr ⟨Ne.symm other, found⟩

theorem inProgress_of_mem {n : Nat} {slot : FragSlot} (names : slot.isFor (s.fragment 0) = true)
    (mem : n ∈ slot.received) : s.inProgress slot = true := by
  simp only [inProgress, names, Bool.true_and, decide_eq_true_eq]
  exact Finset.ne_empty_of_mem mem

/-- A slot that has none of the sample's units is used for something else. -/
theorem Collects.replace (h : s.Collects arrived slots) (there : slots[i]? = some old)
    (idle : s.inProgress old = false) (idle' : s.inProgress new = false)
    (undone : new.isFor (s.fragment 0) = true → new.done = false) :
    s.Collects arrived (slots.set i new) where
  undone := by
    intro k x found names
    obtain ⟨-, rfl⟩ | ⟨-, before⟩ := getElem?_set_cases found
    · exact undone names
    · exact h.undone k x before names
  one := by
    intro k l a b at_k at_l prog_a prog_b
    obtain ⟨-, rfl⟩ | ⟨-, before⟩ := getElem?_set_cases at_k
    · rw [idle'] at prog_a
      cases prog_a
    · obtain ⟨-, rfl⟩ | ⟨-, before'⟩ := getElem?_set_cases at_l
      · rw [idle'] at prog_b
        cases prog_b
      · exact h.one k l a b before before' prog_a prog_b
  part := by
    intro k x found prog
    obtain ⟨-, rfl⟩ | ⟨-, before⟩ := getElem?_set_cases found
    · rw [idle'] at prog
      cases prog
    · exact h.part k x before prog
  has := by
    intro n mem
    obtain ⟨k, x, at_k, names, in_x⟩ := h.has n mem
    have other : k ≠ i := by
      rintro rfl
      have same : x = old := Option.some.inj (at_k.symm.trans there)
      rw [← same, inProgress_of_mem names in_x] at idle
      cases idle
    exact ⟨k, x, by rw [List.getElem?_set_ne (Ne.symm other)]; exact at_k, names, in_x⟩

/-- A slot of another sample stays one of another sample. -/
theorem Collects.replace_foreign (h : s.Collects arrived slots) (there : slots[i]? = some old)
    (foreign : old.isFor (s.fragment 0) = false) (foreign' : new.isFor (s.fragment 0) = false) :
    s.Collects arrived (slots.set i new) := by
  apply h.replace there
  · simp [inProgress, foreign]
  · simp [inProgress, foreign']
  · intro names
    rw [foreign'] at names
    cases names

/-- The sample's slot, or the first it gets, takes a unit. -/
theorem Collects.update (h : s.Collects arrived slots) (there : slots[i]? = some old)
    (names : new.isFor (s.fragment 0) = true) (undone : new.done = false)
    (grows : old.isFor (s.fragment 0) = true → old.received ⊆ new.received)
    (alone : s.inProgress old = true ∨ ∀ (k : Nat) (x : FragSlot), slots[k]? = some x → s.inProgress x = false)
    (part : new.received ≠ Finset.range s.count) {n : Nat} (mem : n ∈ new.received) :
    s.Collects (insert n arrived) (slots.set i new) where
  undone := by
    intro k x found names
    obtain ⟨-, rfl⟩ | ⟨-, before⟩ := getElem?_set_cases found
    · exact undone
    · exact h.undone k x before names
  one := by
    have apart : ∀ (k : Nat) (x : FragSlot), k ≠ i → slots[k]? = some x → s.inProgress x = true → False := by
      intro k x other at_k prog
      rcases alone with own | none
      · exact other (h.one k i x old at_k there prog own)
      · rw [none k x at_k] at prog
        cases prog
    intro k l a b at_k at_l prog_a prog_b
    obtain ⟨rfl, -⟩ | ⟨other, before⟩ := getElem?_set_cases at_k
    · obtain ⟨rfl, -⟩ | ⟨other, before⟩ := getElem?_set_cases at_l
      · rfl
      · exact (apart l b other before prog_b).elim
    · exact (apart k a other before prog_a).elim
  part := by
    intro k x found prog
    obtain ⟨-, rfl⟩ | ⟨-, before⟩ := getElem?_set_cases found
    · exact part
    · exact h.part k x before prog
  has := by
    have at_i : (slots.set i new)[i]? = some new :=
      List.getElem?_set_self (List.getElem?_eq_some_iff.mp there).1
    intro m also
    rcases Finset.mem_insert.mp also with rfl | before
    · exact ⟨i, new, at_i, names, mem⟩
    · obtain ⟨k, x, at_k, names_x, in_x⟩ := h.has m before
      by_cases same : k = i
      · subst same
        have old_x : x = old := Option.some.inj (at_k.symm.trans there)
        subst old_x
        exact ⟨k, new, at_i, names, grows names_x in_x⟩
      · exact ⟨k, x, by rw [List.getElem?_set_ne (Ne.symm same)]; exact at_k, names_x, in_x⟩

/-- What is in one slot goes to another, idle one. -/
theorem Collects.move (h : s.Collects arrived slots) {dest : FragSlot} (at_i : slots[i]? = some old)
    (at_j : slots[j]? = some dest) (apart : i ≠ j) (idle : s.inProgress dest = false)
    {moved : FragSlot} (isFor : moved.isFor (s.fragment 0) = old.isFor (s.fragment 0))
    (received : moved.received = old.received) (undone : moved.done = false) :
    s.Collects arrived ((slots.set i old.release).set j moved) := by
  have same_progress : s.inProgress moved = s.inProgress old := by simp [inProgress, isFor, received]
  have released : s.inProgress old.release = false := by simp [inProgress, FragSlot.release]
  -- every slot in progress afterwards is the moved one or one that was in progress elsewhere before
  have from_before : ∀ (k : Nat) (x : FragSlot), ((slots.set i old.release).set j moved)[k]? = some x →
      s.inProgress x = true → (k = j ∧ x = moved) ∨ (k ≠ i ∧ slots[k]? = some x) := by
    intro k x found prog
    obtain ⟨rfl, rfl⟩ | ⟨-, before⟩ := getElem?_set_cases found
    · exact .inl ⟨rfl, rfl⟩
    · obtain ⟨-, rfl⟩ | ⟨other, before⟩ := getElem?_set_cases before
      · rw [released] at prog
        cases prog
      · exact .inr ⟨other, before⟩
  refine ⟨?_, ?_, ?_, ?_⟩
  · intro k x found names
    obtain ⟨-, rfl⟩ | ⟨-, before⟩ := getElem?_set_cases found
    · exact undone
    · obtain ⟨-, rfl⟩ | ⟨-, before⟩ := getElem?_set_cases before
      · rfl
      · exact h.undone k x before names
  · intro k l a b at_k at_l prog_a prog_b
    obtain ⟨rfl, rfl⟩ | ⟨other_k, before_k⟩ := from_before k a at_k prog_a
    · obtain ⟨rfl, -⟩ | ⟨other_l, before_l⟩ := from_before l b at_l prog_b
      · rfl
      · rw [same_progress] at prog_a
        exact (other_l (h.one l i b old before_l at_i prog_b prog_a)).elim
    · obtain ⟨rfl, rfl⟩ | ⟨-, before_l⟩ := from_before l b at_l prog_b
      · rw [same_progress] at prog_b
        exact (other_k (h.one k i a old before_k at_i prog_a prog_b)).elim
      · exact h.one k l a b before_k before_l prog_a prog_b
  · intro k x found prog
    obtain ⟨-, rfl⟩ | ⟨-, before⟩ := from_before k x found prog
    · rw [received]
      exact h.part i old at_i (same_progress ▸ prog)
    · exact h.part k x before prog
  · intro n mem
    obtain ⟨k, x, at_k, names, in_x⟩ := h.has n mem
    by_cases same : k = i
    · subst same
      have old_x : x = old := Option.some.inj (at_k.symm.trans at_i)
      subst old_x
      refine ⟨j, moved, ?_, isFor.trans names, received ▸ in_x⟩
      rw [List.getElem?_set_self]
      rw [List.length_set]
      exact (List.getElem?_eq_some_iff.mp at_j).1
    · have other : k ≠ j := by
        rintro rfl
        have dest_x : x = dest := Option.some.inj (at_k.symm.trans at_j)
        rw [← dest_x, inProgress_of_mem names in_x] at idle
        cases idle
      refine ⟨k, x, ?_, names, in_x⟩
      rw [List.getElem?_set_ne (Ne.symm other), List.getElem?_set_ne (Ne.symm same)]
      exact at_k

/-! ## A step -/

variable {r : Reassembler} {f : Fragment} {claim overflow : Option Nat} {slot slot' : FragSlot} {own : Nat}

theorem set_same (there : slots[i]? = some old) : slots.set i old = slots := by
  obtain ⟨below, rfl⟩ := List.getElem?_eq_some_iff.mp there
  exact List.set_getElem_self below

theorem idle_of_inSlot (h : s.inSlot slots i = false) (there : slots[i]? = some slot) :
    s.inProgress slot = false := by
  rw [inSlot, there] at h
  exact h

theorem idle_of_held (names : s.names f = true) (held : r.held f = none) (k : Nat) (x : FragSlot)
    (at_k : r.slots[k]? = some x) : s.inProgress x = false := by
  have none := List.findIdx?_eq_none_iff.mp held x (List.mem_of_getElem? at_k)
  rw [isFor_of_names names] at none
  cases hfor : x.isFor (s.fragment 0) with
  | false => simp [inProgress, hfor]
  | true =>
    have idle : x.busy = false := by simpa [hfor] using none
    simp only [FragSlot.busy, Bool.or_eq_false_iff, decide_eq_false_iff_not] at idle
    simpa [inProgress] using fun _ => idle.1

theorem claim_idle (slot : FragSlot) (f : Fragment) : s.inProgress (slot.claim f) = false := by
  simp [inProgress, FragSlot.claim]

/-- What the search finds was idle, if it is claimed. -/
theorem Found.idle {i : Nat} (h : Found r f claim i old slot)
    (spared : s.names f = false → ∀ i ∈ claim, s.inSlot r.slots i = false)
    (claimed : slot = old.claim f ∧ r.held f = none ∧ claim = some i) : s.inProgress old = false := by
  cases names : s.names f with
  | true => exact idle_of_held names claimed.2.1 i old h.there
  | false => exact idle_of_inSlot (spared names i claimed.2.2) h.there

theorem Collects.prepare (h : s.Collects arrived r.slots)
    (spared : s.names f = false → ∀ i ∈ claim, s.inSlot r.slots i = false)
    (spared' : ∀ k ∈ overflow, s.inSlot r.slots (k + 1) = false) :
    s.Collects arrived (r.prepare f claim overflow).1 ∧
      ∀ i slot, (r.prepare f claim overflow).2 = some (i, slot) → s.names f = true →
        s.inProgress slot = true ∨
          ∀ (k : Nat) (x : FragSlot), (r.prepare f claim overflow).1[k]? = some x → s.inProgress x = false := by
  have placed : ∀ i old slot, Found r f claim i old slot → s.Collects arrived (r.slots.set i slot) := by
    intro i old slot found
    obtain ⟨rfl, -⟩ | claimed := found.which
    · rw [set_same found.there]
      exact h
    · have idle := Found.idle found spared claimed
      rw [claimed.1]
      exact h.replace found.there idle (claim_idle old f) fun _ => rfl
  have progress : ∀ i old slot, Found r f claim i old slot → slot.done = false → s.names f = true →
      slot.received ≠ ∅ → s.inProgress slot = true := by
    intro i old slot found undone names some
    have mine := found.isFor
    rw [isFor_of_names names] at mine
    simp [inProgress, mine, some]
  obtain same | ⟨i, old, slot, found, same⟩ | ⟨i, old, slot, found, undone, same⟩ |
    ⟨old, slot, k, dest, found, undone, hk, at_k, same⟩ := prepare_cases r f claim overflow
  · rw [same]
    exact ⟨h, by simp⟩
  · rw [same]
    exact ⟨placed i old slot found, by simp⟩
  · rw [same]
    refine ⟨placed i old slot found, ?_⟩
    intro i' slot' target names
    cases target
    by_cases none : slot.received = ∅
    · right
      intro k x at_k
      obtain ⟨-, rfl⟩ | ⟨-, before⟩ := getElem?_set_cases at_k
      · simp [inProgress, none]
      · exact idle_of_held names (found.fresh undone none).2 k x before
    · exact .inl (progress i old slot found undone names none)
  · have dest_idle : s.inProgress dest = false := idle_of_inSlot (spared' k hk) at_k
    rw [same]
    constructor
    · obtain ⟨rfl, -⟩ | claimed := found.which
      · exact h.move found.there at_k (by omega) dest_idle rfl rfl rfl
      · have idle := Found.idle found spared claimed
        have none : slot.received = ∅ := by rw [claimed.1]; rfl
        have released : s.Collects arrived (r.slots.set 0 slot.release) :=
          h.replace found.there idle (by simp [inProgress, FragSlot.release]) fun _ => rfl
        have still : (r.slots.set 0 slot.release)[k + 1]? = some dest := by
          rw [List.getElem?_set_ne (by omega)]
          exact at_k
        exact released.replace still dest_idle (by simp [inProgress, FragSlot.moveTo, none]) fun _ => rfl
    · intro i' slot' target names
      cases target
      by_cases none : slot.received = ∅
      · right
        intro l x at_l
        obtain ⟨-, rfl⟩ | ⟨-, before⟩ := getElem?_set_cases at_l
        · simp [inProgress, FragSlot.moveTo, none]
        · obtain ⟨-, rfl⟩ | ⟨-, before⟩ := getElem?_set_cases before
          · simp [inProgress, FragSlot.release]
          · exact idle_of_held names (found.fresh undone none).2 l x before
      · left
        have prog := progress 0 old slot found undone names none
        exact prog

/-- A unit of another sample, or one that changes nothing, leaves what has been collected. -/
theorem Collects.takeInto_other (h : s.Collects arrived r.slots) (slots : s.Slots own r.slots)
    (there : r.slots[i]? = some slot) (mine : slot.isFor f = true)
    (other : s.names f = true → ¬ (slot.fragCount = f.count ∧
      (slot.place f.index f.payload).isSome = true ∧ (f.index ∉ slot.received ∨ f.header.isSome = true))) :
    s.Collects arrived (r.takeInto i slot f).slots := by
  unfold Reassembler.takeInto
  split
  · exact h
  · next same =>
    have count : slot.fragCount = f.count := by simpa using same
    cases taken : slot.take f with
    | none => exact h
    | some slot' =>
      obtain ⟨placed, hplaced, frame, rfl⟩ := FragSlot.take_frame (slots.get there).sized taken
      cases names : s.names f with
      | false =>
        have not_for : slot.isFor (s.fragment 0) = false := by
          by_contra is_for
          rw [names_of_isFor (by simpa using is_for) mine] at names
          cases names
        have not_for' : placed.isFor (s.fragment 0) = false := (frame.isFor _).trans not_for
        simp only
        split
        · exact h.replace_foreign there not_for not_for'
        · exact h.replace_foreign there not_for not_for'
      | true =>
        -- the unit is there already and brings no header
        have refused := other names
        have again : f.index ∈ slot.received := by
          by_contra missing
          exact refused ⟨count, by simp [hplaced], .inl missing⟩
        have bare : f.header = none := by
          by_contra given
          exact refused ⟨count, by simp [hplaced], .inr (Option.isSome_iff_ne_none.mpr given)⟩
        have unchanged : placed = slot := by
          unfold FragSlot.place at hplaced
          rw [if_pos again] at hplaced
          exact (Option.some.inj hplaced).symm
        have for_s : slot.isFor (s.fragment 0) = true := by
          rw [← isFor_of_names names]
          exact mine
        have prog := inProgress_of_mem for_s again
        have fills := (slots.get there).fills for_s (Finset.ne_empty_of_mem again)
        have part : slot.received ≠ Finset.range f.count := by
          rw [← count, fills.count]
          exact h.part i slot there prog
        simp only [unchanged, bare, Option.getD_none]
        rw [if_neg part]
        simp only
        rw [set_same there]
        exact h

/-- One of the sample's own units is collected, or is the last. -/
theorem Collects.takeInto_own (h : s.Collects arrived r.slots) (safe : s.Safe own r)
    (there : r.slots[i]? = some slot) (below : f.index < s.count) (unit : f = s.fragment f.index)
    (mine : slot.isFor f = true) (undone : slot.done = false) (legal : f.legal = true)
    (fresh : slot.received = ∅ → slot.contLength = 0)
    (alone : s.inProgress slot = true ∨
      ∀ (k : Nat) (x : FragSlot), r.slots[k]? = some x → s.inProgress x = false)
    (room : s.cdr.length ≤ slot.capacity) (count : slot.fragCount = s.count) :
    s.sample ∈ (r.takeInto i slot f).delivered ∨
      s.Collects (insert f.index arrived) (r.takeInto i slot f).slots := by
  have kept := safe.slots.get there
  have names : s.names f = true := by
    rw [unit]
    exact s.names_fragment f.index
  have for_s : slot.isFor (s.fragment 0) = true := by
    rw [← isFor_of_names names]
    exact mine
  have fills : s.Fills slot := by
    by_cases none : slot.received = ∅
    · exact fills_empty count none (fresh none)
    · exact kept.fills for_s none
  have count_f : f.count = s.count := by
    rw [unit]
    rfl
  have payload : f.payload = s.payload f.index := by
    conv_lhs => rw [unit]
    rfl
  obtain ⟨placed, hplaced⟩ := fills.place_some below room
  rw [← payload] at hplaced
  obtain ⟨slot', taken⟩ : ∃ slot', slot.take f = some slot' := by
    unfold FragSlot.take
    rw [hplaced]
    exact ⟨_, rfl⟩
  have safe' := safe.takeInto there mine legal fresh fun _ => .inl ⟨below, unit⟩
  obtain ⟨placed', hplaced', frame, rfl⟩ := FragSlot.take_frame kept.sized taken
  have same : placed' = placed := Option.some.inj (hplaced'.symm.trans hplaced)
  subst same
  rw [payload] at hplaced
  obtain ⟨-, received, -⟩ := fills.place below hplaced
  have into : r.takeInto i slot f =
      if placed'.received = Finset.range f.count then
        { slots := r.slots.set i { placed' with header := f.header.getD slot.header, received := ∅, done := true }
          delivered := r.delivered ++ [⟨placed'.source, placed'.entityId, placed'.seqNo,
            f.header.getD slot.header,
            FragSlot.whole { placed' with header := f.header.getD slot.header }⟩] }
      else { r with slots := r.slots.set i { placed' with header := f.header.getD slot.header } } := by
    unfold Reassembler.takeInto
    rw [if_neg (by simp [count, count_f]), taken]
  have isFor' := frame.isFor (s.fragment 0)
  rw [for_s] at isFor'
  rw [into] at safe' ⊢
  split
  · next all =>
    left
    rw [if_pos all] at safe'
    have entry := safe'.delivered _ (List.mem_append_right _ (List.mem_singleton_self _))
    simp only [FragSlot.isFor, fragment, Bool.and_eq_true, decide_eq_true_eq] at isFor'
    rw [← entry isFor'.1.1 isFor'.1.2 isFor'.2]
    exact List.mem_append_right _ (List.mem_singleton_self _)
  · next part =>
    right
    rw [count_f] at part
    have isFor'' : FragSlot.isFor { placed' with header := f.header.getD slot.header } (s.fragment 0) = true :=
      isFor'
    apply h.update there isFor'' (frame.done.trans undone) _ alone part
    · simp only [received]
      exact Finset.mem_insert_self _ _
    · intro _ n mem
      simp only [received]
      exact Finset.mem_insert_of_mem mem

variable (s) in
theorem fragment_legal {n : Nat} (below : n < s.count) : (s.fragment n).legal = true := by
  have two := s.two_le_count
  have most := s.count_le
  have length := s.payload_length below
  have some := s.unitLength_pos below
  simp only [Fragment.legal, Bool.and_eq_true, decide_eq_true_eq]
  simp only [fragment]
  omega

/-- The slot found for one of the sample's own units is for as many units as the sample has. -/
theorem Slots.prepare_count (h : s.Slots own r.slots) (unit : f = s.fragment f.index)
    (target : (r.prepare f claim overflow).2 = some (i, slot)) : slot.fragCount = s.count := by
  have names : s.names f = true := by
    rw [unit]
    exact s.names_fragment f.index
  have found_count : ∀ i old slot, Found r f claim i old slot → slot.done = false →
      slot.fragCount = s.count := by
    intro i old slot found undone
    obtain ⟨rfl, busy, mine⟩ | ⟨rfl, -, -⟩ := found.which
    · have some : slot.received ≠ ∅ := by
        intro none
        simp [FragSlot.busy, none, undone] at busy
      rw [isFor_of_names names] at mine
      exact ((h.get found.there).fills mine some).count
    · change f.count = s.count
      rw [unit]
      rfl
  obtain same | ⟨i, old, slot, found, same⟩ | ⟨i, old, slot, found, undone, same⟩ |
    ⟨old, slot, k, dest, found, undone, hk, at_k, same⟩ := prepare_cases r f claim overflow
  · simp [same] at target
  · simp [same] at target
  · simp only [same, Option.some.injEq, Prod.mk.injEq] at target
    rw [← target.2]
    exact found_count i old slot found undone
  · simp only [same, Option.some.injEq, Prod.mk.injEq] at target
    rw [← target.2]
    exact found_count 0 old slot found undone

/-- What has come is collected, or the sample has been handed over. -/
theorem Collects.step (h : s.Collects arrived r.slots) (safe : s.Safe own r) {event : FragEvent}
    (honest : s.Honest r event) (served : s.Served r event) :
    s.sample ∈ (r.step event).delivered ∨ s.Collects (arrived ∪ s.unitOf event) (r.step event).slots := by
  cases event with
  | fragment f claim overflow =>
    obtain ⟨spared, spared', placed⟩ := served
    obtain ⟨collects, alone⟩ := h.prepare spared spared'
    obtain ⟨kept, target⟩ := safe.slots.prepare f claim overflow
    simp only [Reassembler.step, Reassembler.reassemble, unitOf]
    by_cases own_unit : f.index < s.count ∧ f = s.fragment f.index
    · obtain ⟨below, unit⟩ := own_unit
      have legal : f.legal = true := by
        rw [unit]
        exact s.fragment_legal below
      obtain ⟨⟨i, slot⟩, place, room⟩ := placed below unit
      obtain ⟨there, mine, undone, fresh⟩ := target i slot place
      have count := safe.slots.prepare_count unit place
      have names : s.names f = true := by
        rw [unit]
        exact s.names_fragment f.index
      have apart := alone i slot place names
      have after : s.Safe own { r with slots := (r.prepare f claim overflow).1 } := ⟨kept, safe.delivered⟩
      have own_unit : f.index < s.count ∧ f = s.fragment f.index := ⟨below, unit⟩
      rw [if_pos own_unit, Finset.union_comm, ← Finset.insert_eq, legal, Bool.not_true]
      rw [if_neg Bool.false_ne_true]
      cases prepared : r.prepare f claim overflow with
      | mk slots found =>
        simp only [prepared] at *
        subst place
        exact collects.takeInto_own after there below unit mine undone legal fresh apart room count
    · right
      rw [if_neg own_unit, Finset.union_empty]
      split
      · exact h
      · next legal =>
        have legal : f.legal = true := by simpa using legal
        cases prepared : r.prepare f claim overflow with
        | mk slots found =>
          rw [prepared] at collects kept target
          cases found with
          | none => exact collects
          | some place =>
            obtain ⟨i, slot⟩ := place
            obtain ⟨there, mine, -, -⟩ := target i slot rfl
            apply collects.takeInto_other kept there mine
            intro names
            have refused := (honest names).resolve_left own_unit
            simpa [Reassembler.takes, legal, prepared] using refused
  | move dest =>
    right
    simp only [Reassembler.step, unitOf, Finset.union_empty]
    split
    · next own_slot slot first at_dest =>
      split
      · exact h
      · exact h.move first at_dest (by omega) (idle_of_inSlot served at_dest) rfl rfl rfl
    · exact h
  | release i =>
    right
    simp only [Reassembler.step, unitOf, Finset.union_empty]
    split
    · next slot there =>
      exact h.replace there (idle_of_inSlot served there) (by simp [inProgress, FragSlot.release]) fun _ => rfl
    · exact h

/-! ## A run -/

end FragSample

/-- A slot nobody has claimed. -/
def FragSlot.empty (room : Nat) : FragSlot where
  source := 0
  entityId := 0
  seqNo := 0
  fragCount := 0
  contLength := 0
  lastLength := 0
  received := ∅
  done := false
  header := ⟨0, 0, 0, 0⟩
  cdr := List.replicate room 0

/-- The own slot and the pool's. -/
def Reassembler.create (own : Nat) (pool : List Nat) : Reassembler :=
  ⟨(own :: pool).map FragSlot.empty, []⟩

namespace FragSample

variable {node : Context} {s : FragSample node} {arrived : Finset Nat} {slots : List FragSlot} {own : Nat}
  {pool : List Nat} {r : Reassembler}

variable (s) in
/-- The units of the sample that have come. -/
def arrivedIn : List FragEvent → Finset Nat
  | [] => ∅
  | event :: rest => s.unitOf event ∪ arrivedIn rest

variable (s) in
/-- A unit that names the sample is its own or changes nothing, and until the sample is handed over there
is a slot for it. -/
def Orderly (r : Reassembler) (event : FragEvent) : Prop :=
  s.Honest r event ∧ (s.sample ∉ r.delivered → s.Served r event)

instance (r : Reassembler) (event : FragEvent) : Decidable (s.Orderly r event) :=
  inferInstanceAs (Decidable (_ ∧ _))

theorem create_safe (larger : ∀ room ∈ pool, own ≤ room) :
    s.Safe own (.create own pool) := by
  have fresh : ∀ room, own ≤ room → s.Kept own (.empty room) := by
    intro room enough
    refine ⟨Nat.zero_le _, ?_, fun _ some => absurd rfl some, fun _ mem => ?_⟩
    · simpa [FragSlot.capacity, FragSlot.empty] using enough
    · simp [FragSlot.empty] at mem
  refine ⟨⟨?_, ?_⟩, by simp [Reassembler.create]⟩
  · intro slot mem
    simp only [Reassembler.create, List.map_cons, List.mem_cons, List.mem_map] at mem
    obtain rfl | ⟨room, among, rfl⟩ := mem
    · exact fresh own (le_refl own)
    · exact fresh room (larger room among)
  · intro slot first
    simp only [Reassembler.create, List.map_cons, List.getElem?_cons_zero, Option.some.injEq] at first
    rw [← first]
    simp [FragSlot.capacity, FragSlot.empty]

variable (s) in
theorem create_collects (own : Nat) (pool : List Nat) :
    s.Collects ∅ (Reassembler.create own pool).slots := by
  have empty : ∀ (i : Nat) (slot : FragSlot), (Reassembler.create own pool).slots[i]? = some slot →
      ∃ room, slot = .empty room := by
    intro i slot there
    obtain ⟨room, -, rfl⟩ := List.mem_map.mp (List.mem_of_getElem? there)
    exact ⟨room, rfl⟩
  have idle : ∀ (i : Nat) (slot : FragSlot), (Reassembler.create own pool).slots[i]? = some slot →
      s.inProgress slot = false := by
    intro i slot there
    obtain ⟨room, rfl⟩ := empty i slot there
    simp [inProgress, FragSlot.empty]
  refine ⟨?_, ?_, ?_, by simp⟩
  · intro i slot there _
    obtain ⟨room, rfl⟩ := empty i slot there
    rfl
  · intro i j a b at_i _ prog
    rw [idle i a at_i] at prog
    cases prog
  · intro i slot there prog
    rw [idle i slot there] at prog
    cases prog

theorem delivered_mono {event : FragEvent} {d : Delivered} (mem : d ∈ r.delivered) :
    d ∈ (r.step event).delivered := by
  have into : ∀ (r : Reassembler) i slot f, d ∈ r.delivered → d ∈ (r.takeInto i slot f).delivered := by
    intro r i slot f mem
    unfold Reassembler.takeInto
    split
    · exact mem
    · split
      · exact mem
      · split
        · exact List.mem_append_left _ mem
        · exact mem
  cases event with
  | fragment f claim overflow =>
    simp only [Reassembler.step, Reassembler.reassemble]
    split
    · exact mem
    · split
      · exact mem
      · exact into _ _ _ _ mem
  | move dest =>
    simp only [Reassembler.step]
    split
    · split
      · exact mem
      · exact mem
    · exact mem
  | release i =>
    simp only [Reassembler.step]
    split
    · exact mem
    · exact mem

/-- What a run hands over of the sample is the sample. -/
theorem delivered_exact {events : List FragEvent} (h : s.Safe own r)
    (sound : Run.Sound Reassembler.step s.Honest r events) :
    s.Safe own (Run.after Reassembler.step r events) :=
  Run.keeps (fun _ _ safe honest => safe.step honest) h sound

/-- Every unit that comes is collected until the sample is handed over. -/
theorem collected {events : List FragEvent} (safe : s.Safe own r)
    (h : s.sample ∈ r.delivered ∨ s.Collects arrived r.slots)
    (sound : Run.Sound Reassembler.step s.Orderly r events) :
    s.sample ∈ (Run.after Reassembler.step r events).delivered ∨
      s.Collects (arrived ∪ s.arrivedIn events) (Run.after Reassembler.step r events).slots := by
  induction events generalizing r arrived with
  | nil =>
    rw [arrivedIn, Finset.union_empty]
    exact h
  | cons event rest ih =>
    obtain ⟨⟨honest, served⟩, sound⟩ := sound
    rw [arrivedIn, ← Finset.union_assoc]
    apply ih (safe.step honest) _ sound
    by_cases handed : s.sample ∈ r.delivered
    · exact .inl (delivered_mono handed)
    · exact (h.resolve_left handed).step safe honest (served handed)

/-- A slot never has all units of a sample it is still collecting. -/
theorem Collects.not_all (h : s.Collects arrived slots) (kept : s.Slots own slots) :
    ¬ Finset.range s.count ⊆ arrived := by
  intro all
  have two := s.two_le_count
  obtain ⟨i, slot, there, names, zero⟩ := h.has 0 (all (Finset.mem_range.mpr (by omega)))
  have prog := inProgress_of_mem names zero
  have fills := (kept.get there).fills names (Finset.ne_empty_of_mem zero)
  apply h.part i slot there prog
  apply Finset.Subset.antisymm
  · intro n mem
    exact Finset.mem_range.mpr (fills.units n mem)
  · intro n below
    obtain ⟨j, other, there', names', mem⟩ := h.has n (all below)
    have same := h.one i j slot other there there' prog (inProgress_of_mem names' mem)
    subst same
    rw [Option.some.inj (there.symm.trans there')]
    exact mem

theorem delivered_once_arrived {events : List FragEvent} (safe : s.Safe own r) (h : s.Collects ∅ r.slots)
    (sound : Run.Sound Reassembler.step s.Orderly r events)
    (all : Finset.range s.count ⊆ s.arrivedIn events) :
    s.sample ∈ (Run.after Reassembler.step r events).delivered := by
  have after := delivered_exact safe (sound.imp fun _ _ ok => ok.1)
  apply (collected safe (.inr h) sound).resolve_right
  intro collects
  rw [Finset.empty_union] at collects
  exact collects.not_all after.slots all

/-! ## The round trip -/

variable (s) in
/-- A unit alone goes within the link's limit, a run within what the peer's host puts together again. -/
theorem datagram_length {runN : Nat} {oneRun : Bool} {receiver : UInt8} {sub : Submessage}
    (mem : sub ∈ s.submessages runN oneRun receiver) :
    (s.datagramFor sub).length ≤ node.controlMax ∨
      2 ≤ runN ∧ ∀ ceiling limit, runN ≤ hybridUnitsWithin node ceiling limit →
        (s.datagramFor sub).length ≤ ceiling := by
  obtain ⟨index, below, rfl⟩ | ⟨several, start, units, rfl, some, most, -⟩ := s.mem_submessages mem
  · left
    exact (s.datagramFor_length_le _).trans (s.submessage_fits below receiver)
  · right
    refine ⟨several, ?_⟩
    intro ceiling limit within
    have fits := hybridUnitsWithin_le within several
    have size : (s.run start units).length ≤ _ := s.run_length some
    have fewer := Nat.mul_le_mul_right node.fragContPayload most
    have single : (s.datagramFor (s.run start units)).length = (s.run start units).length := by
      simp only [datagramFor, run, if_true, singlePacket, Submessage.length, List.length_append, List.length_cons,
        submessageHeaderLength, List.length_nil]
    rw [single]
    unfold submessageHeaderLength at size
    omega

variable (s) in
/-- The datagrams of a sample bring its units. -/
theorem processDatagram_submessages (runN : Nat) (oneRun : Bool) {receiver self : UInt8}
    (other : s.source ≠ self) (mine : receiver = toAll ∨ receiver = self) :
    ((s.submessages runN oneRun receiver).map s.datagramFor).flatMap (processDatagram self) =
      (List.range s.count).map s.fragment := by
  rw [List.flatMap_map, ← s.submessages_units runN oneRun receiver]
  apply List.flatMap_congr
  intro sub mem
  apply s.processDatagram_datagramFor _ other
  · obtain ⟨index, below, rfl⟩ | ⟨-, start, units, rfl, some, -, -⟩ := s.mem_submessages mem
    · rw [s.submessage_receiver]
      exact mine
    · exact .inl rfl
  · obtain ⟨index, below, rfl⟩ | ⟨-, start, units, rfl, some, -, stop⟩ := s.mem_submessages mem
    · exact s.submessage_short below receiver
    · exact s.run_short stop

/-- A sample of two units on the smallest link. -/
def twoUnits : FragSample ⟨548, 4096, by decide, by decide, by decide⟩ where
  order := .little
  source := 1
  header := ⟨5, 7, 0, 9⟩
  published := List.replicate 526 3
  within := by decide +kernel
  large := by decide +kernel
  user := by decide

/-- Its units, the last first and twice. -/
def lastFirst : List FragEvent :=
  [.fragment (twoUnits.fragment 1) (some 0) none, .fragment (twoUnits.fragment 1) none none,
    .fragment (twoUnits.fragment 0) none none]

/-- A sample of three units on a link that carries the build's longest unit. -/
def threeUnits : FragSample ⟨1472, 65508, by decide, by decide, by decide⟩ where
  order := .little
  source := 1
  header := ⟨5, 7, 0, 9⟩
  published := List.replicate 2904 3
  within := by decide +kernel
  large := by decide +kernel
  user := by decide

end FragSample

end Tickle
