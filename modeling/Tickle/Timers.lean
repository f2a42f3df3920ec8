import Tickle.Scheduler

/-! # The scheduler as a queue of timers

Over every run of schedules, postponements, hand-ins by other threads, drains and pops: what was taken in is what has come
out and what is still there, each entry once (`Kept`); what comes out is due no later than the rest of the heap; and popping
on, with no hand-in under way, brings out all of it.
-/

namespace Tickle

namespace Scheduler

variable {φ π : Type} {s : Scheduler φ π} {tcb : TCB φ π}

/-! ## One call -/

/-- What `run_due_entry_reading()` takes out of the heap. -/
def due (s : Scheduler φ π) (now : Nat) : Option (TCB φ π) := s.drainInbox.heap.head?.filter fun tcb => tcb.time ≤ now

theorem popScheduler_perm (root : s.heap.head? = some tcb) : (tcb :: s.popScheduler.heap).Perm s.heap := by
  have pos : 0 < s.heap.length := by
    cases whole : s.heap with
    | nil => simp [whole] at root
    | cons first rest => simp
  rw [List.head?_eq_getElem?, List.getElem?_eq_getElem pos, Option.some.injEq] at root
  have filled := MinHeap.fill_perm pos
  rw [root] at filled
  unfold popScheduler
  dsimp only
  by_cases more : 0 < s.heap.length - 1
  · rw [if_pos more]
    have sifted : (MinHeap.siftDown TCB.time (MinHeap.fill s.heap 0) 0).Perm (MinHeap.fill s.heap 0) :=
      MinHeap.siftDown_perm (MinHeap.length_fill ▸ more)
    exact (sifted.cons tcb).trans filled
  · rw [if_neg more]
    have alone : s.heap = [tcb] := by
      cases whole : s.heap with
      | nil => simp [whole] at pos
      | cons first rest =>
        simp only [whole, List.getElem_cons_zero] at root
        rw [whole, List.length_cons] at more
        have none_ : rest = [] := List.length_eq_zero_iff.mp (by omega)
        rw [root, none_]
    rw [alone]
    exact List.Perm.refl _

/-- A pop: the entry is due, no later than the others of the heap, and it is the only one gone. -/
structure Pops (s : Scheduler φ π) (now : Nat) (tcb : TCB φ π) (after : Scheduler φ π) : Prop where
  due : tcb.time ≤ now
  first : ∀ other ∈ s.drainInbox.heap, tcb.time ≤ other.time
  rest : (tcb :: after.heap).Perm s.drainInbox.heap
  inbox : after.inbox = s.drainInbox.inbox

theorem runDue_pops (h : MinHeap.Ordered TCB.time s.heap) {now : Nat} (out : s.due now = some tcb) :
    Pops s now tcb (s.runDue now) := by
  unfold due at out
  rw [Option.filter_eq_some_iff] at out
  obtain ⟨root, late⟩ := out
  have late : tcb.time ≤ now := by simpa using late
  have popped : s.runDue now = s.drainInbox.popScheduler := by
    unfold runDue
    dsimp only
    rw [root]
    exact if_pos late
  rw [popped]
  exact ⟨late, fun other member => (drainInbox_keeps h).1.head_le root member, popScheduler_perm root, rfl⟩

/-- Nothing is due: the inbox is drained and that is all. -/
theorem runDue_waits {now : Nat} (out : s.due now = none) : s.runDue now = s.drainInbox := by
  unfold runDue
  dsimp only
  cases root : s.drainInbox.heap.head? with
  | none => rfl
  | some tcb =>
    unfold due at out
    rw [root] at out
    have early : ¬ tcb.time ≤ now := by simpa [Option.filter] using out
    exact if_neg early

theorem runDue_entries (h : MinHeap.Ordered TCB.time s.heap) (now : Nat) :
    ((s.due now).toList ++ (s.runDue now).entries).Perm s.entries := by
  cases out : s.due now with
  | none =>
    rw [runDue_waits out]
    exact (drainInbox_keeps h).2
  | some tcb =>
    have pops := runDue_pops h out
    refine List.Perm.trans ?_ (drainInbox_keeps h).2
    unfold entries
    rw [pops.inbox]
    exact pops.rest.append_right _

variable [DecidableEq φ] [DecidableEq π]

/-- A postponement: one entry of the heap for this function and param is due at the new time, all else is as it was; or
there is no such entry. -/
structure Postpones (s : Scheduler φ π) (function : φ) (param : π) (time : Nat) (after : Scheduler φ π) (found : Bool) :
    Prop where
  moved : found = true → ∃ tcb rest, s.heap.find? (TCB.isFor function param) = some tcb ∧ s.heap.Perm (tcb :: rest) ∧
    after.heap.Perm ({ tcb with time := time } :: rest)
  missing : found = false → after = s ∧ ∀ tcb ∈ s.heap, TCB.isFor function param tcb = false
  inbox : after.inbox = s.inbox ∧ after.inboxPending = s.inboxPending ∧ after.capacity = s.capacity

theorem postponeLocked_postpones (s : Scheduler φ π) (function : φ) (param : π) (time : Nat) :
    Postpones s function param time (s.postponeLocked function param time).1
      (s.postponeLocked function param time).2 := by
  unfold postponeLocked
  split
  next none_ =>
    refine ⟨fun no => (by cases no), fun _ => ⟨rfl, ?_⟩, rfl, rfl, rfl⟩
    rw [List.findIdx?_eq_none_iff] at none_
    exact none_
  next i found =>
    obtain ⟨lt, isFor, before⟩ := List.findIdx?_eq_some_iff_getElem.mp found
    have first : s.heap.find? (TCB.isFor function param) = some s.heap[i] := by
      rw [List.find?_eq_some_iff_getElem]
      exact ⟨isFor, i, lt, rfl, fun j hj => by simpa using before j hj⟩
    refine ⟨fun _ => ⟨s.heap[i], s.heap.eraseIdx i, first, (List.getElem_cons_eraseIdx_perm lt).symm, ?_⟩,
      fun no => (by cases no), rfl, rfl, rfl⟩
    have changed : (s.heap.modify i fun tcb => { tcb with time := time }).Perm
        ({ s.heap[i] with time := time } :: s.heap.eraseIdx i) := by
      rw [List.modify_eq_set_getElem?, List.getElem?_eq_getElem lt]
      exact List.set_perm_cons_eraseIdx lt _
    have lt' : i < (s.heap.modify i fun tcb => { tcb with time := time }).length := by simpa using lt
    dsimp only
    split
    · exact (MinHeap.siftDown_perm lt').trans changed
    · exact (MinHeap.siftUp_perm lt').trans changed

end Scheduler

/-! ## The ledger -/

/-- The scheduler with what went in and what came out of it. -/
structure Ledger (φ π : Type) where
  queue : Scheduler φ π
  /-- What was taken in, each with the time it was last put to. -/
  taken : List (TCB φ π)
  popped : List (TCB φ π)
  /-- The hand-ins filled and not counted yet. -/
  uncounted : Nat

namespace Ledger

variable {φ π : Type} [DecidableEq φ] [DecidableEq π]

def start (capacity slots : Nat) : Ledger φ π := ⟨Scheduler.start capacity slots, [], [], 0⟩

/-- What has been taken in once the call is over. -/
def takes (l : Ledger φ π) : SchedulerEvent φ π → List (TCB φ π)
  | .schedule tcb => if (l.queue.schedule tcb).2 then tcb :: l.taken else l.taken
  | .inboxFill i tcb => if l.queue.inbox[i]? = some .writing then tcb :: l.taken else l.taken
  | .postpone function param time =>
    match l.queue.heap.find? (TCB.isFor function param) with
    | none => l.taken
    | some tcb => { tcb with time := time } :: l.taken.erase tcb
  | _ => l.taken

def gives (l : Ledger φ π) : SchedulerEvent φ π → List (TCB φ π)
  | .runDue now => (l.queue.due now).toList
  | _ => []

def counts (l : Ledger φ π) : SchedulerEvent φ π → Nat
  | .inboxFill i _ => if l.queue.inbox[i]? = some .writing then l.uncounted + 1 else l.uncounted
  | .inboxCounted => l.uncounted - 1
  | _ => l.uncounted

def step (l : Ledger φ π) (event : SchedulerEvent φ π) : Ledger φ π where
  queue := l.queue.step event
  taken := l.takes event
  popped := l.popped ++ l.gives event
  uncounted := l.counts event

/-- The ledger after the calls. -/
def run (l : Ledger φ π) (events : List (SchedulerEvent φ π)) : Ledger φ π := Run.after step l events

/-- The calls of a queue: nothing is cancelled, and a hand-in is counted by the producer that filled it. -/
def calls (l : Ledger φ π) : SchedulerEvent φ π → Bool
  | .unschedule _ _ => false
  | .reset => false
  | .inboxCounted => 0 < l.uncounted
  | _ => true

/-- What the scheduler has taken in is what has come out and what is there, each entry once. -/
structure Kept (capacity slots : Nat) (l : Ledger φ π) : Prop where
  ordered : MinHeap.Ordered TCB.time l.queue.heap
  capacity : l.queue.capacity = capacity
  slots : l.queue.inbox.length = slots
  counted : l.queue.inboxPending + BitVec.ofNat 32 l.uncounted =
    BitVec.ofNat 32 (l.queue.inbox.filterMap InboxSlot.ready?).length
  once : (l.popped ++ l.queue.entries).Perm l.taken

end Ledger

namespace Scheduler

variable {φ π : Type} {s : Scheduler φ π}

/-- One slot of the inbox written. -/
theorem ready_set {inbox : List (InboxSlot φ π)} {i : Nat} {old : InboxSlot φ π} (h : inbox[i]? = some old)
    (new : InboxSlot φ π) :
    (old.ready?.toList ++ (inbox.set i new).filterMap InboxSlot.ready?).Perm
      (new.ready?.toList ++ inbox.filterMap InboxSlot.ready?) := by
  obtain ⟨lt, here⟩ := List.getElem?_eq_some_iff.mp h
  have front : inbox = inbox.take i ++ old :: inbox.drop (i + 1) := by
    rw [← here, ← List.drop_eq_getElem_cons lt, List.take_append_drop]
  have both : ∀ slot : InboxSlot φ π, ∀ l, [slot].filterMap InboxSlot.ready? ++ l = slot.ready?.toList ++ l := by
    intro slot l
    cases slot <;> rfl
  have written : ∀ slot : InboxSlot φ π, (inbox.take i ++ slot :: inbox.drop (i + 1)).filterMap InboxSlot.ready? =
      (inbox.take i).filterMap InboxSlot.ready? ++ (slot.ready?.toList ++ (inbox.drop (i + 1)).filterMap InboxSlot.ready?) := by
    intro slot
    rw [List.filterMap_append, ← List.singleton_append, List.filterMap_append, both]
  rw [List.set_eq_take_append_cons_drop, if_pos lt, written]
  conv_rhs => rw [front, written]
  generalize (inbox.take i).filterMap InboxSlot.ready? = before
  generalize (inbox.drop (i + 1)).filterMap InboxSlot.ready? = after
  cases old.ready? with
  | none =>
    cases new.ready? with
    | none => exact List.Perm.refl _
    | some tcb => exact List.perm_middle
  | some mine =>
    cases new.ready? with
    | none =>
      show (mine :: (before ++ after)).Perm (before ++ mine :: after)
      exact List.perm_middle.symm
    | some tcb =>
      have left : ([mine] ++ (before ++ ([tcb] ++ after))).Perm (mine :: tcb :: (before ++ after)) :=
        List.perm_middle.cons mine
      have right : ([tcb] ++ (before ++ ([mine] ++ after))).Perm (tcb :: mine :: (before ++ after)) :=
        List.perm_middle.cons tcb
      exact left.trans ((List.Perm.swap tcb mine _).trans right.symm)

/-- What a drain leaves alone; the heap only grows. -/
theorem drainSlots_fields (s : Scheduler φ π) (slots : List Nat) :
    (s.drainSlots slots).capacity = s.capacity ∧ (s.drainSlots slots).inbox.length = s.inbox.length ∧
      s.heap.length ≤ (s.drainSlots slots).heap.length := by
  induction slots generalizing s with
  | nil => exact ⟨rfl, rfl, Nat.le_refl _⟩
  | cons i rest ih =>
    unfold drainSlots
    split
    next tcb ready =>
      split
      · exact ⟨rfl, rfl, Nat.le_refl _⟩
      · obtain ⟨capacity, length, grown⟩ := ih (heapInsert { s with
          inbox := s.inbox.set i .empty, inboxPending := s.inboxPending - 1 } tcb)
        refine ⟨capacity, length.trans List.length_set, ?_⟩
        rw [(heapInsert_perm _ tcb).length_eq, List.length_cons] at grown
        exact (Nat.le_succ _).trans grown
    · exact ih s

/-- The count of the slots that are ready, off by those not counted yet. -/
theorem drainSlots_counted {uncounted : BitVec 32}
    (h : s.inboxPending + uncounted = BitVec.ofNat 32 (s.inbox.filterMap InboxSlot.ready?).length) (slots : List Nat) :
    (s.drainSlots slots).inboxPending + uncounted =
      BitVec.ofNat 32 ((s.drainSlots slots).inbox.filterMap InboxSlot.ready?).length := by
  induction slots generalizing s with
  | nil => exact h
  | cons i rest ih =>
    unfold drainSlots
    split
    next tcb ready =>
      split
      · exact h
      · have fewer := (ready_taken ready).length_eq
        rw [List.length_cons] at fewer
        rw [← fewer, BitVec.ofNat_add] at h
        apply ih
        change s.inboxPending - 1 + uncounted = BitVec.ofNat 32 ((s.inbox.set i .empty).filterMap InboxSlot.ready?).length
        generalize BitVec.ofNat 32 ((s.inbox.set i .empty).filterMap InboxSlot.ready?).length = n at h ⊢
        bv_omega
    · exact ih h

/-- A drain over a slot that is ready puts something in the heap, when there is room. -/
theorem drainSlots_some (room : 1 < s.capacity) {slots : List Nat} {i : Nat} (member : i ∈ slots) {tcb : TCB φ π}
    (ready : s.inbox[i]? = some (.ready tcb)) : (s.drainSlots slots).heap ≠ [] := by
  induction slots with
  | nil => cases member
  | cons j rest ih =>
    unfold drainSlots
    split
    next other _ =>
      split
      next full =>
        intro none_
        rw [none_] at full
        simp at full
        omega
      next free =>
        -- an entry more, and a drain takes none away
        intro none_
        have grown := (drainSlots_fields (heapInsert { s with
          inbox := s.inbox.set j .empty, inboxPending := s.inboxPending - 1 } other) rest).2.2
        rw [(heapInsert_perm _ other).length_eq, none_] at grown
        exact absurd grown (Nat.not_succ_le_zero _)
    next skip =>
      rcases List.mem_cons.mp member with same | later
      · rw [← same] at skip
        exact absurd ready (skip tcb)
      · exact ih later

end Scheduler

namespace Ledger

variable {φ π : Type} [DecidableEq φ] [DecidableEq π] {capacity slots : Nat} {l : Ledger φ π}

omit [DecidableEq φ] [DecidableEq π] in
theorem kept_start (capacity slots : Nat) : Kept capacity slots (start capacity slots : Ledger φ π) where
  ordered := by
    intro i _ lt
    cases lt
  capacity := rfl
  slots := List.length_replicate
  counted := by
    unfold start Scheduler.start
    rw [List.filterMap_replicate]
    simp [InboxSlot.ready?]
  once := by
    unfold start Scheduler.start Scheduler.entries
    simp [InboxSlot.ready?]

omit [DecidableEq φ] [DecidableEq π] in
theorem Kept.drain (h : Kept capacity slots l) : Kept capacity slots { l with queue := l.queue.drainInbox } := by
  obtain ⟨ordered, perm⟩ := Scheduler.drainInbox_keeps h.ordered
  have same : l.queue.drainInbox.capacity = l.queue.capacity ∧ l.queue.drainInbox.inbox.length = l.queue.inbox.length ∧
      l.queue.drainInbox.inboxPending + BitVec.ofNat 32 l.uncounted =
        BitVec.ofNat 32 (l.queue.drainInbox.inbox.filterMap InboxSlot.ready?).length := by
    unfold Scheduler.drainInbox
    split
    · exact ⟨rfl, rfl, h.counted⟩
    · have fields := Scheduler.drainSlots_fields l.queue (List.range l.queue.inbox.length)
      exact ⟨fields.1, fields.2.1, Scheduler.drainSlots_counted h.counted _⟩
  exact ⟨ordered, same.1.trans h.capacity, same.2.1.trans h.slots, same.2.2, (perm.append_left _).trans h.once⟩

theorem Kept.schedule (h : Kept capacity slots l) (tcb : TCB φ π) : Kept capacity slots (l.step (.schedule tcb)) := by
  unfold step takes
  dsimp only [Scheduler.step, gives, counts]
  unfold Scheduler.schedule
  split
  · refine ⟨Scheduler.heapInsert_ordered h.ordered tcb, h.capacity, h.slots, h.counted, ?_⟩
    rw [List.append_nil]
    have grown : (l.queue.heapInsert tcb).entries.Perm (tcb :: l.queue.entries) :=
      (Scheduler.heapInsert_perm l.queue tcb).append_right _
    exact (grown.append_left _).trans (List.perm_middle.trans (h.once.cons tcb))
  · rw [List.append_nil]
    exact h

theorem Kept.postpone (h : Kept capacity slots l) (function : φ) (param : π) (time : Nat) :
    Kept capacity slots (l.step (.postpone function param time)) := by
  have postpones := Scheduler.postponeLocked_postpones l.queue function param time
  have ordered := Scheduler.postponeLocked_ordered h.ordered function param time
  unfold step takes
  dsimp only [Scheduler.step, gives, counts]
  rw [List.append_nil]
  generalize l.queue.postponeLocked function param time = after at *
  obtain ⟨inbox, pending, capacity'⟩ := postpones.inbox
  refine ⟨ordered, capacity'.trans h.capacity, (congrArg _ inbox).trans h.slots, ?_, ?_⟩
  · rw [pending, inbox]
    exact h.counted
  · cases found : after.2 with
    | false =>
      obtain ⟨same, none_⟩ := postpones.missing found
      have missing : l.queue.heap.find? (TCB.isFor function param) = none := by
        rw [List.find?_eq_none]
        intro tcb member
        rw [none_ tcb member]
        decide
      rw [missing, same]
      exact h.once
    | true =>
      obtain ⟨tcb, rest, first, before, now⟩ := postpones.moved found
      rw [first]
      dsimp only
      unfold Scheduler.entries at *
      rw [inbox]
      -- the entry moved stands in the place of the one it was
      have was : (tcb :: (l.popped ++ (rest ++ l.queue.inbox.filterMap InboxSlot.ready?))).Perm l.taken := by
        refine List.Perm.trans ?_ h.once
        refine List.perm_middle.symm.trans (List.Perm.append_left _ ?_)
        exact (before.append_right _).symm
      have member : tcb ∈ l.taken := was.mem_iff.mp List.mem_cons_self
      have left : (l.popped ++ (rest ++ l.queue.inbox.filterMap InboxSlot.ready?)).Perm (l.taken.erase tcb) :=
        (was.trans (List.perm_cons_erase member)).cons_inv
      refine List.Perm.trans (List.Perm.append_left _ (now.append_right _)) ?_
      exact List.perm_middle.trans (left.cons _)

theorem Kept.claim (h : Kept capacity slots l) (i : Nat) : Kept capacity slots (l.step (.inboxClaim i)) := by
  unfold step takes
  dsimp only [Scheduler.step, gives, counts]
  rw [List.append_nil]
  split
  next free =>
    have same := Scheduler.ready_set free .writing
    refine ⟨h.ordered, h.capacity, List.length_set.trans h.slots, ?_, ?_⟩
    · rw [h.counted]
      exact congrArg _ same.length_eq.symm
    · exact ((same.append_left _).append_left _).trans h.once
  · exact h

theorem Kept.fill (h : Kept capacity slots l) (i : Nat) (tcb : TCB φ π) :
    Kept capacity slots (l.step (.inboxFill i tcb)) := by
  unfold step takes
  dsimp only [Scheduler.step, gives, counts]
  rw [List.append_nil]
  split
  next claimed =>
    have more := Scheduler.ready_set claimed (.ready tcb)
    refine ⟨h.ordered, h.capacity, List.length_set.trans h.slots, ?_, ?_⟩
    · have length : ((l.queue.inbox.set i (.ready tcb)).filterMap InboxSlot.ready?).length =
          (l.queue.inbox.filterMap InboxSlot.ready?).length + 1 := more.length_eq
      dsimp only
      rw [length, BitVec.ofNat_add, BitVec.ofNat_add, ← BitVec.add_assoc, h.counted]
    · have grown : (l.queue.heap ++ (l.queue.inbox.set i (.ready tcb)).filterMap InboxSlot.ready?).Perm
          (tcb :: l.queue.entries) := (more.append_left _).trans List.perm_middle
      exact (grown.append_left _).trans (List.perm_middle.trans (h.once.cons tcb))
  · exact h

theorem Kept.runDue (h : Kept capacity slots l) (now : Nat) : Kept capacity slots (l.step (.runDue now)) := by
  have drained := h.drain
  have order : MinHeap.Ordered TCB.time (l.queue.runDue now).heap := Scheduler.step_ordered h.ordered (.runDue now)
  have entries := Scheduler.runDue_entries h.ordered now
  have rest : (l.queue.runDue now).capacity = l.queue.drainInbox.capacity ∧
      (l.queue.runDue now).inbox = l.queue.drainInbox.inbox ∧
      (l.queue.runDue now).inboxPending = l.queue.drainInbox.inboxPending := by
    unfold Scheduler.runDue
    dsimp only
    split
    · exact ⟨rfl, rfl, rfl⟩
    · split
      · exact ⟨rfl, rfl, rfl⟩
      · exact ⟨rfl, rfl, rfl⟩
  unfold step takes
  dsimp only [Scheduler.step, gives, counts]
  refine ⟨order, rest.1.trans drained.capacity, (congrArg _ rest.2.1).trans drained.slots, ?_, ?_⟩
  · dsimp only
    rw [rest.2.2, rest.2.1]
    exact drained.counted
  · rw [List.append_assoc]
    exact (entries.append_left _).trans h.once

theorem Kept.step (h : Kept capacity slots l) {event : SchedulerEvent φ π} (call : l.calls event = true) :
    Kept capacity slots (l.step event) := by
  cases event with
  | schedule tcb => exact h.schedule tcb
  | postpone function param time => exact h.postpone function param time
  | inboxClaim i => exact h.claim i
  | inboxFill i tcb => exact h.fill i tcb
  | inboxCounted =>
    have some_ : 0 < l.uncounted := by simpa [calls] using call
    refine ⟨h.ordered, h.capacity, h.slots, ?_, ?_⟩
    · change l.queue.inboxPending + 1 + BitVec.ofNat 32 (l.uncounted - 1) = _
      have counted := h.counted
      obtain ⟨u, same⟩ : ∃ u, l.uncounted = u + 1 := ⟨l.uncounted - 1, by omega⟩
      rw [same, BitVec.ofNat_add] at counted
      rw [same, Nat.add_sub_cancel, BitVec.add_assoc, BitVec.add_comm 1]
      exact counted
    · unfold Ledger.step takes gives
      rw [List.append_nil]
      exact h.once
  | drain =>
    have drained := h.drain
    refine ⟨drained.ordered, drained.capacity, drained.slots, drained.counted, ?_⟩
    unfold Ledger.step takes gives
    rw [List.append_nil]
    exact drained.once
  | runDue now => exact h.runDue now
  | unschedule function param => cases call
  | reset => cases call

omit [DecidableEq φ] [DecidableEq π] in
/-- With every hand-in counted, something there and all of it due, a pop takes something out. -/
theorem Kept.pops (h : Kept capacity slots l) (room : 1 < capacity) (few : slots < 2 ^ 32) (quiet : l.uncounted = 0)
    {now : Nat} (due : ∀ tcb ∈ l.queue.entries, tcb.time ≤ now) (some_ : l.queue.entries ≠ []) :
    ∃ tcb, l.queue.due now = some tcb := by
  obtain ⟨_, perm⟩ := Scheduler.drainInbox_keeps h.ordered
  have heap : l.queue.drainInbox.heap ≠ [] := by
    by_cases empty : l.queue.heap = []
    · -- everything is in the inbox, and it is counted
      unfold Scheduler.entries at some_
      rw [empty, List.nil_append] at some_
      obtain ⟨tcb, member⟩ := List.exists_mem_of_ne_nil _ some_
      obtain ⟨slot, here, ready⟩ := List.mem_filterMap.mp member
      obtain ⟨i, lt, place⟩ := List.mem_iff_getElem.mp here
      have ready : l.queue.inbox[i]? = some (.ready tcb) := by
        rw [List.getElem?_eq_getElem lt, place]
        cases slot with
        | empty => cases ready
        | writing => cases ready
        | ready other =>
          cases ready
          rfl
      have pending : l.queue.inboxPending ≠ 0 := by
        intro none_
        have counted := h.counted
        have length := List.length_filterMap_le InboxSlot.ready? l.queue.inbox
        have pos := List.length_pos_of_ne_nil some_
        rw [none_, quiet] at counted
        have zero := congrArg BitVec.toNat counted
        rw [h.slots] at length
        rw [BitVec.toNat_ofNat, Nat.mod_eq_of_lt (by omega)] at zero
        simp at zero
        omega
      unfold Scheduler.drainInbox
      rw [if_neg pending]
      exact Scheduler.drainSlots_some (h.capacity ▸ room) (List.mem_range.mpr lt) ready
    · intro none_
      unfold Scheduler.drainInbox at none_
      split at none_
      · exact empty none_
      · have grown := (Scheduler.drainSlots_fields l.queue (List.range l.queue.inbox.length)).2.2
        rw [none_] at grown
        exact empty (List.length_eq_zero_iff.mp (Nat.le_zero.mp grown))
  obtain ⟨tcb, rest, whole⟩ := List.exists_cons_of_ne_nil heap
  refine ⟨tcb, ?_⟩
  have late : tcb.time ≤ now := by
    apply due tcb
    apply perm.mem_iff.mp
    unfold Scheduler.entries
    rw [whole]
    exact List.mem_append_left _ List.mem_cons_self
  unfold Scheduler.due
  rw [whole]
  simp [late]

/-- Popping on brings out everything. -/
theorem Kept.empties (room : 1 < capacity) (few : slots < 2 ^ 32) {now : Nat} (n : Nat) {l : Ledger φ π}
    (h : Kept capacity slots l) (quiet : l.uncounted = 0) (due : ∀ tcb ∈ l.queue.entries, tcb.time ≤ now)
    (size : l.queue.entries.length = n) :
    Kept capacity slots (l.run (List.replicate n (.runDue now))) ∧
      (l.run (List.replicate n (.runDue now))).queue.entries = [] := by
  induction n generalizing l with
  | zero => exact ⟨h, List.length_eq_zero_iff.mp size⟩
  | succ n ih =>
    have some_ : l.queue.entries ≠ [] := by
      intro none_
      rw [none_] at size
      cases size
    obtain ⟨tcb, out⟩ := h.pops room few quiet due some_
    have perm := Scheduler.runDue_entries h.ordered now
    rw [out] at perm
    have fewer : (l.queue.runDue now).entries.length = n := by
      have length := perm.length_eq
      rw [size] at length
      simpa using length
    apply ih (h.runDue now) quiet
    · intro other member
      exact due other (perm.mem_iff.mp (List.mem_append_right _ member))
    · exact fewer

/-- The ledger of a priority queue. -/
structure IsQueue (l : Ledger φ π) : Prop where
  /-- What was taken in has come out or is there, each entry once. -/
  once : (l.popped ++ l.queue.entries).Perm l.taken
  earliest : ∀ now tcb, l.queue.due now = some tcb → Scheduler.Pops l.queue now tcb (l.queue.runDue now)
  postponed : ∀ function param time, Scheduler.Postpones l.queue function param time
    (l.queue.postponeLocked function param time).1 (l.queue.postponeLocked function param time).2
  refused : ∀ tcb, (l.queue.schedule tcb).2 = false → (l.queue.schedule tcb).1 = l.queue
  /-- With no hand-in under way, as many pops as there are entries bring out all that was taken in. -/
  emptied : l.uncounted = 0 → ∀ now, (∀ tcb ∈ l.queue.entries, tcb.time ≤ now) →
    (l.run (List.replicate l.queue.entries.length (.runDue now))).queue.entries = [] ∧
      (l.run (List.replicate l.queue.entries.length (.runDue now))).popped.Perm
        (l.run (List.replicate l.queue.entries.length (.runDue now))).taken

/-- Two timers, one handed in by another thread, the first put off past the second. -/
def twoTimers : List (SchedulerEvent Nat Nat) :=
  [.schedule ⟨5, 0, 0⟩, .inboxClaim 0, .inboxFill 0 ⟨7, 1, 0⟩, .inboxCounted, .postpone 0 0 9, .runDue 8]

end Ledger

end Tickle
