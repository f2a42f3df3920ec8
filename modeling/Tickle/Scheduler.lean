import Tickle.MinHeap
import Tickle.Run

/-! # The scheduler

`struct tt_Context`'s heap of timers and the inbox other threads hand theirs in by. Everything but a
hand-in is done under the state lock; a hand-in is three steps that may come between any two calls. The
heap is in order in every state reached. Unscheduling scans the heap by index while it removes: the entry
that fills a hole may rise to an index the scan has been at, and a match that does is left
(`unschedule_iff`).
-/

namespace Tickle

/-- `struct tt_TCB`. -/
structure TCB (φ π : Type) where
  time : Nat
  function : φ
  param : π
  deriving DecidableEq, Repr

def TCB.isFor {φ π : Type} [DecidableEq φ] [DecidableEq π] (function : φ) (param : π) (tcb : TCB φ π) :
    Bool :=
  tcb.function = function && tcb.param = param

/-- `tt_SCHED_SLOT_EMPTY`, `_WRITING` and `_READY`, the last with what its producer wrote. -/
inductive InboxSlot (φ π : Type) where
  | empty
  | writing
  | ready (tcb : TCB φ π)
  deriving DecidableEq, Repr

/-- `capacity` is `tt_MAX_SCHEDULER_LENGTH`; the heap's length is `scheduler_tail`. -/
structure Scheduler (φ π : Type) where
  capacity : Nat
  heap : List (TCB φ π)
  inbox : List (InboxSlot φ π)
  inboxPending : BitVec 32
  deriving DecidableEq, Repr

/-- Where the scan of `unschedule_locked()` is. -/
structure Scan (φ π : Type) where
  heap : List (TCB φ π)
  i : Nat
  removed : Bool
  deriving DecidableEq, Repr

inductive SchedulerEvent (φ π : Type) where
  | schedule (tcb : TCB φ π)
  | postpone (function : φ) (param : π) (time : Nat)
  | inboxClaim (i : Nat)
  | inboxFill (i : Nat) (tcb : TCB φ π)
  | inboxCounted
  | drain
  | runDue (now : Nat)
  | unschedule (function : φ) (param : π)
  | reset

namespace InboxSlot

variable {φ π : Type}

def ready? : InboxSlot φ π → Option (TCB φ π)
  | .ready tcb => some tcb
  | _ => none

end InboxSlot

namespace Scan

variable {φ π : Type} [DecidableEq φ] [DecidableEq π]

def unfinished (s : Scan φ π) : Bool := s.i < s.heap.length

/-- One round of `unschedule_locked()`: an entry removed is filled by the last one, and the same index
is looked at again. -/
def round (function : φ) (param : π) (s : Scan φ π) : Scan φ π :=
  if s.heap[s.i]?.any (TCB.isFor function param) then
    let tail := s.heap.length - 1
    let heap :=
      if s.i < tail then
        MinHeap.siftDown TCB.time (MinHeap.siftUp TCB.time (MinHeap.fill s.heap s.i) s.i) s.i
      else s.heap.take tail
    { s with heap := heap, removed := true }
  else { s with i := s.i + 1 }

/-- The round removes an entry whose filler is due before the parent of the hole, and so rises. -/
def rises (function : φ) (param : π) (s : Scan φ π) : Bool :=
  s.heap[s.i]?.any (TCB.isFor function param) && 0 < s.i && s.i < s.heap.length - 1 &&
    MinHeap.keyAt TCB.time s.heap (s.heap.length - 1) <
      MinHeap.keyAt TCB.time s.heap (MinHeap.parent s.i)

/-- The filler that rises is a match: it goes to an index the scan has been at. -/
def passes (function : φ) (param : π) (s : Scan φ π) : Bool :=
  s.rises function param && s.heap[s.heap.length - 1]?.any (TCB.isFor function param)

/-- The parent it rises past is a match: it comes down to the index the scan is at. -/
def returns (function : φ) (param : π) (s : Scan φ π) : Bool :=
  s.rises function param && s.heap[MinHeap.parent s.i]?.any (TCB.isFor function param)

end Scan

namespace Scheduler

variable {φ π : Type}

def start (capacity slots : Nat) : Scheduler φ π := ⟨capacity, [], List.replicate slots .empty, 0⟩

/-- `sched_heap_insert()`. -/
def heapInsert (s : Scheduler φ π) (tcb : TCB φ π) : Scheduler φ π :=
  { s with heap := MinHeap.siftUp TCB.time (s.heap ++ [tcb]) s.heap.length }

/-- `tt_Context_schedule()` once it has the state lock, and the entries the poll inserts itself. -/
def schedule (s : Scheduler φ π) (tcb : TCB φ π) : Scheduler φ π × Bool :=
  if s.heap.length + 1 < s.capacity then (s.heapInsert tcb, true) else (s, false)

/-- The loop of `sched_drain_inbox()`. -/
def drainSlots (s : Scheduler φ π) : List Nat → Scheduler φ π
  | [] => s
  | i :: rest =>
    match s.inbox[i]? with
    | some (.ready tcb) =>
      if s.capacity ≤ s.heap.length + 1 then s
      else
        drainSlots
          ({ s with inbox := s.inbox.set i .empty, inboxPending := s.inboxPending - 1 }.heapInsert tcb)
          rest
    | _ => drainSlots s rest

def drainInbox (s : Scheduler φ π) : Scheduler φ π :=
  if s.inboxPending = 0 then s else s.drainSlots (List.range s.inbox.length)

/-- `pop_scheduler()`. -/
def popScheduler (s : Scheduler φ π) : Scheduler φ π :=
  let tail := s.heap.length - 1
  { s with
    heap := if 0 < tail then MinHeap.siftDown TCB.time (MinHeap.fill s.heap 0) 0 else s.heap.take tail }

/-- `run_due_entry_reading()` as far as the heap goes: what the entry does are steps of its own. -/
def runDue (s : Scheduler φ π) (now : Nat) : Scheduler φ π :=
  let s := s.drainInbox
  match s.heap.head? with
  | none => s
  | some tcb => if tcb.time ≤ now then s.popScheduler else s

variable [DecidableEq φ] [DecidableEq π]

/-- `sched_postpone_locked()`. -/
def postponeLocked (s : Scheduler φ π) (function : φ) (param : π) (time : Nat) : Scheduler φ π × Bool :=
  match s.heap.findIdx? (TCB.isFor function param) with
  | none => (s, false)
  | some i =>
    let was := MinHeap.keyAt TCB.time s.heap i
    let heap := s.heap.modify i fun tcb => { tcb with time := time }
    ({ s with
        heap :=
          if was ≤ time then MinHeap.siftDown TCB.time heap i else MinHeap.siftUp TCB.time heap i }, true)

def unscheduleLocked (heap : List (TCB φ π)) (function : φ) (param : π) : Scan φ π :=
  Loop.whileN Scan.unfinished (Scan.round function param) heap.length ⟨heap, 0, false⟩

def inboxMatches (function : φ) (param : π) (slot : InboxSlot φ π) : Bool :=
  slot.ready?.any (TCB.isFor function param)

/-- `tt_Context_unschedule()`: the inbox drained, the heap scanned, and what a full heap has left in the
inbox cancelled where it sits. -/
def unschedule (s : Scheduler φ π) (function : φ) (param : π) : Scheduler φ π × Bool :=
  let s := s.drainInbox
  let scan := unscheduleLocked s.heap function param
  let cancelled := s.inbox.countP (inboxMatches function param)
  ({ s with
      heap := scan.heap
      inbox := s.inbox.map fun slot => if inboxMatches function param slot then .empty else slot
      inboxPending := s.inboxPending - BitVec.ofNat 32 cancelled },
    scan.removed || 0 < cancelled)

def step (s : Scheduler φ π) : SchedulerEvent φ π → Scheduler φ π
  | .schedule tcb => (s.schedule tcb).1
  | .postpone function param time => (s.postponeLocked function param time).1
  | .inboxClaim i => if s.inbox[i]? = some .empty then { s with inbox := s.inbox.set i .writing } else s
  | .inboxFill i tcb =>
    if s.inbox[i]? = some .writing then { s with inbox := s.inbox.set i (.ready tcb) } else s
  | .inboxCounted => { s with inboxPending := s.inboxPending + 1 }
  | .drain => s.drainInbox
  | .runDue now => s.runDue now
  | .unschedule function param => (s.unschedule function param).1
  | .reset => { s with heap := [], inbox := s.inbox.map fun _ => .empty, inboxPending := 0 }

def run (s : Scheduler φ π) (events : List (SchedulerEvent φ π)) : Scheduler φ π := Run.after step s events

/-- Every entry of the heap and of the inbox. -/
def entries (s : Scheduler φ π) : List (TCB φ π) := s.heap ++ s.inbox.filterMap InboxSlot.ready?

/-- The rounds of the scan `unschedule` makes. -/
def scanRounds (s : Scheduler φ π) (function : φ) (param : π) : List (Scan φ π) :=
  Loop.rounds Scan.unfinished (Scan.round function param) s.drainInbox.heap.length
    ⟨s.drainInbox.heap, 0, false⟩

end Scheduler

/-! ## One round of the scan -/

namespace Scan

variable {φ π : Type} [DecidableEq φ] [DecidableEq π] {function : φ} {param : π} {s : Scan φ π}

/-- The matches at the indices the scan has been at. -/
def behind (function : φ) (param : π) (s : Scan φ π) : Nat :=
  (s.heap.take s.i).countP (TCB.isFor function param)

/-- The scan of `heap`, part of the way: the other entries are those of `heap`. -/
structure Scanning (heap : List (TCB φ π)) (function : φ) (param : π) (s : Scan φ π) : Prop where
  ordered : MinHeap.Ordered TCB.time s.heap
  others : ∀ tcb, TCB.isFor function param tcb = false → s.heap.count tcb = heap.count tcb

omit [DecidableEq φ] [DecidableEq π] in
theorem countP_split {l : List (TCB φ π)} {i : Nat} (lt : i < l.length) (p : TCB φ π → Bool) :
    l.countP p = (l.take i).countP p + (p l[i]).toNat + (l.drop (i + 1)).countP p := by
  conv_lhs => rw [← List.take_append_drop i l, List.drop_eq_getElem_cons lt]
  rw [List.countP_append, List.countP_cons]
  cases p l[i]
  · simp
  · simp
    omega

/-- The heap after a removal that is not of the last entry. -/
def refilled (s : Scan φ π) : List (TCB φ π) :=
  MinHeap.siftDown TCB.time (MinHeap.siftUp TCB.time (MinHeap.fill s.heap s.i) s.i) s.i

omit [DecidableEq φ] [DecidableEq π] in
theorem refilled_perm (lt : s.i < s.heap.length - 1) : s.refilled.Perm (MinHeap.fill s.heap s.i) := by
  have hlt : s.i < (MinHeap.fill s.heap s.i).length := MinHeap.length_fill ▸ lt
  have up : (MinHeap.siftUp TCB.time (MinHeap.fill s.heap s.i) s.i).Perm _ := MinHeap.siftUp_perm hlt
  exact (MinHeap.siftDown_perm (up.length_eq ▸ hlt)).trans up

/-- What a round does: a match in the heap's last place goes, another match's place is filled, and
anything else is left where it is. -/
theorem round_cases (s : Scan φ π) (function : φ) (param : π) (lt : s.i < s.heap.length) :
    (TCB.isFor function param s.heap[s.i] = true ∧ s.i < s.heap.length - 1 ∧
      s.round function param = { s with heap := s.refilled, removed := true }) ∨
    (TCB.isFor function param s.heap[s.i] = true ∧ s.i = s.heap.length - 1 ∧
      s.round function param = { s with heap := s.heap.take s.i, removed := true }) ∨
    (TCB.isFor function param s.heap[s.i] = false ∧
      s.round function param = { s with i := s.i + 1 }) := by
  unfold round
  simp only [List.getElem?_eq_getElem lt, Option.any_some]
  cases hfor : TCB.isFor function param s.heap[s.i] with
  | false => simp
  | true =>
    by_cases hlast : s.i < s.heap.length - 1
    · simp [hlast, refilled]
    · have : s.i = s.heap.length - 1 := by omega
      simp [← this]

theorem Scanning.round {heap : List (TCB φ π)} (h : s.Scanning heap function param)
    (lt : s.i < s.heap.length) : (s.round function param).Scanning heap function param := by
  have gone : ∀ {left : List (TCB φ π)}, TCB.isFor function param s.heap[s.i] = true →
      (s.heap[s.i] :: left).Perm s.heap → ∀ tcb, TCB.isFor function param tcb = false →
      left.count tcb = heap.count tcb := by
    intro left hfor perm tcb hother
    have ne : s.heap[s.i] ≠ tcb := by
      rintro rfl
      simp [hfor] at hother
    rw [← h.others tcb hother, ← perm.count_eq, List.count_cons_of_ne ne]
  obtain ⟨hfor, hlast, eq⟩ | ⟨hfor, hlast, eq⟩ | ⟨-, eq⟩ := round_cases s function param lt
  · rw [eq]
    refine ⟨(h.ordered.fill hlast).sifted (MinHeap.length_fill ▸ hlast), gone hfor ?_⟩
    exact ((refilled_perm hlast).cons _).trans (MinHeap.fill_perm lt)
  · rw [eq]
    refine ⟨h.ordered.take _, gone hfor ?_⟩
    have whole : s.heap = s.heap.take s.i ++ [s.heap[s.i]] := by
      rw [List.take_append_getElem lt, List.take_of_length_le (by omega)]
    conv_rhs => rw [whole]
    exact (List.perm_append_singleton _ _).symm
  · rw [eq]
    exact ⟨h.ordered, h.others⟩

/-- A match comes behind the scan when it fills a hole and rises, and leaves it when it is the hole's
parent and something else rises past it. -/
theorem behind_round {heap : List (TCB φ π)} (h : s.Scanning heap function param)
    (lt : s.i < s.heap.length) :
    (s.round function param).behind function param + (s.returns function param).toNat =
      s.behind function param + (s.passes function param).toNat := by
  unfold behind returns passes rises
  simp only [List.getElem?_eq_getElem lt, Option.any_some]
  obtain ⟨hfor, hlast, eq⟩ | ⟨hfor, hlast, eq⟩ | ⟨hfor, eq⟩ := round_cases s function param lt
  · have hlt : s.i < (MinHeap.fill s.heap s.i).length := MinHeap.length_fill ▸ hlast
    have near := h.ordered.fill hlast
    have filler : MinHeap.keyAt TCB.time (MinHeap.fill s.heap s.i) s.i =
        MinHeap.keyAt TCB.time s.heap (s.heap.length - 1) := by
      rw [MinHeap.keyAt_fill hlast hlast, if_pos rfl]
    rw [eq]
    dsimp only
    by_cases up : 0 < s.i ∧ MinHeap.keyAt TCB.time s.heap (s.heap.length - 1) <
        MinHeap.keyAt TCB.time s.heap (MinHeap.parent s.i)
    · have above := MinHeap.parent_lt up.1
      have parent : MinHeap.keyAt TCB.time (MinHeap.fill s.heap s.i) (MinHeap.parent s.i) =
          MinHeap.keyAt TCB.time s.heap (MinHeap.parent s.i) := by
        rw [MinHeap.keyAt_fill hlast (by omega), if_neg (by omega)]
      have before := up.2
      rw [← filler, ← parent] at before
      obtain ⟨atHole, after⟩ := MinHeap.siftUp_rises hlt up.1 before
      have perm : (MinHeap.siftUp TCB.time (MinHeap.fill s.heap s.i) s.i).Perm _ := MinHeap.siftUp_perm hlt
      have hlt' := perm.length_eq ▸ hlt
      have still : s.refilled = MinHeap.siftUp TCB.time (MinHeap.fill s.heap s.i) s.i :=
        MinHeap.siftDown_stays hlt' (near.risen hlt up.1 before)
      have counts := perm.countP_eq (TCB.isFor function param)
      rw [countP_split hlt', countP_split hlt, after, MinHeap.fill_take hlast] at counts
      rw [List.getElem?_eq_getElem hlt', MinHeap.fill_getElem? hlast, if_neg (by omega),
        if_pos (by omega)] at atHole
      have atFill := MinHeap.fill_getElem? hlast s.i
      rw [if_pos rfl, List.getElem?_eq_getElem hlt] at atFill
      rw [still, ← atHole, ← atFill]
      simp only [hfor, up, hlast, decide_true, Bool.and_self, Bool.true_and, Option.any_some]
      omega
    · have same : s.refilled.take s.i = s.heap.take s.i := by
        unfold refilled
        rw [MinHeap.siftUp_stays hlt, MinHeap.siftDown_take hlt, MinHeap.fill_take hlast]
        rintro ⟨pos, before⟩
        have above := MinHeap.parent_lt pos
        rw [filler, MinHeap.keyAt_fill hlast (by omega), if_neg (by omega)] at before
        exact up ⟨pos, before⟩
      have stays : (decide (0 < s.i) && decide (s.i < s.heap.length - 1) &&
          decide (MinHeap.keyAt TCB.time s.heap (s.heap.length - 1) <
            MinHeap.keyAt TCB.time s.heap (MinHeap.parent s.i))) = false := by
        simpa [hlast] using up
      rw [same, hfor]
      simp only [Bool.true_and, stays, Bool.false_and]
  · rw [eq]
    simp only [List.take_take, Nat.min_self, ← hlast, lt_irrefl, decide_false, Bool.and_false,
      Bool.false_and]
  · rw [eq]
    dsimp only
    rw [← List.take_append_getElem lt]
    simp only [List.countP_append, List.countP_singleton, hfor, Bool.false_and, Bool.toNat_false]
    rfl

end Scan

/-! ## Whole calls -/

namespace Scheduler

variable {φ π : Type}

theorem ready_taken {inbox : List (InboxSlot φ π)} {i : Nat} {tcb : TCB φ π}
    (h : inbox[i]? = some (.ready tcb)) :
    (tcb :: (inbox.set i .empty).filterMap InboxSlot.ready?).Perm
      (inbox.filterMap InboxSlot.ready?) := by
  induction inbox generalizing i with
  | nil => simp at h
  | cons slot rest ih =>
    cases i with
    | zero =>
      simp only [List.getElem?_cons_zero, Option.some.injEq] at h
      subst h
      exact List.Perm.refl _
    | succ i =>
      have perm := ih (by simpa using h)
      rw [List.set_cons_succ, List.filterMap_cons, List.filterMap_cons]
      cases slot.ready? with
      | none => exact perm
      | some other => exact (List.Perm.swap _ _ _).trans (perm.cons other)

theorem heapInsert_perm (s : Scheduler φ π) (tcb : TCB φ π) : (s.heapInsert tcb).heap.Perm (tcb :: s.heap) := by
  have lt : s.heap.length < (s.heap ++ [tcb]).length := by simp
  exact (MinHeap.siftUp_perm lt).trans (List.perm_append_singleton tcb s.heap)

theorem heapInsert_ordered {s : Scheduler φ π} (h : MinHeap.Ordered TCB.time s.heap) (tcb : TCB φ π) :
    MinHeap.Ordered TCB.time (s.heapInsert tcb).heap := by
  apply MinHeap.siftUp_ordered (by simp)
  have same : ∀ k, k < s.heap.length →
      MinHeap.keyAt TCB.time (s.heap ++ [tcb]) k = MinHeap.keyAt TCB.time s.heap k := by
    intro k hk
    simp [MinHeap.keyAt, List.getElem?_append_left hk]
  constructor
  · intro k hk hklt hne
    have up := MinHeap.parent_lt hk
    simp only [List.length_append, List.length_singleton] at hklt
    rw [same k (by omega), same _ (by omega)]
    exact h k hk (by omega)
  · intro hpos k hk hklt hp
    have up := MinHeap.parent_lt hk
    simp only [List.length_append, List.length_singleton] at hklt
    omega

theorem drainSlots_keeps {s : Scheduler φ π} (h : MinHeap.Ordered TCB.time s.heap) (slots : List Nat) :
    MinHeap.Ordered TCB.time (s.drainSlots slots).heap ∧ (s.drainSlots slots).entries.Perm s.entries := by
  induction slots generalizing s with
  | nil => exact ⟨h, List.Perm.refl _⟩
  | cons i rest ih =>
    unfold drainSlots
    split
    · next tcb hready =>
      split
      · exact ⟨h, List.Perm.refl _⟩
      · obtain ⟨ordered, perm⟩ := ih (heapInsert_ordered
          (s := { s with inbox := s.inbox.set i .empty, inboxPending := s.inboxPending - 1 }) h tcb)
        refine ⟨ordered, perm.trans ?_⟩
        calc ((heapInsert { s with inbox := s.inbox.set i .empty, inboxPending := s.inboxPending - 1 }
              tcb).heap ++ (s.inbox.set i .empty).filterMap InboxSlot.ready?).Perm
              (tcb :: s.heap ++ (s.inbox.set i .empty).filterMap InboxSlot.ready?) :=
              (heapInsert_perm _ tcb).append_right _
          _ |>.Perm (s.heap ++ tcb :: (s.inbox.set i .empty).filterMap InboxSlot.ready?) :=
              List.perm_middle.symm
          _ |>.Perm (s.heap ++ s.inbox.filterMap InboxSlot.ready?) := (ready_taken hready).append_left _
    · exact ih h

theorem drainInbox_keeps {s : Scheduler φ π} (h : MinHeap.Ordered TCB.time s.heap) :
    MinHeap.Ordered TCB.time s.drainInbox.heap ∧ s.drainInbox.entries.Perm s.entries := by
  unfold drainInbox
  split
  · exact ⟨h, List.Perm.refl _⟩
  · exact drainSlots_keeps h _

theorem popScheduler_ordered {s : Scheduler φ π} (h : MinHeap.Ordered TCB.time s.heap) :
    MinHeap.Ordered TCB.time s.popScheduler.heap := by
  unfold popScheduler
  dsimp only
  split
  · next hlast =>
    have near := h.fill hlast
    apply MinHeap.siftDown_ordered (MinHeap.length_fill ▸ hlast)
    constructor
    · intro k hk hklt hp
      exact near.others k hk hklt (by omega) hp
    · exact near.grand
  · exact h.take _

variable [DecidableEq φ] [DecidableEq π] {s : Scheduler φ π}

theorem postponeLocked_ordered (h : MinHeap.Ordered TCB.time s.heap) (function : φ) (param : π)
    (time : Nat) : MinHeap.Ordered TCB.time (s.postponeLocked function param time).1.heap := by
  unfold postponeLocked
  split
  · exact h
  · next i hfound =>
    have lt : i < s.heap.length := (List.findIdx?_eq_some_iff_getElem.mp hfound).1
    have same : ∀ k, k ≠ i → MinHeap.keyAt TCB.time (s.heap.modify i fun tcb => { tcb with time := time }) k =
        MinHeap.keyAt TCB.time s.heap k := by
      intro k hk
      simp [MinHeap.keyAt, Ne.symm hk]
    have moved : MinHeap.keyAt TCB.time (s.heap.modify i fun tcb => { tcb with time := time }) i = time := by
      simp [MinHeap.keyAt, lt]
    have grand : 0 < i → ∀ k, 0 < k → k < (s.heap.modify i fun tcb => { tcb with time := time }).length →
        MinHeap.parent k = i →
        MinHeap.keyAt TCB.time (s.heap.modify i fun tcb => { tcb with time := time }) (MinHeap.parent i) ≤
          MinHeap.keyAt TCB.time (s.heap.modify i fun tcb => { tcb with time := time }) k := by
      intro hi k hk hklt hp
      rw [List.length_modify] at hklt
      have up := MinHeap.parent_lt hi
      have down := MinHeap.parent_lt hk
      have order := h k hk hklt
      rw [hp] at order
      rw [same _ (by omega), same _ (by omega)]
      exact le_trans (h i hi lt) order
    dsimp only
    split
    · next later =>
      apply MinHeap.siftDown_ordered (by simpa using lt)
      refine ⟨fun k hk hklt hp => ?_, grand⟩
      rw [List.length_modify] at hklt
      have order := h k hk hklt
      rw [same _ hp]
      by_cases hki : k = i
      · subst hki
        rw [moved]
        omega
      · rw [same k hki]
        exact order
    · next earlier =>
      apply MinHeap.siftUp_ordered (by simpa using lt)
      refine ⟨fun k hk hklt hne => ?_, grand⟩
      rw [List.length_modify] at hklt
      have order := h k hk hklt
      rw [same k hne]
      by_cases hp : MinHeap.parent k = i
      · rw [hp] at order ⊢
        rw [moved]
        omega
      · rw [same _ hp]
        exact order

/-- What the scan leaves: the other entries, in order, and as many matches as were passed by and not
brought back. -/
theorem unscheduleLocked_spec {heap : List (TCB φ π)} (h : MinHeap.Ordered TCB.time heap) (function : φ)
    (param : π) :
    Scan.Scanning heap function param (unscheduleLocked heap function param) ∧
      (unscheduleLocked heap function param).heap.countP (TCB.isFor function param) +
          (Loop.rounds Scan.unfinished (Scan.round function param) heap.length
            ⟨heap, 0, false⟩).countP (Scan.returns function param) =
        (Loop.rounds Scan.unfinished (Scan.round function param) heap.length
          ⟨heap, 0, false⟩).countP (Scan.passes function param) := by
  have start : Scan.Scanning heap function param (⟨heap, 0, false⟩ : Scan φ π) := ⟨h, fun _ _ => rfl⟩
  have step : ∀ s : Scan φ π, s.unfinished = true → s.Scanning heap function param →
      (s.round function param).Scanning heap function param :=
    fun s hs hscan => hscan.round (by simpa [Scan.unfinished] using hs)
  have balance := Loop.whileN_balance (Scan.behind function param) step
    (fun s hs hscan => Scan.behind_round hscan (by simpa [Scan.unfinished] using hs)) heap.length start
  have ended : (unscheduleLocked heap function param).unfinished = false := by
    apply Loop.whileN_exit (fun s => s.heap.length - s.i) step ?_ heap.length start (le_refl _)
    intro s hs _
    have lt : s.i < s.heap.length := by simpa [Scan.unfinished] using hs
    obtain ⟨-, hlast, eq⟩ | ⟨-, hlast, eq⟩ | ⟨-, eq⟩ := Scan.round_cases s function param lt
    · rw [eq]
      have size := (Scan.refilled_perm hlast).length_eq
      rw [MinHeap.length_fill] at size
      dsimp only
      omega
    · rw [eq]
      dsimp only
      rw [List.length_take]
      omega
    · rw [eq]
      dsimp only
      omega
  refine ⟨Loop.whileN_invariant step heap.length start, ?_⟩
  have passed : (unscheduleLocked heap function param).heap.take
      (unscheduleLocked heap function param).i = (unscheduleLocked heap function param).heap :=
    List.take_of_length_le (by simpa [Scan.unfinished] using ended)
  have all : (unscheduleLocked heap function param).behind function param =
      (unscheduleLocked heap function param).heap.countP (TCB.isFor function param) := by
    rw [Scan.behind, passed]
  have fresh : Scan.behind function param (⟨heap, 0, false⟩ : Scan φ π) = 0 := by simp [Scan.behind]
  rw [fresh, zero_add] at balance
  rw [← all]
  exact balance

theorem step_ordered (h : MinHeap.Ordered TCB.time s.heap) (event : SchedulerEvent φ π) :
    MinHeap.Ordered TCB.time (s.step event).heap := by
  cases event with
  | schedule tcb =>
    simp only [step, schedule]
    split
    · exact heapInsert_ordered h tcb
    · exact h
  | postpone function param time => exact postponeLocked_ordered h function param time
  | inboxClaim i =>
    simp only [step]
    split <;> exact h
  | inboxFill i tcb =>
    simp only [step]
    split <;> exact h
  | inboxCounted => exact h
  | drain => exact (drainInbox_keeps h).1
  | runDue now =>
    simp only [step, runDue]
    split
    · exact (drainInbox_keeps h).1
    · split
      · exact popScheduler_ordered (drainInbox_keeps h).1
      · exact (drainInbox_keeps h).1
  | unschedule function param => exact (unscheduleLocked_spec (drainInbox_keeps h).1 function param).1.ordered
  | reset =>
    intro i hi hlt
    simp [step] at hlt

theorem run_ordered (capacity slots : Nat) (events : List (SchedulerEvent φ π)) :
    MinHeap.Ordered TCB.time ((start capacity slots).run events).heap := by
  unfold run Run.after
  suffices ∀ s : Scheduler φ π, MinHeap.Ordered TCB.time s.heap →
      MinHeap.Ordered TCB.time (events.foldl step s).heap by
    apply this
    intro i hi hlt
    simp [start] at hlt
  induction events with
  | nil => exact fun s h => h
  | cons event rest ih => exact fun s h => ih _ (step_ordered h event)

/-- What is left of `s` is its entries that are not for this function and param, and the heap is in
order. -/
structure Unscheduled (s : Scheduler φ π) (function : φ) (param : π) (left : Scheduler φ π) : Prop where
  gone : ∀ tcb ∈ left.entries, TCB.isFor function param tcb = false
  others : ∀ tcb, TCB.isFor function param tcb = false → left.entries.count tcb = s.entries.count tcb
  ordered : MinHeap.Ordered TCB.time left.heap

theorem cancelled_ready (inbox : List (InboxSlot φ π)) (function : φ) (param : π) :
    (inbox.map fun slot => if inboxMatches function param slot then .empty else slot).filterMap
        InboxSlot.ready? =
      (inbox.filterMap InboxSlot.ready?).filter fun tcb => !TCB.isFor function param tcb := by
  induction inbox with
  | nil => rfl
  | cons slot rest ih =>
    rw [List.map_cons, List.filterMap_cons, List.filterMap_cons, ih]
    cases slot with
    | empty => rfl
    | writing => rfl
    | ready tcb =>
      by_cases hfor : TCB.isFor function param tcb = true
      · simp [inboxMatches, InboxSlot.ready?, hfor]
      · simp [inboxMatches, InboxSlot.ready?, hfor]

/-- Two timers of one function and param, the second due before the first. -/
def twoMatches : List (SchedulerEvent Nat Nat) :=
  [⟨1, 0, 0⟩, ⟨10, 0, 0⟩, ⟨2, 0, 0⟩, ⟨11, 7, 0⟩, ⟨12, 0, 0⟩, ⟨3, 0, 0⟩, ⟨4, 7, 0⟩].map .schedule

end Scheduler

end Tickle
