import Tickle.Run

/-! # Lost messages

A subscription counts the messages it lost from the gaps in the publication sequence numbers of each writer. Samples that the segment
drain passed over, as newer ones lay queued behind them, leave gaps too: core counts these for each writer and hands the number over
with the writer's next delivery, to be taken off.
-/

namespace Tickle

namespace Rmw

variable {W : Type*}

/-- A message of a writer delivered, or a sample of it skipped as superseded, with its publication sequence number. -/
inductive LostEvent (W : Type*)
  | deliver (writer : W) (psn : Nat)
  | skip (writer : W) (psn : Nat)
  deriving DecidableEq

namespace LostEvent

def writer : LostEvent W → W
  | deliver writer _ => writer
  | skip writer _ => writer

def psn : LostEvent W → Nat
  | deliver _ psn => psn
  | skip _ psn => psn

end LostEvent

open LostEvent

/-! ## What is lost -/

namespace History

variable [DecidableEq W]

def deliveredPsn (writer : W) : LostEvent W → Option Nat
  | deliver from_ psn => if from_ = writer then some psn else none
  | skip _ _ => none

def skippedPsn (writer : W) : LostEvent W → Option Nat
  | deliver _ _ => none
  | skip from_ psn => if from_ = writer then some psn else none

def delivered (writer : W) (events : List (LostEvent W)) : List Nat := events.filterMap (deliveredPsn writer)

def skipped (writer : W) (events : List (LostEvent W)) : List Nat := events.filterMap (skippedPsn writer)

/-- All of a writer's, delivered and skipped. -/
def psns (writer : W) (events : List (LostEvent W)) : List Nat :=
  (events.filter fun event => event.writer = writer).map LostEvent.psn

def first (writer : W) (events : List (LostEvent W)) : Nat := (delivered writer events).head?.getD 0

def newest (writer : W) (events : List (LostEvent W)) : Nat := (delivered writer events).getLast?.getD 0

/-- The numbers between a writer's first and newest delivered message that were neither delivered nor skipped. -/
def lost (writer : W) (events : List (LostEvent W)) : Nat :=
  ((Finset.Ioo (first writer events) (newest writer events)).filter fun psn =>
    psn ∉ delivered writer events ∧ psn ∉ skipped writer events).card

def writers (events : List (LostEvent W)) : Finset W := (events.map LostEvent.writer).toFinset

/-- The writers that something was delivered from. -/
def deliverers (events : List (LostEvent W)) : Finset W := (writers events).filter fun writer => delivered writer events ≠ []

def lostTotal (events : List (LostEvent W)) : Nat := ∑ writer ∈ writers events, lost writer events

/-- What is delivered and skipped of each writer comes in the order of its numbers, which start at 1. -/
def InOrder (events : List (LostEvent W)) : Prop :=
  (∀ event ∈ events, 0 < event.psn) ∧ ∀ writer ∈ writers events, (psns writer events).Pairwise (· < ·)

instance (events : List (LostEvent W)) : Decidable (InOrder events) :=
  inferInstanceAs (Decidable ((∀ event ∈ events, 0 < event.psn) ∧ ∀ writer ∈ writers events, (psns writer events).Pairwise (· < ·)))

/-- The samples skipped since a writer's newest delivered message. -/
def pending (writer : W) (events : List (LostEvent W)) : Nat :=
  ((skipped writer events).filter fun psn => newest writer events < psn).length

variable {writer : W} {events : List (LostEvent W)} {event : LostEvent W} {psn : Nat}

/-! ### An event more -/

theorem delivered_snoc : delivered writer (events ++ [event]) = delivered writer events ++ (deliveredPsn writer event).toList := by
  unfold delivered
  rw [List.filterMap_append]
  cases found : deliveredPsn writer event <;> simp [found]

theorem skipped_snoc : skipped writer (events ++ [event]) = skipped writer events ++ (skippedPsn writer event).toList := by
  unfold skipped
  rw [List.filterMap_append]
  cases found : skippedPsn writer event <;> simp [found]

theorem deliveredPsn_eq (found : deliveredPsn writer event = some psn) : event.writer = writer ∧ event.psn = psn := by
  cases event with
  | deliver from_ psn' =>
    simp only [deliveredPsn, Option.ite_none_right_eq_some, Option.some.injEq] at found
    exact found
  | skip => exact absurd found (by simp [deliveredPsn])

theorem skippedPsn_eq (found : skippedPsn writer event = some psn) : event.writer = writer ∧ event.psn = psn := by
  cases event with
  | deliver => exact absurd found (by simp [skippedPsn])
  | skip from_ psn' =>
    simp only [skippedPsn, Option.ite_none_right_eq_some, Option.some.injEq] at found
    exact found

/-- Some of a writer's numbers are among all of them, in their order. -/
theorem filterMap_sublist {f : LostEvent W → Option Nat}
    (of : ∀ event psn, f event = some psn → event.writer = writer ∧ event.psn = psn) (events : List (LostEvent W)) :
    (events.filterMap f).Sublist (psns writer events) := by
  unfold psns
  induction events with
  | nil => exact List.Sublist.slnil
  | cons event rest ih =>
    rw [List.filterMap_cons, List.filter_cons]
    split
    · split
      · exact ih.cons _
      · exact ih
    · next psn found =>
      obtain ⟨same, number⟩ := of event psn found
      rw [if_pos (decide_eq_true same), List.map_cons, number]
      exact ih.cons_cons psn

theorem delivered_sublist (writer : W) (events : List (LostEvent W)) : (delivered writer events).Sublist (psns writer events) :=
  filterMap_sublist (fun _ _ => deliveredPsn_eq) events

theorem skipped_sublist (writer : W) (events : List (LostEvent W)) : (skipped writer events).Sublist (psns writer events) :=
  filterMap_sublist (fun _ _ => skippedPsn_eq) events

theorem mem_psns_of_delivered (mem : psn ∈ delivered writer events) : psn ∈ psns writer events :=
  (delivered_sublist writer events).subset mem

theorem mem_psns_of_skipped (mem : psn ∈ skipped writer events) : psn ∈ psns writer events :=
  (skipped_sublist writer events).subset mem

theorem writers_snoc : writers (events ++ [event]) = insert event.writer (writers events) := by
  unfold writers
  ext w
  simp only [List.map_append, List.map_cons, List.map_nil, List.toFinset_append, List.toFinset_cons, List.toFinset_nil,
    Finset.mem_union, Finset.mem_insert, Finset.notMem_empty, or_false]
  exact Or.comm

theorem InOrder.snoc (ordered : InOrder (events ++ [event])) :
    InOrder events ∧ 0 < event.psn ∧ ∀ psn ∈ psns event.writer events, psn < event.psn := by
  obtain ⟨positive, increasing⟩ := ordered
  have split : ∀ writer, psns writer (events ++ [event]) = psns writer events ++ psns writer [event] := by
    intro writer
    unfold psns
    rw [List.filter_append, List.map_append]
  refine ⟨⟨fun event mem => positive event (List.mem_append_left _ mem), ?_⟩,
    positive event (List.mem_append_right _ (List.mem_singleton.mpr rfl)), ?_⟩
  · intro writer mem
    have here := increasing writer (by rw [writers_snoc]; exact Finset.mem_insert_of_mem mem)
    rw [split] at here
    exact (List.pairwise_append.mp here).1
  · intro psn mem
    have here := increasing event.writer (by rw [writers_snoc]; exact Finset.mem_insert_self _ _)
    rw [split] at here
    apply (List.pairwise_append.mp here).2.2 psn mem
    simp [psns]

/-- A writer that an event is not of has what it had. -/
theorem other_snoc (differ : event.writer ≠ writer) :
    delivered writer (events ++ [event]) = delivered writer events ∧
      skipped writer (events ++ [event]) = skipped writer events := by
  rw [delivered_snoc, skipped_snoc]
  cases event with
  | deliver from_ psn =>
    have other : from_ ≠ writer := differ
    simp [deliveredPsn, skippedPsn, other]
  | skip from_ psn =>
    have other : from_ ≠ writer := differ
    simp [deliveredPsn, skippedPsn, other]

theorem lost_other (differ : event.writer ≠ writer) :
    lost writer (events ++ [event]) = lost writer events ∧ pending writer (events ++ [event]) = pending writer events ∧
      newest writer (events ++ [event]) = newest writer events := by
  obtain ⟨delivers, skips⟩ := @other_snoc W _ writer events event differ
  unfold lost pending first newest
  rw [delivers, skips]
  exact ⟨rfl, rfl, rfl⟩

theorem newest_mem (some_ : delivered writer events ≠ []) : newest writer events ∈ delivered writer events := by
  unfold newest
  rw [List.getLast?_eq_some_getLast some_, Option.getD_some]
  exact List.getLast_mem some_

/-- The newest one, if there is one, is before what comes next. -/
theorem newest_lt (positive : 0 < psn) (after : ∀ old ∈ psns writer events, old < psn) : newest writer events < psn := by
  by_cases some_ : delivered writer events = []
  · unfold newest
    rw [some_]
    exact positive
  · exact after _ (mem_psns_of_delivered (newest_mem some_))

theorem skip_snoc (positive : 0 < psn) (after : ∀ old ∈ psns writer events, old < psn) :
    lost writer (events ++ [skip writer psn]) = lost writer events ∧
      pending writer (events ++ [skip writer psn]) = pending writer events + 1 ∧
      newest writer (events ++ [skip writer psn]) = newest writer events := by
  have delivers : delivered writer (events ++ [skip writer psn]) = delivered writer events := by
    rw [delivered_snoc]
    simp [deliveredPsn]
  have skips : skipped writer (events ++ [skip writer psn]) = skipped writer events ++ [psn] := by
    rw [skipped_snoc]
    simp [skippedPsn]
  have past := newest_lt positive after
  unfold newest at past
  unfold lost pending first newest
  rw [delivers, skips]
  refine ⟨?_, ?_, rfl⟩
  · congr 1
    apply Finset.filter_congr
    intro q between
    rw [Finset.mem_Ioo] at between
    rw [List.mem_append, List.mem_singleton]
    have differ : q ≠ psn := by omega
    simp [differ]
  · rw [List.filter_append, List.length_append]
    simp [past]

theorem pending_deliver (after : ∀ old ∈ psns writer events, old < psn) :
    pending writer (events ++ [deliver writer psn]) = 0 ∧ newest writer (events ++ [deliver writer psn]) = psn := by
  have delivers : delivered writer (events ++ [deliver writer psn]) = delivered writer events ++ [psn] := by
    rw [delivered_snoc]
    simp [deliveredPsn]
  have skips : skipped writer (events ++ [deliver writer psn]) = skipped writer events := by
    rw [skipped_snoc]
    simp [skippedPsn]
  have last : newest writer (events ++ [deliver writer psn]) = psn := by
    unfold newest
    rw [delivers]
    simp
  refine ⟨?_, last⟩
  unfold pending
  rw [last, skips, List.length_eq_zero_iff, List.filter_eq_nil_iff]
  intro old mem
  have := after old (mem_psns_of_skipped mem)
  simp only [decide_eq_true_eq]
  omega

theorem lost_first (none_ : delivered writer events = []) : lost writer (events ++ [deliver writer psn]) = 0 := by
  have delivers : delivered writer (events ++ [deliver writer psn]) = [psn] := by
    rw [delivered_snoc, none_]
    simp [deliveredPsn]
  unfold lost first newest
  rw [delivers]
  simp

theorem InOrder.increasing (ordered : InOrder events) (writer : W) : (psns writer events).Pairwise (· < ·) := by
  by_cases known : writer ∈ writers events
  · exact ordered.2 writer known
  · have nothing : psns writer events = [] := by
      unfold psns
      rw [List.map_eq_nil_iff, List.filter_eq_nil_iff]
      intro event mem same
      apply known
      exact List.mem_toFinset.mpr (List.mem_map.mpr ⟨event, mem, of_decide_eq_true same⟩)
    rw [nothing]
    exact List.Pairwise.nil

theorem InOrder.positive (ordered : InOrder events) (mem : psn ∈ psns writer events) : 0 < psn := by
  obtain ⟨event, within, rfl⟩ := List.mem_map.mp mem
  exact ordered.1 event (List.mem_of_mem_filter within)

theorem skipped_nodup (ordered : InOrder events) : (skipped writer events).Nodup :=
  ((ordered.increasing writer).imp Nat.ne_of_lt).sublist (skipped_sublist writer events)

theorem le_newest (ordered : InOrder events) (mem : psn ∈ delivered writer events) : psn ≤ newest writer events := by
  have some_ : delivered writer events ≠ [] := List.ne_nil_of_mem mem
  have increasing := (ordered.increasing writer).sublist (delivered_sublist writer events)
  unfold newest
  rw [List.getLast?_eq_some_getLast some_, Option.getD_some]
  rw [← List.dropLast_append_getLast some_] at mem increasing
  rw [List.mem_append, List.mem_singleton] at mem
  rcases mem with before | last
  · exact ((List.pairwise_append.mp increasing).2.2 psn before _ (List.mem_singleton.mpr rfl)).le
  · exact last.le

theorem first_le_newest (ordered : InOrder events) (some_ : delivered writer events ≠ []) :
    first writer events ≤ newest writer events := by
  apply le_newest ordered
  unfold first
  rw [List.head?_eq_some_head some_, Option.getD_some]
  exact List.head_mem some_

/-- What a delivery after the first one adds: the gap, less what was skipped in it. -/
theorem lost_deliver (ordered : InOrder events) (some_ : delivered writer events ≠ [])
    (after : ∀ old ∈ psns writer events, old < psn) :
    pending writer events ≤ psn - newest writer events - 1 ∧
      lost writer (events ++ [deliver writer psn]) + pending writer events =
        lost writer events + (psn - newest writer events - 1) := by
  have delivers : delivered writer (events ++ [deliver writer psn]) = delivered writer events ++ [psn] := by
    rw [delivered_snoc]
    simp [deliveredPsn]
  have skips : skipped writer (events ++ [deliver writer psn]) = skipped writer events := by
    rw [skipped_snoc]
    simp [skippedPsn]
  have last : newest writer (events ++ [deliver writer psn]) = psn := (pending_deliver after).2
  have start : first writer (events ++ [deliver writer psn]) = first writer events := by
    unfold first
    rw [delivers, List.head?_append_of_ne_nil _ some_]
  have newestMem := newest_mem some_
  have before : newest writer events < psn := after _ (mem_psns_of_delivered newestMem)
  have early := first_le_newest ordered some_
  have passed : ((skipped writer events).filter fun old => newest writer events < old).toFinset ⊆
      Finset.Ioo (newest writer events) psn := by
    intro old mem
    rw [List.mem_toFinset, List.mem_filter, decide_eq_true_eq] at mem
    exact Finset.mem_Ioo.mpr ⟨mem.2, after old (mem_psns_of_skipped mem.1)⟩
  have counted : ((skipped writer events).filter fun old => newest writer events < old).toFinset.card =
      pending writer events := List.toFinset_card_of_nodup ((skipped_nodup ordered).filter _)
  -- the numbers up to the new one are those up to the newest, and the gap less what was skipped in it
  have split : ((Finset.Ioo (first writer events) psn).filter fun q =>
      q ∉ delivered writer events ++ [psn] ∧ q ∉ skipped writer events) =
      ((Finset.Ioo (first writer events) (newest writer events)).filter fun q =>
        q ∉ delivered writer events ∧ q ∉ skipped writer events) ∪
      (Finset.Ioo (newest writer events) psn \
        ((skipped writer events).filter fun old => newest writer events < old).toFinset) := by
    ext q
    simp only [Finset.mem_filter, Finset.mem_Ioo, Finset.mem_union, Finset.mem_sdiff, List.mem_toFinset, List.mem_filter,
      decide_eq_true_eq, List.mem_append, List.mem_singleton, not_or, not_and]
    constructor
    · rintro ⟨⟨low, high⟩, ⟨undelivered, -⟩, unskipped⟩
      rcases lt_trichotomy q (newest writer events) with old | same | new
      · exact .inl ⟨⟨low, old⟩, undelivered, unskipped⟩
      · exact absurd (same ▸ newestMem) undelivered
      · exact .inr ⟨⟨new, high⟩, fun skipped => absurd skipped unskipped⟩
    · rintro (⟨⟨low, high⟩, undelivered, unskipped⟩ | ⟨⟨low, high⟩, unskipped⟩)
      · exact ⟨⟨low, by omega⟩, ⟨undelivered, by omega⟩, unskipped⟩
      · refine ⟨⟨by omega, high⟩, ⟨fun mem => ?_, by omega⟩, fun mem => unskipped mem low⟩
        have := le_newest ordered mem
        omega
  have apart : Disjoint ((Finset.Ioo (first writer events) (newest writer events)).filter fun q =>
        q ∉ delivered writer events ∧ q ∉ skipped writer events)
      (Finset.Ioo (newest writer events) psn \
        ((skipped writer events).filter fun old => newest writer events < old).toFinset) := by
    rw [Finset.disjoint_left]
    intro q old new
    rw [Finset.mem_filter, Finset.mem_Ioo] at old
    rw [Finset.mem_sdiff, Finset.mem_Ioo] at new
    omega
  have gap := Finset.card_sdiff_add_card_eq_card passed
  rw [counted, Nat.card_Ioo] at gap
  refine ⟨by omega, ?_⟩
  unfold lost
  rw [start, last, delivers, skips, split, Finset.card_union_of_disjoint apart]
  omega

/-- All the samples skipped. -/
def skippedTotal (events : List (LostEvent W)) : Nat := ∑ writer ∈ writers events, (skipped writer events).length

theorem pending_le (writer : W) (events : List (LostEvent W)) : pending writer events ≤ (skipped writer events).length :=
  List.length_filter_le _ _

/-- Of a writer never heard of, nothing was delivered and nothing skipped. -/
theorem of_unknown (unknown : writer ∉ writers events) :
    delivered writer events = [] ∧ skipped writer events = [] ∧ lost writer events = 0 ∧ pending writer events = 0 := by
  have nothing : psns writer events = [] := by
    unfold psns
    rw [List.map_eq_nil_iff, List.filter_eq_nil_iff]
    intro event mem same
    exact unknown (List.mem_toFinset.mpr (List.mem_map.mpr ⟨event, mem, of_decide_eq_true same⟩))
  have delivers : delivered writer events = [] := List.sublist_nil.mp (nothing ▸ delivered_sublist writer events)
  have skips : skipped writer events = [] := List.sublist_nil.mp (nothing ▸ skipped_sublist writer events)
  refine ⟨delivers, skips, ?_, ?_⟩
  · unfold lost first newest
    rw [delivers]
    rfl
  · unfold pending
    rw [skips]
    rfl

theorem mem_deliverers : writer ∈ deliverers events ↔ delivered writer events ≠ [] := by
  unfold deliverers
  rw [Finset.mem_filter]
  constructor
  · exact And.right
  · intro some_
    refine ⟨?_, some_⟩
    by_contra unknown
    exact some_ (of_unknown unknown).1

theorem deliverers_deliver : deliverers (events ++ [deliver writer psn]) = insert writer (deliverers events) := by
  ext w
  rw [Finset.mem_insert, mem_deliverers, mem_deliverers]
  by_cases same : w = writer
  · rw [same, delivered_snoc]
    simp [deliveredPsn]
  · rw [(other_snoc (Ne.symm same)).1]
    simp [same]

/-- A sum over the writers, of what an event changes for its own writer alone. -/
theorem sum_snoc {figure : W → List (LostEvent W) → Nat} (unknown : ∀ writer, writer ∉ writers events → figure writer events = 0)
    (others : ∀ writer, event.writer ≠ writer → figure writer (events ++ [event]) = figure writer events) :
    ∑ writer ∈ writers (events ++ [event]), figure writer (events ++ [event]) + figure event.writer events =
      ∑ writer ∈ writers events, figure writer events + figure event.writer (events ++ [event]) := by
  rw [writers_snoc]
  have rest : ∑ writer ∈ (writers events).erase event.writer, figure writer (events ++ [event]) =
      ∑ writer ∈ (writers events).erase event.writer, figure writer events :=
    Finset.sum_congr rfl fun writer mem => others writer (Finset.ne_of_mem_erase mem).symm
  have new : ∑ writer ∈ insert event.writer (writers events), figure writer (events ++ [event]) =
      figure event.writer (events ++ [event]) + ∑ writer ∈ (writers events).erase event.writer, figure writer (events ++ [event]) := by
    rw [← Finset.insert_erase (Finset.mem_insert_self event.writer (writers events)),
      Finset.sum_insert (Finset.notMem_erase _ _), Finset.erase_insert_eq_erase]
  have old : ∑ writer ∈ writers events, figure writer events =
      figure event.writer events + ∑ writer ∈ (writers events).erase event.writer, figure writer events := by
    by_cases known : event.writer ∈ writers events
    · rw [← Finset.add_sum_erase _ _ known]
    · rw [unknown _ known, Finset.erase_eq_of_notMem known, Nat.zero_add]
  omega

end History

/-! ## The two counts -/

/-- `rmw_tickle_writer_psn_t`. -/
structure WriterPsn (W : Type*) where
  writer : W
  lastPsn : Nat
  lastSeen : Nat

/-- What the counting reads and writes of a subscription and of its `struct tt_Subscriber`. A proxy is its `superseded_pending`. -/
structure Losses (W : Type*) where
  lostWriters : Nat → WriterPsn W
  lostLastWriter : Nat
  lostClock : Nat
  /-- An `int`. -/
  totalCount : BitVec 32
  proxies : W → Option (BitVec 32)
  tracked : Nat
  supersededPending : BitVec 32
  deliveringSuperseded : BitVec 32

/-- `tt_MAX_PEER_COUNT` entries, and the proxies that `capacity.peers` allows. -/
structure LossLimits where
  entries : Nat
  peers : Nat
  some_ : 0 < entries

/-- `RMW_TICKLE_LATE_ARRIVAL_WINDOW`. -/
def lateArrivalWindow : Nat := 64

namespace Losses

variable [DecidableEq W] (limits : LossLimits)

/-- A subscription just created, its memory zeroed. -/
def create (zero : W) : Losses W := ⟨fun _ => ⟨zero, 0, 0⟩, 0, 0, 0, fun _ => none, 0, 0, 0⟩

/-! ### Core -/

/-- `find_or_create_writer_proxy()`. -/
def trackWriter (s : Losses W) (writer : W) : Losses W :=
  if (s.proxies writer).isSome ∨ limits.peers ≤ s.tracked then s
  else { s with proxies := fun w => if w = writer then some 0 else s.proxies w, tracked := s.tracked + 1 }

/-- `visit_superseded()`, of one sample. -/
def visitSuperseded (s : Losses W) (writer : W) : Losses W :=
  let met := s.trackWriter limits writer
  match met.proxies writer with
  | none => met
  | some pending =>
    { met with
      proxies := fun w => if w = writer then some (pending + 1) else met.proxies w
      supersededPending := met.supersededPending + 1 }

/-- The end of `record_delivery_order()`. -/
def recordDeliveryOrder (s : Losses W) (writer : W) : Losses W :=
  match s.proxies writer with
  | none => { s with deliveringSuperseded := 0 }
  | some pending =>
    if s.supersededPending ≠ 0 ∧ pending ≠ 0 then
      { s with
        deliveringSuperseded := pending
        supersededPending := s.supersededPending - (if pending < s.supersededPending then pending else s.supersededPending)
        proxies := fun w => if w = writer then some 0 else s.proxies w }
    else { s with deliveringSuperseded := 0 }

/-! ### rmw -/

/-- The loop of `writer_entry()`, from entry `i` on: the entry, and whether it is the writer's already. -/
def seekEntry (entries : Nat → WriterPsn W) (writer : W) : (left i victim : Nat) → Nat × Bool
  | 0, _, victim => (victim, false)
  | left + 1, i, victim =>
    if (entries i).lastPsn ≠ 0 ∧ (entries i).writer = writer then (i, true)
    else
      let better := ((entries i).lastPsn = 0 ∧ (entries victim).lastPsn ≠ 0) ∨
        ((entries i).lastPsn ≠ 0 ∧ (entries victim).lastPsn ≠ 0 ∧ (entries i).lastSeen < (entries victim).lastSeen)
      seekEntry entries writer left (i + 1) (if better then i else victim)

def setEntry (s : Losses W) (slot : Nat) (entry : WriterPsn W) : Losses W :=
  { s with lostWriters := fun i => if i = slot then entry else s.lostWriters i }

/-- `writer_entry()`. -/
def writerEntry (s : Losses W) (writer : W) : Losses W :=
  let found := seekEntry s.lostWriters writer limits.entries 0 0
  let claimed := if found.2 then s else s.setEntry found.1 ⟨writer, 0, (s.lostWriters found.1).lastSeen⟩
  { claimed with lostLastWriter := found.1 }

/-- The entry that `messages_lost_before()` goes by, which is the last one used from then on. -/
def entryFor (s : Losses W) (writer : W) : Losses W :=
  if (s.lostWriters s.lostLastWriter).lastPsn = 0 ∨ (s.lostWriters s.lostLastWriter).writer ≠ writer then
    s.writerEntry limits writer
  else s

/-- `messages_lost_before()`. -/
def messagesLostBefore (s : Losses W) (writer : W) (psn : Nat) : Losses W × Nat :=
  let found := s.entryFor limits writer
  let clock := found.lostClock + 1
  let entry := found.lostWriters found.lostLastWriter
  let seen := { found.setEntry found.lostLastWriter ⟨entry.writer, entry.lastPsn, clock⟩ with lostClock := clock }
  let moved := { found.setEntry found.lostLastWriter ⟨entry.writer, psn, clock⟩ with lostClock := clock }
  if entry.lastPsn = 0 ∨ (psn ≤ entry.lastPsn ∧ lateArrivalWindow ≤ entry.lastPsn - psn) then (moved, 0)
  else if psn ≤ entry.lastPsn then (seen, 0)
  else
    let gap := psn - entry.lastPsn - 1
    let superseded := found.deliveringSuperseded.toNat
    (moved, if superseded < gap then gap - superseded else 0)

/-- `count_messages_lost()`. -/
def countMessagesLost (s : Losses W) (writer : W) (psn : Nat) : Losses W :=
  let counted := s.messagesLostBefore limits writer psn
  { counted.1 with totalCount := counted.1.totalCount + BitVec.ofNat 32 (min counted.2 (2 ^ 31 - 1)) }

def step (s : Losses W) : LostEvent W → Losses W
  | deliver writer psn => ((s.trackWriter limits writer).recordDeliveryOrder writer).countMessagesLost limits writer psn
  | skip writer _ => s.visitSuperseded limits writer

/-! ## In step -/

open History

/-- The proxies have what was skipped of each writer since its newest message. -/
structure Core (events : List (LostEvent W)) (s : Losses W) : Prop where
  tracked : s.tracked = (writers events).card
  known : ∀ writer, (s.proxies writer).isSome ↔ writer ∈ writers events
  pending : ∀ writer n, s.proxies writer = some n → n.toNat = History.pending writer events
  sum : s.supersededPending.toNat = ∑ writer ∈ writers events, History.pending writer events

/-- The entries have the newest number of each writer, one entry for each. -/
structure Entries (limits : LossLimits) (events : List (LostEvent W)) (s : Losses W) : Prop where
  cached : s.lostLastWriter < limits.entries
  there : ∀ writer, delivered writer events ≠ [] →
    ∃ i < limits.entries, (s.lostWriters i).lastPsn ≠ 0 ∧ (s.lostWriters i).writer = writer
  used : ∀ i < limits.entries, (s.lostWriters i).lastPsn ≠ 0 →
    delivered (s.lostWriters i).writer events ≠ [] ∧ (s.lostWriters i).lastPsn = newest (s.lostWriters i).writer events
  once : ∀ i < limits.entries, ∀ j < limits.entries, (s.lostWriters i).lastPsn ≠ 0 → (s.lostWriters j).lastPsn ≠ 0 →
    (s.lostWriters i).writer = (s.lostWriters j).writer → i = j

variable {limits} {events : List (LostEvent W)} {event : LostEvent W} {s : Losses W} {writer : W} {psn : Nat}

/-! ### Core -/

theorem trackWriter_fields (s : Losses W) (writer : W) :
    (s.trackWriter limits writer).supersededPending = s.supersededPending ∧
      (s.trackWriter limits writer).lostWriters = s.lostWriters ∧
      (s.trackWriter limits writer).lostLastWriter = s.lostLastWriter ∧
      (s.trackWriter limits writer).totalCount = s.totalCount := by
  unfold trackWriter
  split
  · exact ⟨rfl, rfl, rfl, rfl⟩
  · exact ⟨rfl, rfl, rfl, rfl⟩

/-- A writer met: it has a proxy, of what was skipped of it so far. -/
theorem Core.track (core : Core events s) (room : (insert writer (writers events)).card ≤ limits.peers) :
    (s.trackWriter limits writer).tracked = (insert writer (writers events)).card ∧
      (∀ w, ((s.trackWriter limits writer).proxies w).isSome ↔ w ∈ insert writer (writers events)) ∧
      ∀ w n, (s.trackWriter limits writer).proxies w = some n → n.toNat = History.pending w events := by
  unfold trackWriter
  by_cases known : writer ∈ writers events
  · have there := (core.known writer).mpr known
    rw [if_pos (.inl there), Finset.insert_eq_of_mem known]
    exact ⟨core.tracked, core.known, core.pending⟩
  · have new : ¬ (s.proxies writer).isSome := fun there => known ((core.known writer).mp there)
    have fits : ¬ limits.peers ≤ s.tracked := by
      rw [Finset.card_insert_of_notMem known] at room
      rw [core.tracked]
      omega
    rw [if_neg (not_or.mpr ⟨new, fits⟩)]
    refine ⟨?_, ?_, ?_⟩
    · rw [Finset.card_insert_of_notMem known, ← core.tracked]
    · intro w
      rw [Finset.mem_insert]
      by_cases same : w = writer
      · simp [same]
      · simp only [same, if_false, false_or]
        exact core.known w
    · intro w n there
      by_cases same : w = writer
      · simp only [same, if_true, Option.some.injEq] at there
        rw [same, (of_unknown known).2.2.2, ← there]
        rfl
      · simp only [same, if_false] at there
        exact core.pending w n there

/-- A pending count is no more than the sum of all. -/
theorem Core.pending_le_sum (core : Core events s) (writer : W) : History.pending writer events ≤ s.supersededPending.toNat := by
  rw [core.sum]
  by_cases known : writer ∈ writers events
  · exact Finset.single_le_sum (f := fun w => History.pending w events) (fun _ _ => Nat.zero_le _) known
  · rw [(of_unknown known).2.2.2]
    exact Nat.zero_le _

theorem sum_pending_snoc :
    ∑ w ∈ writers (events ++ [event]), History.pending w (events ++ [event]) + History.pending event.writer events =
      ∑ w ∈ writers events, History.pending w events + History.pending event.writer (events ++ [event]) :=
  sum_snoc (fun _ unknown => (of_unknown unknown).2.2.2) (fun _ differ => (lost_other differ).2.1)

theorem sum_pending_le (events : List (LostEvent W)) : ∑ w ∈ writers events, History.pending w events ≤ skippedTotal events :=
  Finset.sum_le_sum fun w _ => pending_le w events

theorem Core.skips (core : Core events s) (ordered : InOrder (events ++ [skip writer psn]))
    (room : (writers (events ++ [skip writer psn])).card ≤ limits.peers)
    (few : skippedTotal (events ++ [skip writer psn]) < 2 ^ 32) :
    Core (events ++ [skip writer psn]) (s.visitSuperseded limits writer) := by
  obtain ⟨-, positive, after⟩ := ordered.snoc
  have same : writers (events ++ [skip writer psn]) = insert writer (writers events) := writers_snoc
  have more : History.pending writer (events ++ [skip writer psn]) = History.pending writer events + 1 :=
    (skip_snoc positive after).2.1
  have sums := @sum_pending_snoc W _ events (skip writer psn)
  change _ + History.pending writer events = _ + History.pending writer _ at sums
  have bound := sum_pending_le (events ++ [skip writer psn])
  rw [same] at room
  obtain ⟨tracked, known, pending⟩ := core.track room
  obtain ⟨pendingSum, -⟩ := @trackWriter_fields W _ limits s writer
  have isSome := (known writer).mpr (Finset.mem_insert_self _ _)
  obtain ⟨n, there⟩ := Option.isSome_iff_exists.mp isSome
  have count := pending writer n there
  have small := core.pending_le_sum writer
  have before := core.sum
  unfold visitSuperseded
  simp only [there]
  refine ⟨?_, ?_, ?_, ?_⟩
  · rw [same]
    exact tracked
  · intro w
    rw [same]
    by_cases here : w = writer
    · simp [here]
    · simp only [here, if_false]
      exact known w
  · intro w m at_
    by_cases here : w = writer
    · subst here
      simp only [if_true, Option.some.injEq] at at_
      rw [← at_, more, ← count, BitVec.toNat_add]
      exact Nat.mod_eq_of_lt (by change n.toNat + 1 < 2 ^ 32; omega)
    · simp only [here, if_false] at at_
      rw [(lost_other (Ne.symm here)).2.1]
      exact pending w m at_
  · rw [pendingSum, BitVec.toNat_add, before]
    have one : (1 : BitVec 32).toNat = 1 := rfl
    rw [one, Nat.mod_eq_of_lt (by omega)]
    omega

/-- A delivery takes over what was skipped of its writer. -/
theorem Core.delivers (core : Core events s) (ordered : InOrder (events ++ [deliver writer psn]))
    (room : (writers (events ++ [deliver writer psn])).card ≤ limits.peers) :
    Core (events ++ [deliver writer psn]) ((s.trackWriter limits writer).recordDeliveryOrder writer) ∧
      ((s.trackWriter limits writer).recordDeliveryOrder writer).deliveringSuperseded.toNat = History.pending writer events := by
  obtain ⟨-, -, after⟩ := ordered.snoc
  have same : writers (events ++ [deliver writer psn]) = insert writer (writers events) := writers_snoc
  have none_ : History.pending writer (events ++ [deliver writer psn]) = 0 := (pending_deliver after).1
  have sums := @sum_pending_snoc W _ events (deliver writer psn)
  change _ + History.pending writer events = _ + History.pending writer _ at sums
  rw [none_, Nat.add_zero] at sums
  rw [same] at room
  obtain ⟨tracked, known, pending⟩ := core.track room
  obtain ⟨pendingSum, -⟩ := @trackWriter_fields W _ limits s writer
  have isSome := (known writer).mpr (Finset.mem_insert_self _ _)
  obtain ⟨n, there⟩ := Option.isSome_iff_exists.mp isSome
  have count := pending writer n there
  have small := core.pending_le_sum writer
  have before := core.sum
  have others : ∀ w m, w ≠ writer → (s.trackWriter limits writer).proxies w = some m →
      m.toNat = History.pending w (events ++ [deliver writer psn]) := by
    intro w m differ at_
    rw [(lost_other (Ne.symm differ)).2.1]
    exact pending w m at_
  unfold recordDeliveryOrder
  simp only [there]
  by_cases some_ : (s.trackWriter limits writer).supersededPending ≠ 0 ∧ n ≠ 0
  · rw [if_pos some_]
    refine ⟨⟨?_, ?_, ?_, ?_⟩, count⟩
    · rw [same]
      exact tracked
    · intro w
      rw [same]
      by_cases here : w = writer
      · simp [here]
      · simp only [here, if_false]
        exact known w
    · intro w m at_
      by_cases here : w = writer
      · subst here
        simp only [if_true, Option.some.injEq] at at_
        rw [← at_, none_]
        rfl
      · simp only [here, if_false] at at_
        exact others w m here at_
    · rw [pendingSum]
      have least : (if n < s.supersededPending then n else s.supersededPending) = n := by
        split
        · rfl
        · next notLess =>
          rw [BitVec.lt_def] at notLess
          apply BitVec.eq_of_toNat_eq
          omega
      rw [least, BitVec.toNat_sub_of_le (by rw [BitVec.le_def]; omega)]
      omega
  · rw [if_neg some_]
    have zero : History.pending writer events = 0 := by
      rw [not_and_or, not_not, not_not] at some_
      rcases some_ with nothing | nothing
      · rw [pendingSum] at nothing
        rw [nothing] at small
        exact Nat.le_zero.mp small
      · rw [← count, nothing]
        rfl
    refine ⟨⟨?_, ?_, ?_, ?_⟩, zero.symm⟩
    · rw [same]
      exact tracked
    · rw [same]
      exact known
    · intro w m at_
      by_cases here : w = writer
      · subst here
        rw [there, Option.some.injEq] at at_
        rw [← at_, count, zero, none_]
      · exact others w m here at_
    · rw [pendingSum]
      omega

/-! ### rmw -/

theorem seekEntry_known {entries : Nat → WriterPsn W} {left i slot : Nat} (victim : Nat) (low : i ≤ slot) (high : slot < i + left)
    (used : (entries slot).lastPsn ≠ 0) (its : (entries slot).writer = writer)
    (once : ∀ j < i + left, (entries j).lastPsn ≠ 0 → (entries j).writer = writer → j = slot) :
    seekEntry entries writer left i victim = (slot, true) := by
  induction left generalizing i victim with
  | zero => omega
  | succ left ih =>
    unfold seekEntry
    by_cases here : (entries i).lastPsn ≠ 0 ∧ (entries i).writer = writer
    · rw [if_pos here, once i (by omega) here.1 here.2]
    · rw [if_neg here]
      have differ : i ≠ slot := by
        rintro rfl
        exact here ⟨used, its⟩
      exact ih _ (by omega) (by omega) fun j less => once j (by omega)

/-- A writer without an entry gets a free one where there is one. -/
theorem seekEntry_new {entries : Nat → WriterPsn W} {left i victim : Nat}
    (none_ : ∀ j, i ≤ j → j < i + left → (entries j).lastPsn ≠ 0 → (entries j).writer ≠ writer)
    (free : (entries victim).lastPsn = 0 ∨ ∃ j, i ≤ j ∧ j < i + left ∧ (entries j).lastPsn = 0) :
    (seekEntry entries writer left i victim).2 = false ∧
      ((seekEntry entries writer left i victim).1 = victim ∨ (seekEntry entries writer left i victim).1 < i + left) ∧
      (entries (seekEntry entries writer left i victim).1).lastPsn = 0 := by
  induction left generalizing i victim with
  | zero =>
    rcases free with free | ⟨j, low, high, -⟩
    · exact ⟨rfl, .inl rfl, free⟩
    · omega
  | succ left ih =>
    unfold seekEntry
    have notHere : ¬ ((entries i).lastPsn ≠ 0 ∧ (entries i).writer = writer) :=
      fun here => none_ i (le_refl i) (by omega) here.1 here.2
    rw [if_neg notHere]
    dsimp only
    generalize chosen : (if ((entries i).lastPsn = 0 ∧ (entries victim).lastPsn ≠ 0) ∨
      ((entries i).lastPsn ≠ 0 ∧ (entries victim).lastPsn ≠ 0 ∧ (entries i).lastSeen < (entries victim).lastSeen)
      then i else victim) = best
    have among : best = victim ∨ best = i := by
      rw [← chosen]
      split
      · exact .inr rfl
      · exact .inl rfl
    have free' : (entries best).lastPsn = 0 ∨ ∃ j, i + 1 ≤ j ∧ j < i + 1 + left ∧ (entries j).lastPsn = 0 := by
      rcases free with free | ⟨j, low, high, free⟩
      · -- a free victim is never given up
        rw [if_neg (by simp [free])] at chosen
        exact .inl (chosen ▸ free)
      · rcases Nat.eq_or_lt_of_le low with same | later
        · subst same
          by_cases taken : (entries victim).lastPsn = 0
          · rw [if_neg (by simp [taken])] at chosen
            exact .inl (chosen ▸ taken)
          · rw [if_pos (.inl ⟨free, taken⟩)] at chosen
            exact .inl (chosen ▸ free)
        · exact .inr ⟨j, later, by omega, free⟩
    obtain ⟨new, place, empty⟩ := ih (fun j low high => none_ j (by omega) (by omega)) free'
    refine ⟨new, ?_, empty⟩
    rcases place with same | inside
    · rw [same]
      rcases among with rfl | rfl
      · exact .inl rfl
      · exact .inr (by omega)
    · exact .inr (by omega)

/-- A writer that nothing was delivered from finds an entry free: the others are those of as many writers. -/
theorem Entries.free (entries : Entries limits events s) (new : writer ∉ deliverers events)
    (room : (insert writer (deliverers events)).card ≤ limits.entries) : ∃ i < limits.entries, (s.lostWriters i).lastPsn = 0 := by
  by_contra full
  push Not at full
  have into : ∀ i ∈ Finset.range limits.entries, (s.lostWriters i).writer ∈ deliverers events := by
    intro i mem
    have inside := Finset.mem_range.mp mem
    exact mem_deliverers.mpr (entries.used i inside (full i inside)).1
  have apart : Set.InjOn (fun i => (s.lostWriters i).writer) (Finset.range limits.entries : Finset Nat) := by
    intro i one j other same
    rw [Finset.mem_coe, Finset.mem_range] at one other
    exact entries.once i one j other (full i one) (full j other) same
  have many := Finset.card_le_card_of_injOn _ into apart
  rw [Finset.card_range] at many
  rw [Finset.card_insert_of_notMem new] at room
  omega

/-- What `messages_lost_before()` finds: the writer's own entry, or a free one made its. -/
structure Finds (limits : LossLimits) (events : List (LostEvent W)) (s : Losses W) (writer : W) (found : Losses W) : Prop where
  inside : found.lostLastWriter < limits.entries
  its : (found.lostWriters found.lostLastWriter).writer = writer
  last : (found.lostWriters found.lostLastWriter).lastPsn = newest writer events
  rest : ∀ i, i ≠ found.lostLastWriter → found.lostWriters i = s.lostWriters i
  only : ∀ i < limits.entries, (s.lostWriters i).lastPsn ≠ 0 → ((s.lostWriters i).writer = writer ↔ i = found.lostLastWriter)
  same : found.deliveringSuperseded = s.deliveringSuperseded ∧ found.totalCount = s.totalCount

theorem Entries.finds_known (entries : Entries limits events s) {slot : Nat} (inside : slot < limits.entries)
    (used : (s.lostWriters slot).lastPsn ≠ 0) (its : (s.lostWriters slot).writer = writer) :
    Finds limits events s writer { s with lostLastWriter := slot } where
  inside := inside
  its := its
  last := its ▸ (entries.used slot inside used).2
  rest := fun _ _ => rfl
  only := fun i within use => ⟨fun same => entries.once i within slot inside use used (same.trans its.symm), fun same => same ▸ its⟩
  same := ⟨rfl, rfl⟩

theorem Entries.finds (entries : Entries limits events s) (room : (insert writer (deliverers events)).card ≤ limits.entries) :
    Finds limits events s writer (s.entryFor limits writer) := by
  unfold entryFor
  by_cases cached : (s.lostWriters s.lostLastWriter).lastPsn = 0 ∨ (s.lostWriters s.lostLastWriter).writer ≠ writer
  · rw [if_pos cached]
    unfold writerEntry
    by_cases known : delivered writer events = []
    · -- the first from this writer: no entry is its, and one is free
      have none_ : ∀ i < limits.entries, (s.lostWriters i).lastPsn ≠ 0 → (s.lostWriters i).writer ≠ writer :=
        fun i inside used its => (entries.used i inside used).1 (its ▸ known)
      obtain ⟨j, within, free⟩ := entries.free (fun mem => mem_deliverers.mp mem known) room
      obtain ⟨new, place, empty⟩ := @seekEntry_new W _ writer s.lostWriters limits.entries 0 0
        (fun j _ high => none_ j (by omega)) (.inr ⟨j, Nat.zero_le j, by omega, free⟩)
      generalize seekEntry s.lostWriters writer limits.entries 0 0 = found at new place empty ⊢
      have some_ := limits.some_
      simp only [new, Bool.false_eq_true, if_false]
      refine ⟨?_, ?_, ?_, ?_, ?_, rfl, rfl⟩
      · change found.1 < limits.entries
        omega
      · simp [setEntry]
      · unfold newest
        rw [known]
        simp [setEntry]
      · intro i differ
        exact if_neg differ
      · intro i inside used
        refine ⟨fun its => absurd its (none_ i inside used), fun same => ?_⟩
        exact absurd (same ▸ empty) used
    · obtain ⟨slot, inside, used, its⟩ := entries.there writer known
      have found := @seekEntry_known W _ writer s.lostWriters limits.entries 0 slot 0 (Nat.zero_le _) (by omega) used its
        fun j less use same => entries.once j (by omega) slot inside use used (same.trans its.symm)
      rw [found]
      exact entries.finds_known inside used its
  · rw [if_neg cached]
    push Not at cached
    exact entries.finds_known entries.cached cached.1 cached.2

/-- The delivery's number in its writer's entry. -/
theorem Entries.moved (entries : Entries limits events s) {found s' : Losses W} (finds : Finds limits events s writer found)
    (positive : 0 < psn) (after : ∀ old ∈ psns writer events, old < psn) {seen : Nat}
    (table : s'.lostWriters = (found.setEntry found.lostLastWriter ⟨writer, psn, seen⟩).lostWriters)
    (cache : s'.lostLastWriter = found.lostLastWriter) : Entries limits (events ++ [deliver writer psn]) s' := by
  have here : s'.lostWriters found.lostLastWriter = ⟨writer, psn, seen⟩ := by
    rw [table]
    exact if_pos rfl
  have elsewhere : ∀ i, i ≠ found.lostLastWriter → s'.lostWriters i = s.lostWriters i := by
    intro i differ
    rw [table, ← finds.rest i differ]
    exact if_neg differ
  have delivers : delivered writer (events ++ [deliver writer psn]) ≠ [] := by
    rw [delivered_snoc]
    simp [deliveredPsn]
  have others : ∀ w, w ≠ writer → delivered w (events ++ [deliver writer psn]) = delivered w events :=
    fun w differ => (other_snoc (Ne.symm differ)).1
  refine ⟨cache ▸ finds.inside, ?_, ?_, ?_⟩
  · intro w some_
    by_cases same : w = writer
    · refine ⟨found.lostLastWriter, finds.inside, ?_, ?_⟩
      · rw [here]
        exact Nat.pos_iff_ne_zero.mp positive
      · rw [here, same]
    · rw [others w same] at some_
      obtain ⟨i, inside, used, its⟩ := entries.there w some_
      have differ : i ≠ found.lostLastWriter := fun at_ => same (its.symm.trans ((finds.only i inside used).mpr at_))
      exact ⟨i, inside, by rw [elsewhere i differ]; exact used, by rw [elsewhere i differ]; exact its⟩
  · intro i inside used
    by_cases at_ : i = found.lostLastWriter
    · rw [at_, here]
      exact ⟨delivers, (pending_deliver after).2.symm⟩
    · rw [elsewhere i at_] at used ⊢
      have differ : (s.lostWriters i).writer ≠ writer := fun its => at_ ((finds.only i inside used).mp its)
      rw [others _ differ, (lost_other (Ne.symm differ)).2.2]
      exact entries.used i inside used
  · intro i one j other use use' same
    by_cases at_ : i = found.lostLastWriter
    · by_cases at' : j = found.lostLastWriter
      · rw [at_, at']
      · rw [elsewhere j at'] at use' same
        rw [at_, here] at same
        exact absurd ((finds.only j other use').mp same.symm) at'
    · rw [elsewhere i at_] at use same
      by_cases at' : j = found.lostLastWriter
      · rw [at', here] at same
        exact absurd ((finds.only i one use).mp same) at_
      · rw [elsewhere j at'] at use' same
        exact entries.once i one j other use use' same

/-- What a delivery is found to have lost is what was lost since the one before. -/
theorem Entries.messagesLostBefore (entries : Entries limits events s) (ordered : InOrder (events ++ [deliver writer psn]))
    (room : (insert writer (deliverers events)).card ≤ limits.entries)
    (superseded : s.deliveringSuperseded.toNat = History.pending writer events) :
    Entries limits (events ++ [deliver writer psn]) (s.messagesLostBefore limits writer psn).1 ∧
      (s.messagesLostBefore limits writer psn).2 + lost writer events = lost writer (events ++ [deliver writer psn]) ∧
      (s.messagesLostBefore limits writer psn).1.totalCount = s.totalCount := by
  obtain ⟨before, positive, after⟩ := ordered.snoc
  change 0 < psn at positive
  change ∀ old ∈ psns writer events, old < psn at after
  have finds := entries.finds room
  have moves := fun (s' : Losses W) (seen : Nat) table cache => @Entries.moved W _ limits events s writer psn entries _ s' finds positive
    after seen table cache
  have own := finds.its
  have last := finds.last
  obtain ⟨handed, total⟩ := finds.same
  unfold Losses.messagesLostBefore
  dsimp only
  generalize s.entryFor limits writer = found at finds moves own last handed total ⊢
  rw [last, own, handed, superseded]
  by_cases known : delivered writer events = []
  · have zero : newest writer events = 0 := by
      unfold newest
      rw [known]
      rfl
    have nothing : lost writer events = 0 := by
      unfold lost first newest
      rw [known]
      rfl
    rw [if_pos (.inl zero)]
    refine ⟨moves _ _ rfl rfl, ?_, total⟩
    rw [nothing, lost_first known]
  · have mem := mem_psns_of_delivered (newest_mem known)
    have past : newest writer events < psn := after _ mem
    have some_ : newest writer events ≠ 0 := Nat.pos_iff_ne_zero.mp (before.positive mem)
    obtain ⟨within, counted⟩ := lost_deliver before known after
    rw [if_neg (by omega), if_neg (by omega)]
    refine ⟨moves _ _ rfl rfl, ?_, total⟩
    dsimp only
    split
    · omega
    · omega

/-! ### The total -/

theorem Core.same {s' : Losses W} (core : Core events s) (tracked : s'.tracked = s.tracked) (proxies : s'.proxies = s.proxies)
    (pending : s'.supersededPending = s.supersededPending) : Core events s' where
  tracked := tracked.trans core.tracked
  known := proxies ▸ core.known
  pending := proxies ▸ core.pending
  sum := pending ▸ core.sum

theorem Entries.same {s' : Losses W} (entries : Entries limits events s) (table : s'.lostWriters = s.lostWriters)
    (cache : s'.lostLastWriter = s.lostLastWriter) : Entries limits events s' where
  cached := cache ▸ entries.cached
  there := table ▸ entries.there
  used := table ▸ entries.used
  once := table ▸ entries.once

theorem recordDeliveryOrder_fields (s : Losses W) (writer : W) :
    (s.recordDeliveryOrder writer).lostWriters = s.lostWriters ∧
      (s.recordDeliveryOrder writer).lostLastWriter = s.lostLastWriter ∧
      (s.recordDeliveryOrder writer).totalCount = s.totalCount := by
  unfold recordDeliveryOrder
  split
  · exact ⟨rfl, rfl, rfl⟩
  · split
    · exact ⟨rfl, rfl, rfl⟩
    · exact ⟨rfl, rfl, rfl⟩

theorem visitSuperseded_fields (s : Losses W) (writer : W) :
    (s.visitSuperseded limits writer).lostWriters = s.lostWriters ∧
      (s.visitSuperseded limits writer).lostLastWriter = s.lostLastWriter ∧
      (s.visitSuperseded limits writer).totalCount = s.totalCount := by
  obtain ⟨-, fields⟩ := @trackWriter_fields W _ limits s writer
  unfold visitSuperseded
  dsimp only
  split
  · exact fields
  · exact fields

theorem countMessagesLost_fields (s : Losses W) (writer : W) (psn : Nat) :
    (s.countMessagesLost limits writer psn).tracked = s.tracked ∧
      (s.countMessagesLost limits writer psn).proxies = s.proxies ∧
      (s.countMessagesLost limits writer psn).supersededPending = s.supersededPending := by
  have found : (s.entryFor limits writer).tracked = s.tracked ∧ (s.entryFor limits writer).proxies = s.proxies ∧
      (s.entryFor limits writer).supersededPending = s.supersededPending := by
    unfold entryFor writerEntry
    split
    · dsimp only
      split
      · exact ⟨rfl, rfl, rfl⟩
      · exact ⟨rfl, rfl, rfl⟩
    · exact ⟨rfl, rfl, rfl⟩
  unfold countMessagesLost Losses.messagesLostBefore
  dsimp only
  split
  · exact found
  · split
    · exact found
    · exact found

/-- The two counts in step, after the events. -/
structure InStep (limits : LossLimits) (events : List (LostEvent W)) (s : Losses W) : Prop where
  core : Core events s
  entries : Entries limits events s
  total : s.totalCount.toNat = lostTotal events

theorem lostTotal_snoc :
    lostTotal (events ++ [event]) + lost event.writer events = lostTotal events + lost event.writer (events ++ [event]) :=
  sum_snoc (fun _ unknown => (of_unknown unknown).2.2.1) (fun _ differ => (lost_other differ).1)

theorem InStep.skips (inStep : InStep limits events s) (ordered : InOrder (events ++ [skip writer psn]))
    (room : (writers (events ++ [skip writer psn])).card ≤ limits.peers)
    (few : skippedTotal (events ++ [skip writer psn]) < 2 ^ 32) :
    InStep limits (events ++ [skip writer psn]) (s.step limits (skip writer psn)) := by
  obtain ⟨-, positive, after⟩ := ordered.snoc
  obtain ⟨table, cache, total⟩ := @visitSuperseded_fields W _ limits s writer
  have delivers : ∀ w, delivered w (events ++ [skip writer psn]) = delivered w events := by
    intro w
    rw [delivered_snoc]
    simp [deliveredPsn]
  have same : lost writer (events ++ [skip writer psn]) = lost writer events := (skip_snoc positive after).1
  refine ⟨inStep.core.skips ordered room few, ?_, ?_⟩
  · apply Entries.same (s := s) _ table cache
    refine ⟨inStep.entries.cached, ?_, ?_, inStep.entries.once⟩
    · intro w some_
      rw [delivers] at some_
      exact inStep.entries.there w some_
    · intro i inside used
      unfold newest
      rw [delivers]
      exact inStep.entries.used i inside used
  · have sums := @lostTotal_snoc W _ events (skip writer psn)
    change _ + lost writer events = _ + lost writer _ at sums
    change (s.visitSuperseded limits writer).totalCount.toNat = _
    rw [total, inStep.total]
    omega

theorem InStep.delivers (inStep : InStep limits events s) (ordered : InOrder (events ++ [deliver writer psn]))
    (room : (writers (events ++ [deliver writer psn])).card ≤ limits.peers)
    (fits : (deliverers (events ++ [deliver writer psn])).card ≤ limits.entries)
    (few : lostTotal (events ++ [deliver writer psn]) < 2 ^ 31) :
    InStep limits (events ++ [deliver writer psn]) (s.step limits (deliver writer psn)) := by
  obtain ⟨core, superseded⟩ := inStep.core.delivers ordered room
  obtain ⟨-, table, cache, total⟩ := @trackWriter_fields W _ limits s writer
  obtain ⟨table', cache', total'⟩ := recordDeliveryOrder_fields (s.trackWriter limits writer) writer
  have entries := inStep.entries.same (table'.trans table) (cache'.trans cache)
  have before := total'.trans total
  change InStep limits _ (((s.trackWriter limits writer).recordDeliveryOrder writer).countMessagesLost limits writer psn)
  generalize (s.trackWriter limits writer).recordDeliveryOrder writer = ready at core superseded entries before ⊢
  rw [deliverers_deliver] at fits
  obtain ⟨entries', counted, kept⟩ := entries.messagesLostBefore ordered fits superseded
  obtain ⟨tracked, proxies, pending⟩ := @countMessagesLost_fields W _ limits ready writer psn
  refine ⟨core.same tracked proxies pending, entries'.same rfl rfl, ?_⟩
  have sums := @lostTotal_snoc W _ events (deliver writer psn)
  change _ + lost writer events = _ + lost writer _ at sums
  have all := inStep.total
  unfold countMessagesLost
  dsimp only
  rw [kept, before, BitVec.toNat_add, BitVec.toNat_ofNat, all]
  omega

theorem lostTotal_le (ordered : InOrder (events ++ [event])) : lostTotal events ≤ lostTotal (events ++ [event]) := by
  have sums := @lostTotal_snoc W _ events event
  obtain ⟨before, positive, after⟩ := ordered.snoc
  have more : lost event.writer events ≤ lost event.writer (events ++ [event]) := by
    cases event with
    | deliver writer psn =>
      change lost writer events ≤ lost writer _
      by_cases known : delivered writer events = []
      · have nothing : lost writer events = 0 := by
          unfold lost first newest
          rw [known]
          rfl
        omega
      · have counted : History.pending writer events ≤ psn - newest writer events - 1 ∧ _ := lost_deliver before known after
        omega
    | skip writer psn => exact (skip_snoc positive after).1.ge
  omega

theorem skippedTotal_le : skippedTotal events ≤ skippedTotal (events ++ [event]) := by
  have sums := @sum_snoc W _ events event (fun writer events => (skipped writer events).length)
    (fun _ unknown => by rw [(of_unknown unknown).2.1]; rfl) (fun _ differ => by rw [(other_snoc differ).2])
  have more : (skipped event.writer events).length ≤ (skipped event.writer (events ++ [event])).length := by
    rw [skipped_snoc, List.length_append]
    omega
  unfold skippedTotal
  omega

theorem InStep.create (zero : W) : InStep limits [] (create zero) where
  core := ⟨rfl, fun _ => by simp [Losses.create, writers], fun _ _ there => by simp [Losses.create] at there, rfl⟩
  entries := ⟨limits.some_, fun _ some_ => absurd rfl some_, fun _ _ used => absurd rfl used, fun _ _ _ _ used => absurd rfl used⟩
  total := rfl

theorem inStep_after (zero : W) (events : List (LostEvent W)) (ordered : InOrder events)
    (room : (writers events).card ≤ limits.peers) (fits : (deliverers events).card ≤ limits.entries)
    (skips : skippedTotal events < 2 ^ 32) (few : lostTotal events < 2 ^ 31) :
    InStep limits events (Run.after (step limits) (create zero) events) := by
  induction events using List.reverseRecOn with
  | nil => exact InStep.create zero
  | append_singleton events event ih =>
    -- what is asked of the whole run is asked of the events before
    have fewer : writers events ⊆ writers (events ++ [event]) := by
      rw [writers_snoc]
      exact Finset.subset_insert _ _
    have fewerDeliver : deliverers events ⊆ deliverers (events ++ [event]) := by
      intro w mem
      rw [mem_deliverers, delivered_snoc] at *
      exact fun nothing => mem (List.append_eq_nil_iff.mp nothing).1
    have before := ih ordered.snoc.1 ((Finset.card_le_card fewer).trans room) ((Finset.card_le_card fewerDeliver).trans fits)
      (skippedTotal_le.trans_lt skips) ((lostTotal_le ordered).trans_lt few)
    have last : Run.after (step limits) (Losses.create zero) (events ++ [event]) =
        step limits (Run.after (step limits) (Losses.create zero) events) event := by
      unfold Run.after
      rw [List.foldl_append]
      rfl
    rw [last]
    cases event with
    | deliver writer psn => exact before.delivers ordered room fits few
    | skip writer psn => exact before.skips ordered room skips

/-- The total is what was lost, as long as each writer's samples are delivered and skipped in their order and each table and counter
has room for them. -/
theorem totalCount_eq_lostTotal (limits : LossLimits) (zero : W) (events : List (LostEvent W)) (ordered : InOrder events)
    (room : (writers events).card ≤ limits.peers) (fits : (deliverers events).card ≤ limits.entries)
    (skips : skippedTotal events < 2 ^ 32) (few : lostTotal events < 2 ^ 31) :
    (Run.after (step limits) (create zero) events).totalCount.toInt = lostTotal events := by
  have inStep := @inStep_after W _ limits zero events ordered room fits skips few
  have total := inStep.total
  rw [BitVec.toInt_eq_toNat_of_lt (by omega), total]

/-- Two writers' deliveries interleaved: 2 and 5 of one are lost, 2 of the other is skipped. -/
theorem totalCount_two_writers :
    (Run.after (step ⟨2, 2, by decide⟩) (create false)
      [deliver true 1, deliver false 1, deliver true 3, deliver true 4, skip false 2, deliver false 3,
        deliver true 6]).totalCount.toInt = 2 := by
  rw [totalCount_eq_lostTotal ⟨2, 2, by decide⟩ false _ (by decide) (by decide) (by decide) (by decide) (by decide)]
  decide

/-- 5 has come by another way when 3 and 4 are skipped; they are taken off the gap that shows 6 lost. -/
theorem stale_skip_miscounts :
    (Run.after (step ⟨2, 2, by decide⟩) (create ())
      [deliver () 2, deliver () 5, skip () 3, skip () 4, deliver () 7]).totalCount.toInt = 2 ∧
      lostTotal [deliver () 2, deliver () 5, skip () 3, skip () 4, deliver () 7] = 1 := by
  decide

end Losses

end Rmw

end Tickle
