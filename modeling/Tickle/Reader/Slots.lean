import Tickle.Reader.Reorder

/-! # The slots of the reorder ring

What the small steps of a Subscriber do to its table of writers and to its ring, and the count of the slots taken:
`Counted` holds of every Subscriber in every run.
-/

namespace Tickle

namespace Reader

open Bits Serial

/-- Where the writer's seq_no goes in a ring of `slots` slots. -/
def TrackedWriter.slot (slots : Nat) (proxy : TrackedWriter) (seqNo : SeqNo) : Nat :=
  (seqNo - proxy.reorderPivot + BitVec.ofNat 32 proxy.reorderBase).toNat % slots

namespace Subscriber

variable {sub sub' : Subscriber} {writer other : Writer} {proxy : TrackedWriter} {seqNo : SeqNo} {index : Nat}
  {ctx held : Datagram}

/-! ## The table of writers -/

theorem find_writer (h : sub.findWriterProxy writer = some proxy) : proxy.writer = writer := by
  have := List.find?_some h
  simpa using this

theorem find_replaced {table : List TrackedWriter} (h : table.find? (fun proxy => proxy.writer = writer) = some proxy)
    {new : TrackedWriter} (name : new.writer = writer) :
    (table.map fun old => if old.writer = new.writer then new else old).find? (fun proxy => proxy.writer = writer) =
      some new := by
  induction table with
  | nil => cases h
  | cons first rest ih =>
    rw [List.find?_cons] at h
    rw [List.map_cons, List.find?_cons]
    by_cases here : first.writer = writer
    · simp [name, here]
    · simp only [here, decide_false] at h
      simp only [name, here, if_false, decide_false]
      rw [name] at ih
      exact ih h

theorem find_setProxy (h : sub.findWriterProxy writer = some proxy) {new : TrackedWriter} (name : new.writer = writer) :
    (sub.setProxy new).findWriterProxy writer = some new := find_replaced h name

theorem find_replaced_ne {table : List TrackedWriter} {new : TrackedWriter} (name : new.writer = writer)
    (ne : other ≠ writer) :
    (table.map fun old => if old.writer = new.writer then new else old).find? (fun proxy => proxy.writer = other) =
      table.find? (fun proxy => proxy.writer = other) := by
  induction table with
  | nil => rfl
  | cons first rest ih =>
    rw [List.map_cons, List.find?_cons, List.find?_cons, ih]
    by_cases here : first.writer = writer
    · have apart : ¬ writer = other := fun same => ne same.symm
      simp [name, here, apart]
    · simp [name, here]

theorem find_setProxy_ne {new : TrackedWriter} (name : new.writer = writer) (ne : other ≠ writer) :
    (sub.setProxy new).findWriterProxy other = sub.findWriterProxy other := find_replaced_ne name ne

/-- One writer, one proxy. -/
theorem find_unique {proxy' : TrackedWriter} (found : sub.findWriterProxy writer = some proxy)
    (found' : sub.findWriterProxy other = some proxy') (own : writer = proxy'.writer) : proxy' = proxy := by
  rw [own, find_writer found', found'] at found
  exact Option.some.inj found

theorem setProxy_length (new : TrackedWriter) : (sub.setProxy new).writers.length = sub.writers.length := by
  simp [setProxy]

theorem reorderWriterSlot_eq (h : sub.findWriterProxy writer = some proxy) (seqNo : SeqNo) :
    sub.reorderWriterSlot writer seqNo = proxy.slot sub.reorderSlots seqNo := by
  unfold reorderWriterSlot
  rw [h]
  rfl

theorem reorderWriterSlot_lt (some_ : 0 < sub.reorderSlots) (writer : Writer) (seqNo : SeqNo) :
    sub.reorderWriterSlot writer seqNo < sub.reorderSlots := by
  unfold reorderWriterSlot
  split
  · exact Nat.mod_lt _ some_
  · exact Nat.mod_lt _ some_

theorem heldAt_eq (h : sub.findWriterProxy writer = some proxy) (seqNo : SeqNo) :
    sub.heldAt writer seqNo = some held ↔
      sub.ring (proxy.slot sub.reorderSlots seqNo) = some held ∧ held.seqNo = seqNo ∧ held.writer = writer := by
  unfold heldAt
  rw [reorderWriterSlot_eq h]
  cases here : sub.ring (proxy.slot sub.reorderSlots seqNo) with
  | none => simp
  | some d =>
    by_cases this : d.seqNo = seqNo ∧ d.writer = writer
    · simp only [this, and_self, if_true, Option.some.injEq]
      constructor
      · rintro rfl
        exact ⟨rfl, this⟩
      · exact And.left
    · simp only [this, if_false, Option.some.injEq, reduceCtorEq, false_iff]
      rintro ⟨rfl, same⟩
      exact this same

/-- What `heldAt` finds is in the ring, under its own name. -/
theorem heldAt_some (h : sub.heldAt writer seqNo = some held) :
    sub.ring (sub.reorderWriterSlot writer seqNo) = some held ∧ held.seqNo = seqNo ∧ held.writer = writer := by
  unfold heldAt at h
  split at h
  · cases h
  next d here =>
    split at h
    next this =>
      cases h
      exact ⟨here, this⟩
    · cases h

/-! ## Steps that leave the ring alone -/

/-- The ring, the scratch and the options are the same. -/
structure SameRing (sub sub' : Subscriber) : Prop where
  words : sub'.words = sub.words
  durable : sub'.durable = sub.durable
  slots : sub'.reorderSlots = sub.reorderSlots
  slotBytes : sub'.reorderSlotBytes = sub.reorderSlotBytes
  peers : sub'.peers = sub.peers
  longest : sub'.maxSampleLength = sub.maxSampleLength
  ring : sub'.ring = sub.ring
  held : sub'.reorderHeld = sub.reorderHeld
  fast : sub'.fast = sub.fast

theorem SameRing.refl (sub : Subscriber) : SameRing sub sub := ⟨rfl, rfl, rfl, rfl, rfl, rfl, rfl, rfl, rfl⟩

theorem SameRing.trans {sub'' : Subscriber} (first : SameRing sub sub') (second : SameRing sub' sub'') :
    SameRing sub sub'' :=
  ⟨second.words.trans first.words, second.durable.trans first.durable, second.slots.trans first.slots,
    second.slotBytes.trans first.slotBytes, second.peers.trans first.peers, second.longest.trans first.longest,
    second.ring.trans first.ring, second.held.trans first.held, second.fast.trans first.fast⟩

theorem SameRing.capacity (same : SameRing sub sub') : sub'.reorderPayloadCapacity = sub.reorderPayloadCapacity := by
  unfold reorderPayloadCapacity reorderStride
  rw [same.slots, same.slotBytes]

theorem sameRing_setProxy (sub : Subscriber) (new : TrackedWriter) : SameRing sub (sub.setProxy new) :=
  ⟨rfl, rfl, rfl, rfl, rfl, rfl, rfl, rfl, rfl⟩

theorem sameRing_putCursor (sub : Subscriber) (writer : Writer) (seqNo : SeqNo) :
    SameRing sub (sub.putCursor writer seqNo) := by
  unfold putCursor
  split
  · exact SameRing.refl sub
  · exact sameRing_setProxy sub _

theorem sameRing_mapTrack (sub : Subscriber) (writer : Writer) (f : WriterProxy → WriterProxy) :
    SameRing sub (sub.mapTrack writer f) := by
  unfold mapTrack
  split
  · exact SameRing.refl sub
  · exact sameRing_setProxy sub _

theorem sameRing_reorderFollowPivot (sub : Subscriber) (writer : Writer) (seqNo : SeqNo) :
    SameRing sub (sub.reorderFollowPivot writer seqNo) := by
  unfold reorderFollowPivot
  split
  · exact SameRing.refl sub
  · exact sameRing_setProxy sub _

theorem sameRing_deliverInOrder (sub : Subscriber) (sample : Delivery) : SameRing sub (sub.deliverInOrder sample) := by
  unfold deliverInOrder
  split
  · exact SameRing.refl sub
  · split
    · exact ⟨rfl, rfl, rfl, rfl, rfl, rfl, rfl, rfl, rfl⟩
    · exact ⟨rfl, rfl, rfl, rfl, rfl, rfl, rfl, rfl, rfl⟩

theorem sameRing_unreceive (sub : Subscriber) (ctx : Datagram) : SameRing sub (sub.unreceive ctx) := by
  unfold unreceive
  have counted : SameRing sub { sub with reorderOverflow := sub.reorderOverflow + 1 } :=
    ⟨rfl, rfl, rfl, rfl, rfl, rfl, rfl, rfl, rfl⟩
  exact counted.trans (sameRing_mapTrack _ _ _)

theorem sameRing_firstContact (sub : Subscriber) (writer : Writer) (seqNo : SeqNo) :
    SameRing sub (sub.firstContact writer seqNo) := by
  unfold firstContact
  split
  · exact SameRing.refl sub
  · exact ⟨rfl, rfl, rfl, rfl, rfl, rfl, rfl, rfl, rfl⟩

theorem sameRing_updateReliableAck (sub : Subscriber) (writer : Writer) (seqNo : SeqNo) (span : Nat) :
    SameRing sub (sub.updateReliableAck writer seqNo span).1 := by
  unfold updateReliableAck
  simp only
  split
  · exact sameRing_firstContact sub writer seqNo
  · exact (sameRing_firstContact sub writer seqNo).trans (sameRing_setProxy _ _)

theorem sameRing_heardHeartbeat (sub : Subscriber) (writer : Writer) (firstAvailableSeqNo lastSeqNo : SeqNo) :
    SameRing sub (sub.heardHeartbeat writer firstAvailableSeqNo lastSeqNo) := by
  unfold heardHeartbeat
  split
  · exact sameRing_setProxy sub _
  · split
    · exact SameRing.refl sub
    · exact ⟨rfl, rfl, rfl, rfl, rfl, rfl, rfl, rfl, rfl⟩

/-! ## Steps that write one proxy -/

/-- One writer's proxy is `new`, and nothing else changed. -/
structure Sets (sub : Subscriber) (writer : Writer) (new : TrackedWriter) (sub' : Subscriber) : Prop where
  same : SameRing sub sub'
  found : sub'.findWriterProxy writer = some new
  others : ∀ other, other ≠ writer → sub'.findWriterProxy other = sub.findWriterProxy other
  table : sub'.writers.length = sub.writers.length

theorem sets_setProxy (found : sub.findWriterProxy writer = some proxy) {new : TrackedWriter} (name : new.writer = writer) :
    Sets sub writer new (sub.setProxy new) where
  same := sameRing_setProxy sub new
  found := find_setProxy found name
  others := fun _ ne => find_setProxy_ne name ne
  table := setProxy_length new

theorem sets_putCursor (found : sub.findWriterProxy writer = some proxy) (seqNo : SeqNo) :
    Sets sub writer { proxy with reorderCursor := seqNo } (sub.putCursor writer seqNo) := by
  have name := find_writer found
  unfold putCursor
  rw [found]
  exact sets_setProxy found name

theorem sets_mapTrack (found : sub.findWriterProxy writer = some proxy) (f : WriterProxy → WriterProxy) :
    Sets sub writer { proxy with track := f proxy.track } (sub.mapTrack writer f) := by
  have name := find_writer found
  unfold mapTrack
  rw [found]
  exact sets_setProxy found name

theorem pivotFollowed_writer (slots : Nat) (proxy : TrackedWriter) (seqNo : SeqNo) :
    (pivotFollowed slots proxy seqNo).writer = proxy.writer := by
  unfold pivotFollowed
  split
  · rfl
  · rfl

theorem sets_reorderFollowPivot (found : sub.findWriterProxy writer = some proxy) (seqNo : SeqNo) :
    Sets sub writer (pivotFollowed sub.reorderSlots proxy seqNo) (sub.reorderFollowPivot writer seqNo) := by
  unfold reorderFollowPivot
  rw [found]
  exact sets_setProxy found ((pivotFollowed_writer _ proxy seqNo).trans (find_writer found))

theorem sets_unreceive (found : sub.findWriterProxy ctx.writer = some proxy) :
    Sets sub ctx.writer { proxy with track := proxy.track.unreceive ctx.seqNo } (sub.unreceive ctx) := by
  have found' : { sub with reorderOverflow := sub.reorderOverflow + 1 }.findWriterProxy ctx.writer = some proxy := found
  have mapped := sets_mapTrack found' fun track => track.unreceive ctx.seqNo
  exact ⟨sameRing_unreceive sub ctx, mapped.found, mapped.others, mapped.table⟩

theorem Sets.trans {new new' : TrackedWriter} {sub'' : Subscriber} (one : Sets sub writer new sub')
    (two : Sets sub' writer new' sub'') : Sets sub writer new' sub'' where
  same := one.same.trans two.same
  found := two.found
  others := fun other ne => (two.others other ne).trans (one.others other ne)
  table := two.table.trans one.table

/-- The other writers keep their places. -/
theorem Sets.heldAt_other {new : TrackedWriter} (sets : Sets sub writer new sub') (ne : other ≠ writer) (seqNo : SeqNo) :
    sub'.heldAt other seqNo = sub.heldAt other seqNo := by
  unfold heldAt reorderWriterSlot
  rw [sets.others other ne, sets.same.ring, sets.same.slots]

/-! ## The slots taken are counted -/

/-- The indices of the slots taken. -/
def occupied (sub : Subscriber) : Finset Nat := (Finset.range sub.reorderSlots).filter fun i => (sub.ring i).isSome

/-- `reorder_held` counts the slots taken, and the scratch has a sample only while there are none. -/
structure Counted (sub : Subscriber) : Prop where
  some_ : 0 < sub.reorderSlots
  few : sub.reorderSlots < 2 ^ 16
  usable : sub.reorderPayloadCapacity ≠ 0
  within : ∀ i held, sub.ring i = some held → i < sub.reorderSlots
  held : sub.reorderHeld = sub.occupied.card
  alone : sub.fast.isSome → sub.reorderHeld = 0

theorem mem_occupied (h : Counted sub) : index ∈ sub.occupied ↔ ∃ held, sub.ring index = some held := by
  unfold occupied
  rw [Finset.mem_filter, Finset.mem_range, Option.isSome_iff_exists]
  constructor
  · exact And.right
  · rintro ⟨held, here⟩
    exact ⟨h.within _ _ here, held, here⟩

theorem SameRing.counted (same : SameRing sub sub') (h : Counted sub) : Counted sub' where
  some_ := by rw [same.slots]; exact h.some_
  few := by rw [same.slots]; exact h.few
  usable := by rw [same.capacity]; exact h.usable
  within := by rw [same.ring, same.slots]; exact h.within
  held := by
    unfold occupied
    rw [same.held, same.ring, same.slots]
    exact h.held
  alone := by rw [same.fast, same.held]; exact h.alone

theorem Counted.none_held (h : Counted sub) (none_ : sub.reorderHeld = 0) (i : Nat) : sub.ring i = none := by
  cases here : sub.ring i with
  | none => rfl
  | some held =>
    have member := (mem_occupied h).mpr ⟨held, here⟩
    rw [h.held, Finset.card_eq_zero] at none_
    rw [none_] at member
    exact absurd member (Finset.notMem_empty i)

theorem Counted.some_held (h : Counted sub) (here : sub.ring index = some held) : sub.reorderHeld ≠ 0 := by
  intro none_
  rw [h.none_held none_ index] at here
  cases here

theorem Counted.fast_none (h : Counted sub) (here : sub.ring index = some held) : sub.fast = none := by
  cases fast : sub.fast with
  | none => rfl
  | some sample => exact absurd (h.alone (by rw [fast]; rfl)) (h.some_held here)

/-- A free slot taken, with nothing in the scratch. -/
theorem Counted.occupy (h : Counted sub) (free : sub.ring index = none) (inside : index < sub.reorderSlots)
    (idle : sub.fast = none) (ctx : Datagram) : Counted (sub.occupy index ctx) where
  some_ := h.some_
  few := h.few
  usable := h.usable
  within := by
    intro i held here
    by_cases same : i = index
    · rw [same]
      exact inside
    · have here : Function.update sub.ring index (some ctx) i = some held := here
      rw [Function.update_of_ne same] at here
      exact h.within i held here
  held := by
    have grown : (sub.occupy index ctx).occupied = insert index sub.occupied := by
      ext i
      unfold Subscriber.occupied Subscriber.occupy
      rw [Finset.mem_insert, Finset.mem_filter, Finset.mem_filter, Finset.mem_range]
      by_cases same : i = index
      · simp [same, inside]
      · simp [same]
    have fresh : index ∉ sub.occupied := by
      rw [mem_occupied h, free]
      simp
    rw [grown, Finset.card_insert_of_notMem fresh, ← h.held]
    rfl
  alone := by
    intro busy
    have : sub.fast.isSome := busy
    rw [idle] at this
    cases this

/-- A slot taken given back. -/
theorem Counted.release (h : Counted sub) (here : sub.ring index = some held) : Counted (sub.reorderRelease index) where
  some_ := h.some_
  few := h.few
  usable := h.usable
  within := by
    intro i d there
    have there : Function.update sub.ring index none i = some d := there
    by_cases same : i = index
    · rw [same, Function.update_self] at there
      cases there
    · rw [Function.update_of_ne same] at there
      exact h.within i d there
  held := by
    have shrunk : (sub.reorderRelease index).occupied = sub.occupied.erase index := by
      ext i
      unfold Subscriber.occupied reorderRelease
      rw [Finset.mem_erase, Finset.mem_filter, Finset.mem_filter, Finset.mem_range]
      by_cases same : i = index
      · simp [same]
      · simp [same]
    rw [shrunk, Finset.card_erase_of_mem ((mem_occupied h).mpr ⟨held, here⟩), ← h.held]
    rfl
  alone := by
    intro busy
    have busy : sub.fast.isSome := busy
    exact absurd (h.alone busy) (h.some_held here)

end Subscriber

end Reader

end Tickle
