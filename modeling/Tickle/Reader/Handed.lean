import Tickle.Reader.Behind

/-! # How much is handed over

What a Subscriber may hand over at once is bounded by what its ring can hold. `load` counts what has been handed over and the slots that
what is here has taken or, as long as a sample is being put together in the scratch, may take: it grows by one at most with an arrival,
and by nothing with a HEARTBEAT or a writer that goes, whatever order things come in.
-/

namespace Tickle

namespace Reader

namespace Subscriber

open Serial

variable {sub sub' : Subscriber} {writer : Writer} {proxy : TrackedWriter} {seqNo ack : SeqNo} {index : Nat} {ctx held first : Datagram}

/-- The slots taken, or all of them while the scratch has a sample. -/
def reserved (sub : Subscriber) : Nat := if sub.fast.isSome then sub.reorderSlots else sub.reorderHeld

/-- What has been handed over, and the slots reserved. -/
def load (sub : Subscriber) : Nat := sub.delivered.length + sub.reserved

/-- The slots taken are counted, and no sample has more fragments than one may have. -/
structure Bounded (sub : Subscriber) : Prop where
  counted : sub.Counted
  short : ∀ i held, sub.ring i = some held → held.fragCount ≤ 64
  scratch : ∀ fast, sub.fast = some fast → fast.count ≤ 64

theorem Counted.held_le (h : Counted sub) : sub.reorderHeld ≤ sub.reorderSlots := by
  rw [h.held, occupied]
  calc _ ≤ (Finset.range sub.reorderSlots).card := Finset.card_filter_le _ _
    _ = sub.reorderSlots := Finset.card_range _

theorem Counted.reserved_le (h : Counted sub) : sub.reserved ≤ sub.reorderSlots := by
  unfold reserved
  split
  · exact Nat.le_refl _
  · exact h.held_le

theorem Counted.held_le_reserved (h : Counted sub) : sub.reorderHeld ≤ sub.reserved := by
  unfold reserved
  split
  · exact h.held_le
  · exact Nat.le_refl _

/-- At most `n` more is handed over than was here before. -/
structure Hands (n : Nat) (sub sub' : Subscriber) : Prop where
  slots : sub'.reorderSlots = sub.reorderSlots
  bounded : sub'.Bounded
  delivered : sub.delivered <+: sub'.delivered
  load : sub'.load ≤ sub.load + n

theorem Hands.refl (h : sub.Bounded) : Hands 0 sub sub := ⟨rfl, h, List.prefix_refl _, Nat.le_refl _⟩

theorem Hands.trans {sub'' : Subscriber} {n m : Nat} (one : Hands n sub sub') (two : Hands m sub' sub'') :
    Hands (n + m) sub sub'' := by
  refine ⟨two.slots.trans one.slots, two.bounded, one.delivered.trans two.delivered, ?_⟩
  have := one.load
  have := two.load
  omega

theorem Hands.more {n m : Nat} (hands : Hands n sub sub') (le : n ≤ m) : Hands m sub sub' :=
  ⟨hands.slots, hands.bounded, hands.delivered, hands.load.trans (Nat.add_le_add_left le _)⟩

theorem SameRing.bounded (same : SameRing sub sub') (h : sub.Bounded) : sub'.Bounded where
  counted := same.counted h.counted
  short := by
    rw [same.ring]
    exact h.short
  scratch := by
    rw [same.fast]
    exact h.scratch

theorem SameRing.reserved (same : SameRing sub sub') : sub'.reserved = sub.reserved := by
  unfold Subscriber.reserved
  rw [same.fast, same.slots, same.held]

/-- Nothing happens to the ring, and so much is handed over. -/
theorem SameRing.hands (same : SameRing sub sub') (h : sub.Bounded) {new : List Delivery}
    (delivered : sub'.delivered = sub.delivered ++ new) : Hands new.length sub sub' := by
  refine ⟨same.slots, same.bounded h, ⟨new, delivered.symm⟩, ?_⟩
  unfold load
  rw [same.reserved, delivered, List.length_append]
  omega

theorem SameRing.hands_nothing (same : SameRing sub sub') (h : sub.Bounded) (delivered : sub'.delivered = sub.delivered) :
    Hands 0 sub sub' :=
  same.hands h (delivered.trans (List.append_nil sub.delivered).symm)

/-! ## What is given back -/

/-- Slots given back, and nothing taken. -/
structure Frees (sub sub' : Subscriber) : Prop where
  slots : sub'.reorderSlots = sub.reorderSlots
  fast : sub'.fast = sub.fast
  ring : ∀ i held, sub'.ring i = some held → sub.ring i = some held
  counted : sub'.Counted

theorem Shed.frees (shed : Shed writer sub sub') (h : sub.Counted) : Frees sub sub' :=
  ⟨shed.slots, shed.fast, fun _ _ => shed.ring_of, shed.counted h⟩

theorem frees_release (h : sub.Counted) (here : sub.ring index = some held) : Frees sub (sub.reorderRelease index) := by
  refine ⟨rfl, rfl, ?_, h.release here⟩
  intro i other there
  change Function.update sub.ring index none i = some other at there
  by_cases same : i = index
  · rw [same, Function.update_self] at there
    cases there
  · rwa [Function.update_of_ne same] at there

theorem Frees.occupied (frees : Frees sub sub') : sub'.occupied ⊆ sub.occupied := by
  intro i mem
  unfold Subscriber.occupied at mem ⊢
  rw [Finset.mem_filter, Option.isSome_iff_exists] at mem ⊢
  obtain ⟨inside, held, here⟩ := mem
  rw [frees.slots] at inside
  exact ⟨inside, held, frees.ring i held here⟩

theorem Frees.bounded (frees : Frees sub sub') (h : sub.Bounded) : sub'.Bounded where
  counted := frees.counted
  short := fun i held here => h.short i held (frees.ring i held here)
  scratch := by
    rw [frees.fast]
    exact h.scratch

theorem Frees.held_le (frees : Frees sub sub') (h : sub.Counted) : sub'.reorderHeld ≤ sub.reorderHeld := by
  rw [frees.counted.held, h.held]
  exact Finset.card_le_card frees.occupied

/-- A slot that was taken is not. -/
theorem Frees.held_lt (frees : Frees sub sub') (h : sub.Counted) (was : sub.ring index = some held)
    (gone : sub'.ring index = none) : sub'.reorderHeld < sub.reorderHeld := by
  rw [frees.counted.held, h.held]
  apply Finset.card_lt_card
  refine ⟨frees.occupied, ?_⟩
  intro all
  have member := all ((mem_occupied h).mpr ⟨held, was⟩)
  obtain ⟨other, there⟩ := (mem_occupied frees.counted).mp member
  rw [gone] at there
  cases there

theorem Frees.reserved_le (frees : Frees sub sub') (h : sub.Counted) : sub'.reserved ≤ sub.reserved := by
  have le := frees.held_le h
  unfold reserved
  rw [frees.fast, frees.slots]
  split
  · exact Nat.le_refl _
  · exact le

theorem Frees.hands_nothing (frees : Frees sub sub') (h : sub.Bounded) (delivered : sub'.delivered = sub.delivered) :
    Hands 0 sub sub' := by
  refine ⟨frees.slots, frees.bounded h, by rw [delivered], ?_⟩
  unfold load
  have := frees.reserved_le h.counted
  rw [delivered]
  omega

/-- A slot given back pays for what it held. -/
theorem Frees.hands_one (frees : Frees sub sub') (h : sub.Bounded) (was : sub.ring index = some held)
    (gone : sub'.ring index = none) {new : List Delivery} (delivered : sub'.delivered = sub.delivered ++ new)
    (one : new.length ≤ 1) : Hands 0 sub sub' := by
  refine ⟨frees.slots, frees.bounded h, ⟨new, delivered.symm⟩, ?_⟩
  have lt := frees.held_lt h.counted was gone
  have idle := h.counted.fast_none was
  unfold load reserved
  rw [frees.fast, idle, delivered, List.length_append]
  simp only [Option.isSome_none, Bool.false_eq_true, if_false]
  omega

/-! ## What a drain hands over -/

theorem deliverInOrder_delivered (sub : Subscriber) (sample : Delivery) :
    ∃ new, (sub.deliverInOrder sample).delivered = sub.delivered ++ new ∧ new.length ≤ 1 := by
  unfold deliverInOrder
  split
  · exact ⟨[], (List.append_nil _).symm, Nat.zero_le _⟩
  · split
    · exact ⟨[], (List.append_nil _).symm, Nat.zero_le _⟩
    · exact ⟨[sample], rfl, Nat.le_refl _⟩

theorem hands_deliverInOrder (h : sub.Bounded) (sample : Delivery) : Hands 1 sub (sub.deliverInOrder sample) := by
  obtain ⟨new, delivered, one⟩ := deliverInOrder_delivered sub sample
  exact ((sameRing_deliverInOrder sub sample).hands h delivered).more one

theorem foldl_delivered {α : Type} {round : Subscriber → α → Subscriber}
    (same : ∀ sub place, (round sub place).delivered = sub.delivered) (places : List α) (sub : Subscriber) :
    (places.foldl round sub).delivered = sub.delivered := by
  induction places generalizing sub with
  | nil => rfl
  | cons place rest ih => rw [List.foldl_cons, ih, same]

theorem abandonAt_delivered (writer : Writer) (sub : Subscriber) (seqNo : SeqNo) :
    (abandonAt writer sub seqNo).delivered = sub.delivered := by
  unfold abandonAt
  split
  · rfl
  · rfl

theorem hands_abandon (h : sub.Bounded) (writer : Writer) (places : List SeqNo) :
    Hands 0 sub (places.foldl (abandonAt writer) sub) := by
  have delivered : (places.foldl (abandonAt writer) sub).delivered = sub.delivered := by
    apply foldl_delivered
    exact abandonAt_delivered writer
  exact ((shed_abandon writer places sub).1.frees h.counted).hands_nothing h delivered

/-- A sample handed over gives its slots back. -/
theorem hands_deliverFragments (h : sub.Bounded) (here : sub.heldAt writer seqNo = some first) (some_ : 0 < first.fragCount)
    (all : ∀ index < first.fragCount, ∃ held, sub.heldAt writer (plus seqNo index) = some held) :
    Hands 0 sub (sub.deliverFragments writer seqNo first) := by
  obtain ⟨was, name, _⟩ := heldAt_some here
  have few := h.short _ _ was
  obtain ⟨shed, gone⟩ := shed_deliverFragments h.counted here (by omega) all
  have delivered : ∃ new, (sub.deliverFragments writer seqNo first).delivered = sub.delivered ++ new ∧ new.length ≤ 1 := by
    have released : ((List.range first.fragCount).foldl
        (fun sub index => sub.reorderRelease (sub.reorderWriterSlot writer (plus seqNo index))) sub).delivered =
          sub.delivered := by
      apply foldl_delivered
      exact fun _ _ => rfl
    unfold deliverFragments
    rw [fragFastSpill_idle (h.counted.fast_none was)]
    dsimp only
    split
    · exact ⟨[], released.trans (List.append_nil _).symm, Nat.zero_le _⟩
    · rw [← released]
      exact deliverInOrder_delivered _ _
  obtain ⟨new, delivered, one⟩ := delivered
  apply (shed.frees h.counted).hands_one h was _ delivered one
  -- the slot of the first fragment is empty
  have empty := gone 0 some_
  rw [plus_zero] at empty
  cases left : (sub.deliverFragments writer seqNo first).ring (sub.reorderWriterSlot writer seqNo) with
  | none => rfl
  | some other =>
    have same := shed.ring_of left
    rw [was] at same
    cases same
    rw [← shed.slot] at left
    unfold heldAt at empty
    rw [left] at empty
    simp [name, (heldAt_some here).2.2] at empty

theorem hands_drainFragmentedSample (h : sub.Bounded) (here : sub.heldAt writer seqNo = some first) (some_ : 0 < first.fragCount)
    {dealt : Subscriber × Nat} (drains : sub.drainFragmentedSample writer seqNo ack first = some dealt) : Hands 0 sub dealt.1 := by
  unfold drainFragmentedSample at drains
  split at drains
  · rw [Option.some.injEq] at drains
    subst drains
    exact hands_abandon h writer [seqNo]
  · split at drains
    next missing =>
      rw [Option.some.injEq] at drains
      subst drains
      apply hands_deliverFragments h here some_
      intro index lt
      exact heldPart_isSome (List.find?_eq_none.mp missing index (List.mem_range.mpr lt))
    · split at drains
      · cases drains
      · rw [Option.some.injEq] at drains
        subst drains
        exact hands_abandon h writer _

/-- What the ring holds at a place is dealt with, or waits there. -/
theorem hands_drainRingAt (h : sub.Bounded) {dealt : Subscriber × Nat} (drains : sub.drainRingAt writer seqNo ack = some dealt) :
    Hands 0 sub dealt.1 := by
  unfold drainRingAt at drains
  split at drains
  · rw [Option.some.injEq] at drains
    subst drains
    exact Hands.refl h
  next held here =>
    split at drains
    next parts => exact hands_drainFragmentedSample h here (Nat.pos_of_ne_zero parts) drains
    · rw [Option.some.injEq] at drains
      subst drains
      obtain ⟨was, _⟩ := heldAt_some here
      have released := frees_release h.counted was
      have given := sameRing_deliverInOrder (sub.reorderRelease (sub.reorderWriterSlot writer seqNo)) held.sample
      obtain ⟨new, delivered, one⟩ :=
        deliverInOrder_delivered (sub.reorderRelease (sub.reorderWriterSlot writer seqNo)) held.sample
      have frees : Frees sub ((sub.reorderRelease (sub.reorderWriterSlot writer seqNo)).deliverInOrder held.sample) := by
        refine ⟨given.slots, given.fast, ?_, given.counted released.counted⟩
        rw [given.ring]
        exact released.ring
      apply frees.hands_one h was _ delivered one
      rw [given.ring]
      exact Function.update_self _ _ _

/-- What a walk does with the sample in hand: it is handed over, or it is in hand still. -/
def Walks (sub : Subscriber) (arriving : Option Datagram) (drained : Drained) : Prop :=
  ∃ n, Hands n sub drained.sub ∧ n + drained.arriving.toList.length = arriving.toList.length

theorem Walks.rest (h : sub.Bounded) (arriving : Option Datagram) (stop : SeqNo) : Walks sub arriving ⟨sub, arriving, stop⟩ :=
  ⟨0, Hands.refl h, Nat.zero_add _⟩

theorem Walks.round {arriving : Option Datagram} {drained : Drained} (hands : Hands 0 sub sub')
    (walks : Walks sub' arriving drained) : Walks sub arriving drained := by
  obtain ⟨n, rest, hand⟩ := walks
  exact ⟨0 + n, hands.trans rest, by rw [Nat.zero_add, hand]⟩

theorem walks_drainReorderWalk (rounds left : Nat) (seqNo : SeqNo) (arriving : Option Datagram) (h : sub.Bounded) :
    Walks sub arriving (drainReorderWalk writer ack rounds left seqNo arriving sub) := by
  induction rounds generalizing left seqNo arriving sub with
  | zero => exact Walks.rest h arriving ack
  | succ rounds ih =>
    have onward : ∀ dealt, sub.drainRingAt writer seqNo ack = some dealt → Walks sub arriving
        (drainReorderWalk writer ack rounds (left - dealt.2) (plus seqNo dealt.2) arriving dealt.1) := by
      intro dealt drain
      have hands := hands_drainRingAt h drain
      exact (ih (left - dealt.2) (plus seqNo dealt.2) arriving hands.bounded).round hands
    unfold drainReorderWalk
    split
    · exact Walks.rest h arriving ack
    · cases arriving with
      | none =>
        cases drain : sub.drainRingAt writer seqNo ack with
        | none => exact Walks.rest h none seqNo
        | some dealt => exact onward dealt drain
      | some ctx =>
        dsimp only
        split
        · have given := hands_deliverInOrder h ctx.sample
          obtain ⟨n, rest, hand⟩ := ih (left - 1) (seqNo + 1) none given.bounded
          refine ⟨1 + n, given.trans rest, ?_⟩
          rw [Nat.add_assoc, hand]
          rfl
        · cases drain : sub.drainRingAt writer seqNo ack with
          | none => exact Walks.rest h (some ctx) seqNo
          | some dealt => exact onward dealt drain

/-! ## What hands over nothing -/

theorem putCursor_delivered (sub : Subscriber) (writer : Writer) (seqNo : SeqNo) :
    (sub.putCursor writer seqNo).delivered = sub.delivered := by
  unfold putCursor
  split
  · rfl
  · rfl

theorem mapTrack_delivered (sub : Subscriber) (writer : Writer) (f : WriterProxy → WriterProxy) :
    (sub.mapTrack writer f).delivered = sub.delivered := by
  unfold mapTrack
  split
  · rfl
  · rfl

theorem reorderFollowPivot_delivered (sub : Subscriber) (writer : Writer) (seqNo : SeqNo) :
    (sub.reorderFollowPivot writer seqNo).delivered = sub.delivered := by
  unfold reorderFollowPivot
  split
  · rfl
  · rfl

theorem updateReliableAck_delivered (sub : Subscriber) (writer : Writer) (seqNo : SeqNo) (span : Nat) :
    (sub.updateReliableAck writer seqNo span).1.delivered = sub.delivered := by
  have met : (sub.firstContact writer seqNo).delivered = sub.delivered := by
    unfold firstContact
    split
    · rfl
    · rfl
  unfold updateReliableAck
  dsimp only
  split
  · exact met
  · exact met

theorem heardHeartbeat_delivered (sub : Subscriber) (writer : Writer) (firstAvailableSeqNo lastSeqNo : SeqNo) :
    (sub.heardHeartbeat writer firstAvailableSeqNo lastSeqNo).delivered = sub.delivered := by
  unfold heardHeartbeat
  split
  · rfl
  · split
    · rfl
    · rfl

theorem hands_setProxy (h : sub.Bounded) (new : TrackedWriter) : Hands 0 sub (sub.setProxy new) :=
  (sameRing_setProxy sub new).hands_nothing h rfl

theorem hands_putCursor (h : sub.Bounded) (writer : Writer) (seqNo : SeqNo) : Hands 0 sub (sub.putCursor writer seqNo) :=
  (sameRing_putCursor sub writer seqNo).hands_nothing h (putCursor_delivered sub writer seqNo)

theorem hands_mapTrack (h : sub.Bounded) (writer : Writer) (f : WriterProxy → WriterProxy) : Hands 0 sub (sub.mapTrack writer f) :=
  (sameRing_mapTrack sub writer f).hands_nothing h (mapTrack_delivered sub writer f)

theorem hands_reorderFollowPivot (h : sub.Bounded) (writer : Writer) (seqNo : SeqNo) :
    Hands 0 sub (sub.reorderFollowPivot writer seqNo) :=
  (sameRing_reorderFollowPivot sub writer seqNo).hands_nothing h (reorderFollowPivot_delivered sub writer seqNo)

theorem hands_updateReliableAck (h : sub.Bounded) (writer : Writer) (seqNo : SeqNo) (span : Nat) :
    Hands 0 sub (sub.updateReliableAck writer seqNo span).1 :=
  (sameRing_updateReliableAck sub writer seqNo span).hands_nothing h (updateReliableAck_delivered sub writer seqNo span)

theorem hands_heardHeartbeat (h : sub.Bounded) (writer : Writer) (firstAvailableSeqNo lastSeqNo : SeqNo) :
    Hands 0 sub (sub.heardHeartbeat writer firstAvailableSeqNo lastSeqNo) :=
  (sameRing_heardHeartbeat sub writer firstAvailableSeqNo lastSeqNo).hands_nothing h
    (heardHeartbeat_delivered sub writer firstAvailableSeqNo lastSeqNo)

theorem hands_unreceive (h : sub.Bounded) (ctx : Datagram) : Hands 0 sub (sub.unreceive ctx) := by
  apply (sameRing_unreceive sub ctx).hands_nothing h
  exact mapTrack_delivered { sub with reorderOverflow := sub.reorderOverflow + 1 } ctx.writer _

/-! ## The scratch -/

/-- The scratch put back into the ring, which had its slots reserved for it. -/
theorem hands_fragFastSpill (h : sub.Bounded) : Hands 0 sub sub.fragFastSpill ∧ sub.fragFastSpill.fast = none := by
  cases busy : sub.fast with
  | none =>
    rw [fragFastSpill_idle busy]
    exact ⟨Hands.refl h, busy⟩
  | some fast =>
    have empty := h.counted.none_held (h.counted.alone (by rw [busy]; rfl))
    have bare : { sub with fast := none }.Counted :=
      ⟨h.counted.some_, h.counted.few, h.counted.usable, h.counted.within, h.counted.held, by simp⟩
    have followed := sameRing_reorderFollowPivot { sub with fast := none } fast.writer fast.seqNo
    have same : ({ sub with fast := none }.reorderFollowPivot fast.writer fast.seqNo).delivered = sub.delivered :=
      reorderFollowPivot_delivered { sub with fast := none } fast.writer fast.seqNo
    unfold fragFastSpill
    rw [busy]
    dsimp only
    generalize { sub with fast := none }.reorderFollowPivot fast.writer fast.seqNo = start at followed same ⊢
    have spilled := spilled_range fast (followed.counted bare) followed.fast
      (fun i => by rw [followed.ring]; exact empty i) fast.placed
    have delivered : ((List.range fast.placed).foldl (spillOne fast) start).delivered = start.delivered := by
      apply foldl_delivered
      intro mid index
      unfold spillOne
      dsimp only
      split
      · rfl
      · rfl
    generalize (List.range fast.placed).foldl (spillOne fast) start = full at spilled delivered ⊢
    have slots : full.reorderSlots = sub.reorderSlots := spilled.slots.trans followed.slots
    have counted := spilled.counted
    have bounded : full.Bounded := by
      refine ⟨counted, ?_, by rw [spilled.idle]; simp⟩
      intro i held here
      obtain ⟨j, _, part, _⟩ := spilled.ring i held here
      rw [part]
      exact h.scratch fast busy
    have hands : Hands 0 sub full := by
      refine ⟨slots, bounded, by rw [delivered, same], ?_⟩
      unfold load
      have le := counted.reserved_le
      have all : sub.reserved = sub.reorderSlots := by
        unfold reserved
        rw [busy]
        rfl
      rw [delivered, same, all]
      omega
    refine ⟨hands.trans (hands_putCursor bounded fast.writer fast.seqNo), ?_⟩
    rw [(sameRing_putCursor full fast.writer fast.seqNo).fast]
    exact spilled.idle

theorem hands_fragFastSpillIfOvertaken (h : sub.Bounded) (writer : Writer) :
    Hands 0 sub (sub.fragFastSpillIfOvertaken writer) := by
  unfold fragFastSpillIfOvertaken
  split
  · split
    · exact (hands_fragFastSpill h).1
    · exact Hands.refl h
  · exact Hands.refl h

/-! ## Holding -/

/-- A free slot taken, with nothing in the scratch. -/
theorem hands_occupy (h : sub.Bounded) (idle : sub.fast = none) (free : sub.ring index = none) (inside : index < sub.reorderSlots)
    (few : ctx.fragCount ≤ 64) : Hands 1 sub (sub.occupy index ctx) := by
  have bounded : (sub.occupy index ctx).Bounded := by
    refine ⟨h.counted.occupy free inside idle ctx, ?_, h.scratch⟩
    intro i held here
    change Function.update sub.ring index (some ctx) i = some held at here
    by_cases same : i = index
    · rw [same, Function.update_self, Option.some.injEq] at here
      rw [← here]
      exact few
    · rw [Function.update_of_ne same] at here
      exact h.short i held here
  refine ⟨rfl, bounded, List.prefix_refl _, ?_⟩
  unfold load reserved
  have same : (sub.occupy index ctx).fast = none := idle
  rw [same, idle]
  exact Nat.le_refl _

theorem hands_holdForReorder (h : sub.Bounded) (ctx : Datagram) : Hands 1 sub (sub.holdForReorder ctx) := by
  obtain ⟨spills, idle⟩ := hands_fragFastSpill h
  unfold holdForReorder
  dsimp only
  generalize sub.fragFastSpill = spilled at spills idle ⊢
  split
  · have follows := hands_reorderFollowPivot spills.bounded ctx.writer ctx.seqNo
    have still : (spilled.reorderFollowPivot ctx.writer ctx.seqNo).fast = none :=
      (sameRing_reorderFollowPivot spilled ctx.writer ctx.seqNo).fast.trans idle
    generalize spilled.reorderFollowPivot ctx.writer ctx.seqNo = followed at follows still ⊢
    have reached := spills.trans follows
    split
    next held _ =>
      split
      · exact reached.more (by omega)
      · have noted := hands_mapTrack follows.bounded ctx.writer fun track => noteCollision track held ctx
        exact ((reached.trans noted).trans (hands_unreceive noted.bounded ctx)).more (by omega)
    next free =>
      have inside := reorderWriterSlot_lt follows.bounded.counted.some_ ctx.writer ctx.seqNo
      exact reached.trans (hands_occupy follows.bounded still free inside (Nat.zero_le _))
  · exact (spills.trans (hands_unreceive spills.bounded ctx)).more (by omega)

/-- A drain hands over what it empties, and the sample in hand. -/
theorem hands_drainReorderWith (h : sub.Bounded) (writer : Writer) (arriving : Option Datagram) :
    Hands arriving.toList.length sub (sub.drainReorderWith writer arriving) := by
  have spills := hands_fragFastSpillIfOvertaken h writer
  unfold drainReorderWith
  dsimp only
  generalize sub.fragFastSpillIfOvertaken writer = spilled at spills ⊢
  split
  · exact spills.more (Nat.zero_le _)
  next proxy found =>
    generalize proxy.track.ackSeqNo = ack
    have walks : Walks spilled arriving
        (if spilled.reorderHeld ≠ 0 ∧ spilled.reorderPayloadCapacity ≠ 0 then
          drainReorderWalk writer ack (min (steps proxy.reorderCursor ack) proxy.track.windowBits)
            (min (steps proxy.reorderCursor ack) proxy.track.windowBits) proxy.reorderCursor arriving spilled
        else ⟨spilled, arriving, ack⟩) := by
      split
      · exact walks_drainReorderWalk _ _ _ _ spills.bounded
      · exact Walks.rest spills.bounded arriving ack
    generalize (if spilled.reorderHeld ≠ 0 ∧ spilled.reorderPayloadCapacity ≠ 0 then
      drainReorderWalk writer ack (min (steps proxy.reorderCursor ack) proxy.track.windowBits)
        (min (steps proxy.reorderCursor ack) proxy.track.windowBits) proxy.reorderCursor arriving spilled
      else ⟨spilled, arriving, ack⟩) = drained at walks ⊢
    obtain ⟨n, hands, hand⟩ := walks
    have reached := spills.trans hands
    split
    next gone =>
      rw [gone] at hand
      have settled := reached.trans (hands_putCursor hands.bounded writer drained.stop)
      exact settled.more (by simp at hand; omega)
    next ctx left =>
      rw [left] at hand
      simp only [Option.toList_some, List.length_singleton] at hand
      split
      · have given := hands_deliverInOrder hands.bounded ctx.sample
        have settled := (reached.trans given).trans (hands_putCursor given.bounded writer drained.stop)
        exact settled.more (by omega)
      · have holds := hands_holdForReorder hands.bounded ctx
        have settled := (reached.trans holds).trans (hands_putCursor holds.bounded writer drained.stop)
        exact settled.more (by omega)

/-! ## What arrives -/

theorem hands_declined (h : sub.Bounded) (ctx : Datagram) (span : Nat) :
    Hands 0 sub (sub.deliverDataToSubscriber ctx span false) := by
  unfold deliverDataToSubscriber
  rw [if_pos rfl]
  exact hands_mapTrack h ctx.writer _

theorem hands_deliverDataToSubscriber (h : sub.Bounded) (ctx : Datagram) (span : Nat) :
    Hands 1 sub (sub.deliverDataToSubscriber ctx span true) := by
  have updates := hands_updateReliableAck h ctx.writer ctx.seqNo span
  unfold deliverDataToSubscriber
  rw [if_neg (by decide)]
  dsimp only
  split
  · exact updates.more (by omega)
  · split
    · have same : SameRing (sub.updateReliableAck ctx.writer ctx.seqNo span).1
          { (sub.updateReliableAck ctx.writer ctx.seqNo span).1 with
            delivered := (sub.updateReliableAck ctx.writer ctx.seqNo span).1.delivered ++ [ctx.sample] } :=
        ⟨rfl, rfl, rfl, rfl, rfl, rfl, rfl, rfl, rfl⟩
      exact (updates.trans (same.hands updates.bounded rfl)).more (by simp)
    · split
      · exact (updates.trans (hands_holdForReorder updates.bounded ctx)).more (by omega)
      · exact (updates.trans (hands_drainReorderWith updates.bounded ctx.writer (some ctx))).more (by simp)

/-- What a fragment may do: it is handed over with its sample, or it reserves slots and nothing is handed over. -/
structure Takes (sub sub' : Subscriber) : Prop where
  slots : sub'.reorderSlots = sub.reorderSlots
  bounded : sub'.Bounded
  delivered : sub.delivered <+: sub'.delivered
  load : sub'.load ≤ sub.load + 1 ∨ sub'.delivered = sub.delivered

theorem Hands.takes (hands : Hands 1 sub sub') : Takes sub sub' :=
  ⟨hands.slots, hands.bounded, hands.delivered, .inl hands.load⟩

theorem takes_fragFastTake {busy : Bool} (h : sub.Bounded) (few : ctx.fragCount ≤ 64)
    (takes : sub.fragFastTake proxy ctx busy = some sub') : Takes sub sub' := by
  unfold fragFastTake at takes
  split at takes
  · cases takes
  split at takes
  · cases takes
  next fast sample =>
  split at takes
  · cases takes
  obtain ⟨none_, own, count, _⟩ := fastSampleFor_spec h.counted sample
  have updates := hands_updateReliableAck h ctx.writer ctx.seqNo 1
  have same := sameRing_updateReliableAck sub ctx.writer ctx.seqNo 1
  have delivered := updateReliableAck_delivered sub ctx.writer ctx.seqNo 1
  dsimp only at takes
  generalize (sub.updateReliableAck ctx.writer ctx.seqNo 1).1 = updated at updates same delivered takes
  have counted := updates.bounded.counted
  have empty : updated.reorderHeld = 0 := same.held.trans none_
  split at takes
  · rw [Option.some.injEq] at takes
    subst takes
    refine ⟨same.slots, ⟨?_, updates.bounded.short, ?_⟩, ?_, .inr delivered⟩
    · exact ⟨counted.some_, counted.few, counted.usable, counted.within, counted.held, fun _ => empty⟩
    · intro taken there
      rw [Option.some.injEq] at there
      rw [← there]
      exact count.le.trans few
    · exact updates.delivered
  · have bare : Hands 0 updated { updated with fast := none } := by
      refine ⟨rfl, ⟨?_, updates.bounded.short, ?_⟩, List.prefix_refl _, ?_⟩
      · exact ⟨counted.some_, counted.few, counted.usable, counted.within, counted.held, fun busy => absurd busy (by simp)⟩
      · intro taken there
        cases there
      · unfold load reserved
        rw [empty]
        simp
    have given := hands_deliverInOrder bare.bounded
      ⟨ctx.writer, (fast.take ctx).seqNo, (fast.take ctx).timestamp, (fast.take ctx).bytes, (fast.take ctx).isNative,
        (fast.take ctx).viaDataPort⟩
    have reached := (updates.trans bare).trans given
    split at takes
    · rw [Option.some.injEq] at takes
      subst takes
      exact (reached.more (by omega)).takes
    next last _ =>
      rw [Option.some.injEq] at takes
      subst takes
      have kept := hands_setProxy given.bounded { last with reorderCursor := last.track.ackSeqNo }
      exact ((reached.trans kept).more (by omega)).takes

/-- A datagram in its slot, and the ring with it. -/
theorem hands_reorderStoreFragment (h : sub.Bounded) (few : ctx.fragCount ≤ 64) :
    ((sub.reorderStoreFragment ctx).2 = false ∧ Hands 0 sub (sub.reorderStoreFragment ctx).1) ∨
      (sub.reorderStoreFragment ctx).2 = true ∧ Hands 1 sub (sub.reorderStoreFragment ctx).1 ∧
        (sub.reorderStoreFragment ctx).1.ring ((sub.reorderStoreFragment ctx).1.reorderWriterSlot ctx.writer ctx.seqNo) =
          some ctx := by
  obtain ⟨spills, idle⟩ := hands_fragFastSpill h
  unfold reorderStoreFragment
  dsimp only
  generalize sub.fragFastSpill = spilled at spills idle ⊢
  split
  · exact .inl ⟨rfl, spills⟩
  · have follows := hands_reorderFollowPivot spills.bounded ctx.writer ctx.seqNo
    have still : (spilled.reorderFollowPivot ctx.writer ctx.seqNo).fast = none :=
      (sameRing_reorderFollowPivot spilled ctx.writer ctx.seqNo).fast.trans idle
    generalize spilled.reorderFollowPivot ctx.writer ctx.seqNo = followed at follows still ⊢
    have reached := spills.trans follows
    split
    · exact .inl ⟨rfl, reached⟩
    next taken =>
      have free : followed.ring (followed.reorderWriterSlot ctx.writer ctx.seqNo) = none := by simpa using taken
      have inside := reorderWriterSlot_lt follows.bounded.counted.some_ ctx.writer ctx.seqNo
      exact .inr ⟨rfl, reached.trans (hands_occupy follows.bounded still free inside few), Function.update_self _ _ _⟩

theorem hands_storeReliableFragment (h : sub.Bounded) (few : ctx.fragCount ≤ 64) : Hands 1 sub (sub.storeReliableFragment ctx) := by
  unfold storeReliableFragment
  dsimp only
  rcases hands_reorderStoreFragment h few with ⟨refused, hands⟩ | ⟨stored, hands, there⟩
  · rw [if_pos refused]
    have same : SameRing (sub.reorderStoreFragment ctx).1
        { (sub.reorderStoreFragment ctx).1 with reorderOverflow := (sub.reorderStoreFragment ctx).1.reorderOverflow + 1 } :=
      ⟨rfl, rfl, rfl, rfl, rfl, rfl, rfl, rfl, rfl⟩
    exact (hands.trans (same.hands_nothing hands.bounded rfl)).more (by omega)
  · rw [if_neg (by rw [stored]; decide)]
    generalize (sub.reorderStoreFragment ctx).1 = holding at hands there ⊢
    have updates := hands_updateReliableAck hands.bounded ctx.writer ctx.seqNo 1
    have same := sameRing_updateReliableAck holding ctx.writer ctx.seqNo 1
    rw [← same.ring] at there
    have reached := hands.trans updates
    split
    · -- not new after all: its slot is given back
      have frees := frees_release updates.bounded.counted there
      exact (reached.trans (frees.hands_nothing updates.bounded rfl)).more (by omega)
    · exact (reached.trans (hands_drainReorderWith updates.bounded ctx.writer none)).more (by simp)

theorem takes_deliverUserFragment (h : sub.Bounded) (ctx : Datagram) (isFirst busy : Bool) :
    Takes sub (sub.deliverUserFragment ctx isFirst busy) := by
  unfold deliverUserFragment
  dsimp only
  generalize (if isFirst then { ctx with fragIndex := 0 } else ctx) = ctx
  split
  · have same : SameRing sub { sub with fragDropped := sub.fragDropped + 1 } := ⟨rfl, rfl, rfl, rfl, rfl, rfl, rfl, rfl, rfl⟩
    exact ((same.hands_nothing h rfl).more (by omega)).takes
  next sane =>
    have few : ctx.fragCount ≤ 64 := by
      rw [not_or, not_or] at sane
      exact not_lt.mp sane.2.1
    split
    · exact ((Hands.refl h).more (by omega)).takes
    · unfold acceptReliableFragment
      split
      · exact (hands_storeReliableFragment h few).takes
      · dsimp only
        split
        · exact ((Hands.refl h).more (by omega)).takes
        · split
          next taken takes => exact takes_fragFastTake h few takes
          · exact (hands_storeReliableFragment h few).takes

theorem hands_informSubscriberOfHeartbeat (h : sub.Bounded) (writer : Writer) (firstAvailableSeqNo lastSeqNo : SeqNo)
    (isFinal : Bool) (skips : List AcknackSkip) :
    Hands 0 sub (sub.informSubscriberOfHeartbeat writer firstAvailableSeqNo lastSeqNo isFinal skips) := by
  have hears := hands_heardHeartbeat h writer firstAvailableSeqNo lastSeqNo
  have drains := hands_drainReorderWith hears.bounded writer none
  have notes := hands_mapTrack drains.bounded writer fun track => (track.noteAnnounced lastSeqNo isFinal skips).1
  exact ((hears.trans drains).trans notes).more (by simp)

theorem forgetWriter_delivered (sub : Subscriber) (writer : Writer) : (sub.forgetWriter writer).delivered = sub.delivered := by
  have drops : ∀ sub : Subscriber, (sub.dropped writer).delivered = sub.delivered := by
    intro sub
    unfold dropped
    split
    · rfl
    · split
      · rfl
      · rfl
  have releases : ∀ sub : Subscriber, (sub.releaseReorderSlotsForWriter writer).delivered = sub.delivered := by
    intro sub
    unfold releaseReorderSlotsForWriter
    change (if (sub.dropped writer).reorderPayloadCapacity = 0 then sub.dropped writer else _).delivered = sub.delivered
    split
    · exact drops sub
    · rw [foldl_delivered]
      · exact drops sub
      · intro mid index
        split
        · rfl
        · split
          · rfl
          · rfl
  unfold forgetWriter
  split
  · rfl
  · rw [releases]

theorem hands_forgetWriter (h : sub.Bounded) (writer : Writer) : Hands 0 sub (sub.forgetWriter writer) := by
  cases found : sub.findWriterProxy writer with
  | none =>
    unfold forgetWriter
    rw [found]
    exact Hands.refl h
  | some proxy =>
    have forgotten := forgotten_forgetWriter h.counted found
    have delivered : (sub.forgetWriter writer).delivered = sub.delivered := forgetWriter_delivered sub writer
    generalize sub.forgetWriter writer = left at forgotten delivered ⊢
    have sparser : ∀ i held, left.ring i = some held → sub.ring i = some held := fun i held here => ((forgotten.ring i held).mp here).1
    have fewer : left.occupied ⊆ sub.occupied := by
      intro i mem
      rw [mem_occupied forgotten.counted] at mem
      rw [mem_occupied h.counted]
      obtain ⟨held, here⟩ := mem
      exact ⟨held, sparser i held here⟩
    have bounded : left.Bounded :=
      ⟨forgotten.counted, fun i held here => h.short i held (sparser i held here),
        fun fast here => h.scratch fast ((forgotten.fast fast).mp here).1⟩
    refine ⟨forgotten.slots, bounded, by rw [delivered], ?_⟩
    have reserved : left.reserved ≤ sub.reserved := by
      cases busy : left.fast with
      | none =>
        calc left.reserved = left.reorderHeld := by unfold Subscriber.reserved; rw [busy]; rfl
          _ ≤ sub.reorderHeld := by rw [forgotten.counted.held, h.counted.held]; exact Finset.card_le_card fewer
          _ ≤ sub.reserved := h.counted.held_le_reserved
      | some fast =>
        have before := ((forgotten.fast fast).mp busy).1
        unfold Subscriber.reserved
        rw [busy, before, forgotten.slots]
        exact Nat.le_refl _
    unfold load
    rw [delivered]
    omega

end Subscriber

end Reader

end Tickle
