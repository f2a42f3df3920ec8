import Tickle.Reader.Handed

/-! # A KEEP_ALL queue

A KEEP_ALL subscription queues what core hands it until the application takes it. Core asks `subscriber_accept()` before it records a
whole DATA, and leaves it with its writer when the queue has reached its limit; past the limit the queue has room for what core holds by
then. The fragments of a sample core records without asking.
-/

namespace Tickle

namespace RmwQueue

open Bits Serial Reader

/-! ## The queue -/

/-- `tt_FRAG_REASSEMBLY_SLOTS`. -/
def fragReassemblySlots : Nat := 8

/-- `RMW_TICKLE_KEEP_ALL_HEADROOM`, of a build with so many `RMW_TICKLE_TRACKING_WORDS`. -/
def keepAllHeadroom (trackingWords : Nat) : Nat := trackingWords * 64 + fragReassemblySlots + 1

/-- What a RELIABLE KEEP_ALL subscription is created with: `queueLimit` is what `resolve_queue_capacity()` gives, and there are no
reorder slots, or no more than `RMW_TICKLE_REORDER_SLOTS`. -/
structure KeepAllOptions where
  trackingWords : Nat
  words : Nat
  durable : Bool
  reorderSlots : Nat
  reorderSlotBytes : Nat
  peers : Nat
  maxSampleLength : Nat
  queueLimit : Nat
  tracking : 0 < words ∧ words < 2 ^ 16
  usable : reorderSlots = 0 ∨ 0 < reorderSlots ∧ reorderSlots < 2 ^ 16 ∧ slotHeader + 8 ≤ reorderSlotBytes
  few : reorderSlots ≤ trackingWords * 64

/-- `rmw_tickle_subscriber_t` with its core Subscriber: `handing` is what core hands over in the arrival it is at and the callback has
not been given yet. -/
structure KeepAllQueue where
  sub : Subscriber
  queueLimit : Nat
  queueCapacity : Nat
  queue : List Delivery
  handing : List Delivery
  keepAllUnconsultedDrops : Nat

/-- What happens to a subscription: something arrives at core, core calls back with the next sample (`decodes`: a shell is got and the
message decoded into it), or the oldest message leaves the queue, taken or past its lifespan. -/
inductive QueueEvent where
  | arrives (event : Subscriber.Event)
  | callback (decodes : Bool)
  | dequeue

namespace KeepAllQueue

/-- The core Subscriber of a new subscription. -/
def subscriber (opts : KeepAllOptions) : Subscriber where
  words := opts.words
  durable := opts.durable
  reorderSlots := opts.reorderSlots
  reorderSlotBytes := opts.reorderSlotBytes
  peers := opts.peers
  maxSampleLength := opts.maxSampleLength
  ring := fun _ => none
  reorderHeld := 0
  writers := []
  fast := none
  delivered := []
  reorderAbandoned := 0
  reorderOverflow := 0
  outOfOrderDiscarded := 0
  fragDropped := 0

def create (opts : KeepAllOptions) : KeepAllQueue where
  sub := subscriber opts
  queueLimit := opts.queueLimit
  queueCapacity := opts.queueLimit + keepAllHeadroom opts.trackingWords
  queue := []
  handing := []
  keepAllUnconsultedDrops := 0

/-- `subscriber_accept`. -/
def subscriberAccept (s : KeepAllQueue) : Bool := s.queue.length < s.queueLimit

/-- What arrives, with the answer core gets when it asks. -/
def asked (s : KeepAllQueue) : Subscriber.Event → Subscriber.Event
  | .data ctx span _ => .data ctx span s.subscriberAccept
  | event => event

/-- Core takes what arrives. It is called back for every sample before it looks at the next datagram. -/
def arrive (s : KeepAllQueue) (event : Subscriber.Event) : KeepAllQueue :=
  if s.handing ≠ [] then s
  else
    let sub := s.sub.step (s.asked event)
    { s with sub, handing := sub.delivered.drop s.sub.delivered.length }

/-- `subscriber_callback`. -/
def subscriberCallback (s : KeepAllQueue) (decodes : Bool) : KeepAllQueue :=
  match s.handing with
  | [] => s
  | sample :: rest =>
    if decodes = false then { s with handing := rest }
    else if s.queue.length = s.queueCapacity then
      { s with handing := rest, keepAllUnconsultedDrops := s.keepAllUnconsultedDrops + 1 }
    else { s with handing := rest, queue := s.queue ++ [sample] }

/-- `dequeue_locked`, of one message. -/
def dequeue (s : KeepAllQueue) : KeepAllQueue := { s with queue := s.queue.tail }

def step (s : KeepAllQueue) : QueueEvent → KeepAllQueue
  | .arrives event => s.arrive event
  | .callback decodes => s.subscriberCallback decodes
  | .dequeue => s.dequeue

/-! ## Nothing is dropped -/

/-- Nothing about the writers' datagrams is recorded, held or handed over. -/
structure LeftWithWriter (sub sub' : Subscriber) : Prop where
  delivered : sub'.delivered = sub.delivered
  ring : sub'.ring = sub.ring
  recorded : ∀ writer, (sub'.findWriterProxy writer).map (fun proxy => (proxy.track.ackSeqNo, proxy.track.receivedBitmap)) =
    (sub.findWriterProxy writer).map fun proxy => (proxy.track.ackSeqNo, proxy.track.receivedBitmap)

/-- Nothing handed over found the queue full, and a sample that finds no room is left with its writer. -/
def KeepsAll (s : KeepAllQueue) : Prop :=
  s.keepAllUnconsultedDrops = 0 ∧
    ∀ ctx span accepted, s.subscriberAccept = false → LeftWithWriter s.sub (s.arrive (.data ctx span accepted)).sub

/-- No fragment is recorded while the queue has reached its limit, nor any by a Subscriber without reorder slots. A DATA there has a
payload. -/
def Consulted (s : KeepAllQueue) : QueueEvent → Prop
  | .arrives (.fragment _ _ _) => s.sub.reorderSlots ≠ 0 ∧ s.subscriberAccept = true
  | .arrives (.data ctx _ _) => s.sub.reorderSlots = 0 → ctx.payload ≠ []
  | _ => True

/-- A Subscriber without reorder slots: nothing is held, and nothing is in the scratch. -/
structure Bare (sub : Subscriber) : Prop where
  slots : sub.reorderSlots = 0
  held : sub.reorderHeld = 0
  idle : sub.fast = none

/-- What core has for the queue fits in it. -/
structure Fits (s : KeepAllQueue) : Prop where
  sub : s.sub.Bounded ∨ Bare s.sub
  room : s.queue.length + s.handing.length + s.sub.reserved ≤ s.queueLimit + s.sub.reorderSlots
  headroom : s.queueLimit + s.sub.reorderSlots < s.queueCapacity
  drops : s.keepAllUnconsultedDrops = 0

variable {s : KeepAllQueue} {sub sub' : Subscriber}

/-! ### Without reorder slots -/

theorem Bare.capacity (bare : Bare sub) : sub.reorderPayloadCapacity = 0 := by
  unfold Subscriber.reorderPayloadCapacity
  rw [if_pos (Or.inl bare.slots)]

theorem Bare.reserved (bare : Bare sub) : sub.reserved = 0 := by
  unfold Subscriber.reserved
  rw [bare.idle]
  exact bare.held

/-- Nothing but what is handed over changes for the ring. -/
structure Gives (n : Nat) (sub sub' : Subscriber) : Prop where
  same : Subscriber.SameRing sub sub'
  delivered : ∃ new, sub'.delivered = sub.delivered ++ new ∧ new.length ≤ n

theorem gives_nothing (same : Subscriber.SameRing sub sub') (delivered : sub'.delivered = sub.delivered) : Gives 0 sub sub' :=
  ⟨same, [], delivered.trans (List.append_nil _).symm, Nat.le_refl _⟩

theorem Gives.refl (sub : Subscriber) : Gives 0 sub sub := gives_nothing (Subscriber.SameRing.refl sub) rfl

theorem Gives.trans {sub'' : Subscriber} {n m : Nat} (one : Gives n sub sub') (two : Gives m sub' sub'') :
    Gives (n + m) sub sub'' := by
  obtain ⟨same, new, delivered, le⟩ := one
  obtain ⟨same', new', delivered', le'⟩ := two
  refine ⟨same.trans same', new ++ new', ?_, ?_⟩
  · rw [delivered', delivered, List.append_assoc]
  · rw [List.length_append]
    omega

theorem Gives.more {n m : Nat} (gives : Gives n sub sub') (le : n ≤ m) : Gives m sub sub' := by
  obtain ⟨same, new, delivered, short⟩ := gives
  exact ⟨same, new, delivered, short.trans le⟩

theorem Bare.gives {n : Nat} (bare : Bare sub) (gives : Gives n sub sub') : Bare sub' :=
  ⟨gives.same.slots.trans bare.slots, gives.same.held.trans bare.held, gives.same.fast.trans bare.idle⟩

theorem gives_putCursor (sub : Subscriber) (writer : Writer) (seqNo : SeqNo) : Gives 0 sub (sub.putCursor writer seqNo) :=
  gives_nothing (Subscriber.sameRing_putCursor sub writer seqNo) (Subscriber.putCursor_delivered sub writer seqNo)

theorem gives_mapTrack (sub : Subscriber) (writer : Writer) (f : WriterProxy → WriterProxy) : Gives 0 sub (sub.mapTrack writer f) :=
  gives_nothing (Subscriber.sameRing_mapTrack sub writer f) (Subscriber.mapTrack_delivered sub writer f)

/-- With nothing held, a drain hands over the sample in hand. -/
theorem gives_drainReorderWith (bare : Bare sub) (writer : Writer) (arriving : Option Reader.Datagram) :
    Gives arriving.toList.length sub (sub.drainReorderWith writer arriving) := by
  have still : sub.fragFastSpillIfOvertaken writer = sub := by
    unfold Subscriber.fragFastSpillIfOvertaken
    rw [bare.idle]
  unfold Subscriber.drainReorderWith
  dsimp only
  rw [still]
  split
  · exact (Gives.refl sub).more (Nat.zero_le _)
  · rw [if_neg (by simp [bare.held])]
    cases arriving with
    | none => exact gives_putCursor sub writer _
    | some ctx =>
      dsimp only
      rw [if_pos rfl]
      have given : Gives 1 sub (sub.deliverInOrder ctx.sample) :=
        ⟨Subscriber.sameRing_deliverInOrder sub ctx.sample, Subscriber.deliverInOrder_delivered sub ctx.sample⟩
      exact given.trans (gives_putCursor _ writer _)

theorem gives_holdForReorder (bare : Bare sub) {ctx : Reader.Datagram} (some_ : ctx.payload ≠ []) :
    Gives 0 sub (sub.holdForReorder ctx) := by
  unfold Subscriber.holdForReorder
  dsimp only
  rw [Subscriber.fragFastSpill_idle bare.idle, if_neg]
  · apply gives_nothing (Subscriber.sameRing_unreceive sub ctx)
    exact Subscriber.mapTrack_delivered { sub with reorderOverflow := sub.reorderOverflow + 1 } ctx.writer _
  · rw [bare.capacity, Nat.le_zero, List.length_eq_zero_iff]
    exact some_

theorem gives_data (bare : Bare sub) {ctx : Reader.Datagram} (some_ : ctx.payload ≠ []) (span : Nat) (accepted : Bool) :
    Gives accepted.toNat sub (sub.deliverDataToSubscriber ctx span accepted) := by
  have updates : Gives 0 sub (sub.updateReliableAck ctx.writer ctx.seqNo span).1 :=
    gives_nothing (Subscriber.sameRing_updateReliableAck sub ctx.writer ctx.seqNo span)
      (Subscriber.updateReliableAck_delivered sub ctx.writer ctx.seqNo span)
  have bare' := bare.gives updates
  unfold Subscriber.deliverDataToSubscriber
  cases accepted with
  | false =>
    rw [if_pos rfl]
    exact gives_mapTrack sub ctx.writer _
  | true =>
    rw [if_neg (by decide)]
    dsimp only
    split
    · exact updates.more (by omega)
    · split
      · exact ⟨updates.same.trans ⟨rfl, rfl, rfl, rfl, rfl, rfl, rfl, rfl, rfl⟩, [ctx.sample],
          by rw [Subscriber.updateReliableAck_delivered], Nat.le_refl _⟩
      · split
        · exact (updates.trans (gives_holdForReorder bare' some_)).more (by omega)
        · exact (updates.trans (gives_drainReorderWith bare' ctx.writer (some ctx))).more (by simp)

theorem gives_heartbeat (bare : Bare sub) (writer : Writer) (firstAvailableSeqNo lastSeqNo : SeqNo) (isFinal : Bool)
    (skips : List AcknackSkip) :
    Gives 0 sub (sub.informSubscriberOfHeartbeat writer firstAvailableSeqNo lastSeqNo isFinal skips) := by
  have hears : Gives 0 sub (sub.heardHeartbeat writer firstAvailableSeqNo lastSeqNo) :=
    gives_nothing (Subscriber.sameRing_heardHeartbeat sub writer firstAvailableSeqNo lastSeqNo)
      (Subscriber.heardHeartbeat_delivered sub writer firstAvailableSeqNo lastSeqNo)
  have drains := gives_drainReorderWith (bare.gives hears) writer none
  exact (hears.trans drains).trans (gives_mapTrack _ writer _)

theorem gives_forgetWriter (bare : Bare sub) (writer : Writer) : Gives 0 sub (sub.forgetWriter writer) := by
  apply gives_nothing _ (Subscriber.forgetWriter_delivered sub writer)
  unfold Subscriber.forgetWriter
  split
  · exact Subscriber.SameRing.refl sub
  · unfold Subscriber.releaseReorderSlotsForWriter
    dsimp only
    rw [bare.idle]
    have none_ : { sub with writers := sub.writers.filter fun proxy => proxy.writer ≠ writer }.reorderPayloadCapacity = 0 := bare.capacity
    rw [bare.idle] at none_
    dsimp only
    rw [if_pos none_]
    exact ⟨rfl, rfl, rfl, rfl, rfl, rfl, rfl, rfl, bare.idle.symm⟩

/-! ### Arrivals -/

/-- What an arrival leaves: what core has for the queue still fits. -/
structure Admitted (s : KeepAllQueue) (sub' : Subscriber) : Prop where
  sub : sub'.Bounded ∨ Bare sub'
  slots : sub'.reorderSlots = s.sub.reorderSlots
  delivered : s.sub.delivered <+: sub'.delivered
  room : s.queue.length + (sub'.delivered.length - s.sub.delivered.length) + sub'.reserved ≤ s.queueLimit + s.sub.reorderSlots

theorem Fits.reserved_le (fits : Fits s) : s.sub.reserved ≤ s.sub.reorderSlots := by
  rcases fits.sub with bounded | bare
  · exact bounded.counted.reserved_le
  · rw [bare.reserved]
    exact Nat.zero_le _

theorem Fits.hands_nothing (fits : Fits s) (hands : Subscriber.Hands 0 s.sub sub') : Admitted s sub' := by
  refine ⟨.inl hands.bounded, hands.slots, hands.delivered, ?_⟩
  have grown := hands.delivered.length_le
  have load := hands.load
  have room := fits.room
  unfold Subscriber.load at load
  omega

theorem Fits.takes (fits : Fits s) (accept : s.subscriberAccept = true) (takes : Subscriber.Takes s.sub sub') : Admitted s sub' := by
  refine ⟨.inl takes.bounded, takes.slots, takes.delivered, ?_⟩
  have grown := takes.delivered.length_le
  have le := fits.reserved_le
  have few := takes.bounded.counted.reserved_le
  rw [takes.slots] at few
  unfold subscriberAccept at accept
  rw [decide_eq_true_eq] at accept
  rcases takes.load with load | same
  · unfold Subscriber.load at load
    omega
  · rw [same]
    omega

theorem Fits.gives (fits : Fits s) (bare : Bare s.sub) {n : Nat} (gives : Gives n s.sub sub')
    (room : n = 0 ∨ n ≤ 1 ∧ s.subscriberAccept = true) : Admitted s sub' := by
  obtain ⟨new, delivered, short⟩ := gives.delivered
  have bare' := bare.gives gives
  refine ⟨.inr bare', gives.same.slots, ⟨new, delivered.symm⟩, ?_⟩
  have before := fits.room
  rw [delivered, List.length_append, bare'.reserved]
  unfold subscriberAccept at room
  rw [decide_eq_true_eq] at room
  omega

theorem Fits.step (fits : Fits s) (event : Subscriber.Event) (consulted : s.Consulted (.arrives event)) :
    Admitted s (s.sub.step (s.asked event)) := by
  cases event with
  | data ctx span accepted =>
    rcases fits.sub with bounded | bare
    · cases accept : s.subscriberAccept with
      | false =>
        have asks : s.asked (.data ctx span accepted) = .data ctx span false := by unfold asked; rw [accept]
        rw [asks]
        exact fits.hands_nothing (Subscriber.hands_declined bounded ctx span)
      | true =>
        have asks : s.asked (.data ctx span accepted) = .data ctx span true := by unfold asked; rw [accept]
        rw [asks]
        exact fits.takes accept (Subscriber.hands_deliverDataToSubscriber bounded ctx span).takes
    · apply fits.gives bare (gives_data bare (consulted bare.slots) span s.subscriberAccept)
      cases s.subscriberAccept with
      | false => exact .inl rfl
      | true => exact .inr ⟨Nat.le_refl _, rfl⟩
  | fragment ctx isFirst busy =>
    rcases fits.sub with bounded | bare
    · exact fits.takes consulted.2 (Subscriber.takes_deliverUserFragment bounded ctx isFirst busy)
    · exact absurd bare.slots consulted.1
  | heartbeat writer firstAvailableSeqNo lastSeqNo isFinal skips =>
    rcases fits.sub with bounded | bare
    · exact fits.hands_nothing (Subscriber.hands_informSubscriberOfHeartbeat bounded writer firstAvailableSeqNo lastSeqNo isFinal skips)
    · exact fits.gives bare (gives_heartbeat bare writer firstAvailableSeqNo lastSeqNo isFinal skips) (.inl rfl)
  | scratchTaken =>
    rcases fits.sub with bounded | bare
    · exact fits.hands_nothing (Subscriber.hands_fragFastSpill bounded).1
    · have still : s.sub.step .scratchTaken = s.sub := Subscriber.fragFastSpill_idle bare.idle
      change Admitted s (s.sub.step .scratchTaken)
      rw [still]
      exact fits.gives bare (Gives.refl s.sub) (.inl rfl)
  | forget writer =>
    rcases fits.sub with bounded | bare
    · exact fits.hands_nothing (Subscriber.hands_forgetWriter bounded writer)
    · exact fits.gives bare (gives_forgetWriter bare writer) (.inl rfl)

theorem Fits.after (fits : Fits s) (event : QueueEvent) (consulted : s.Consulted event) : Fits (s.step event) := by
  cases event with
  | arrives event =>
    change Fits (s.arrive event)
    unfold arrive
    split
    · exact fits
    next idle =>
      have admitted := fits.step event consulted
      refine ⟨admitted.sub, ?_, ?_, fits.drops⟩
      · dsimp only
        rw [List.length_drop, admitted.slots]
        exact admitted.room
      · dsimp only
        rw [admitted.slots]
        exact fits.headroom
  | callback decodes =>
    have room := fits.room
    have headroom := fits.headroom
    change Fits (s.subscriberCallback decodes)
    unfold subscriberCallback
    split
    · exact fits
    next sample rest handing =>
      rw [handing, List.length_cons] at room
      split
      · exact ⟨fits.sub, by dsimp only; omega, headroom, fits.drops⟩
      · rw [if_neg (by omega)]
        refine ⟨fits.sub, ?_, headroom, fits.drops⟩
        dsimp only
        rw [List.length_append, List.length_singleton]
        omega
  | dequeue =>
    have room := fits.room
    refine ⟨fits.sub, ?_, fits.headroom, fits.drops⟩
    change s.queue.tail.length + s.handing.length + s.sub.reserved ≤ s.queueLimit + s.sub.reorderSlots
    rw [List.length_tail]
    omega

theorem fits_create (opts : KeepAllOptions) : Fits (create opts) := by
  have few := opts.few
  refine ⟨?_, ?_, ?_, rfl⟩
  · rcases opts.usable with none_ | usable
    · exact .inr ⟨none_, rfl, rfl⟩
    · have counted := counted_create ⟨opts.words, opts.durable, opts.reorderSlots, opts.reorderSlotBytes, opts.peers, opts.maxSampleLength,
        opts.tracking, usable⟩
      refine .inl ⟨counted, ?_, ?_⟩
      · intro i held here
        cases here
      · intro fast busy
        cases busy
  · exact Nat.zero_le _
  · change opts.queueLimit + opts.reorderSlots < opts.queueLimit + keepAllHeadroom opts.trackingWords
    unfold keepAllHeadroom fragReassemblySlots
    omega

theorem LeftWithWriter.refl (sub : Subscriber) : LeftWithWriter sub sub := ⟨rfl, rfl, fun _ => rfl⟩

/-- What is declined is noted as announced. -/
theorem leftWithWriter_declined (sub : Subscriber) (ctx : Reader.Datagram) (span : Nat) :
    LeftWithWriter sub (sub.deliverDataToSubscriber ctx span false) := by
  unfold Subscriber.deliverDataToSubscriber
  rw [if_pos rfl]
  cases found : sub.findWriterProxy ctx.writer with
  | none =>
    unfold Subscriber.mapTrack
    rw [found]
    exact LeftWithWriter.refl sub
  | some proxy =>
    have sets := Subscriber.sets_mapTrack found fun track => track.noteDeclined ctx.seqNo
    refine ⟨Subscriber.mapTrack_delivered sub ctx.writer _, sets.same.ring, ?_⟩
    intro writer
    by_cases own : writer = ctx.writer
    · rw [own, sets.found, found, Option.map_some, Option.map_some]
      have same := sameTrack_noteDeclined proxy.track ctx.seqNo
      rw [same.ack, same.bitmap]
    · rw [sets.others writer own]

theorem leftWithWriter_arrive (full : s.subscriberAccept = false) (ctx : Reader.Datagram) (span : Nat) (accepted : Bool) :
    LeftWithWriter s.sub (s.arrive (.data ctx span accepted)).sub := by
  unfold arrive
  split
  · exact LeftWithWriter.refl s.sub
  · have asks : s.asked (.data ctx span accepted) = .data ctx span false := by unfold asked; rw [full]
    rw [asks]
    exact leftWithWriter_declined s.sub ctx span

theorem someQueue_tracking : 0 < 16 ∧ 16 < 2 ^ 16 := by decide

theorem someQueue_usable : 1024 = 0 ∨ 0 < 1024 ∧ 1024 < 2 ^ 16 ∧ slotHeader + 8 ≤ 1496 := by decide

/-- A queue of 10, in a build with the default window. -/
def someQueue : KeepAllOptions := ⟨16, 16, false, 1024, 1496, 4, 60000, 10, someQueue_tracking, someQueue_usable, Nat.le_refl _⟩

/-- A DATA comes, is queued and taken. -/
def someTake : List QueueEvent := [.arrives (.data (someDatagram 1 0) 1 true), .callback true, .dequeue]

/-- A writer whose datagrams have all come in order, at its next one. -/
structure Flowing (sub : Subscriber) (writer : Writer) (seqNo : SeqNo) : Prop where
  idle : sub.fast = none
  empty : sub.reorderHeld = 0
  capacity : 1 ≤ sub.reorderPayloadCapacity
  longest : 2 ≤ sub.maxSampleLength
  tracked : ∃ proxy, sub.findWriterProxy writer = some proxy ∧ proxy.track.ackSeqNo = seqNo ∧ proxy.track.receivedWords = 0 ∧
    bit proxy.track.receivedBitmap 0 = false ∧ seqDelta proxy.track.highestDelivered seqNo < 0

theorem maybeArmAcknackRetry_highestDelivered (track : WriterProxy) :
    track.maybeArmAcknackRetry.1.highestDelivered = track.highestDelivered := by
  have pinned : track.pinStaleHeartbeat.1.highestDelivered = track.highestDelivered := by
    unfold WriterProxy.pinStaleHeartbeat
    dsimp only
    split
    · rfl
    · rfl
  unfold WriterProxy.maybeArmAcknackRetry
  dsimp only
  split
  · exact pinned
  · split
    · exact pinned
    · exact pinned

/-- The next datagram in order, with nothing past it recorded. -/
theorem updateReliableAck_flowing {track : WriterProxy} (none_ : track.receivedWords = 0) (clear : bit track.receivedBitmap 0 = false) :
    (track.updateReliableAck track.ackSeqNo 1).1.ackSeqNo = track.ackSeqNo + 1 ∧
      (track.updateReliableAck track.ackSeqNo 1).1.receivedWords = 0 ∧
      bit (track.updateReliableAck track.ackSeqNo 1).1.receivedBitmap 0 = false ∧
      (track.updateReliableAck track.ackSeqNo 1).1.highestDelivered = track.highestDelivered := by
  have shifts : WriterProxy.shiftReceivedOne { track with ackSeqNo := track.ackSeqNo + 1 } =
      { track with ackSeqNo := track.ackSeqNo + 1 } := by
    unfold WriterProxy.shiftReceivedOne
    rw [if_pos none_]
  have stops : WriterProxy.absorb { track with ackSeqNo := track.ackSeqNo + 1 } = { track with ackSeqNo := track.ackSeqNo + 1 } := by
    apply Loop.whileN_of_not
    unfold WriterProxy.lowestReceived
    rw [bitmapLowestBitSet_eq]
    exact clear
  have records : track.recordArrival track.ackSeqNo 1 = ({ track with ackSeqNo := track.ackSeqNo + 1 }, true, none) := by
    have still : track.absorbSeqSpan 0 1 = track := rfl
    unfold WriterProxy.recordArrival
    rw [if_pos rfl, still, WriterProxy.advanceAckSeqNo, shifts, stops]
  have armed := sameTrack_maybeArmAcknackRetry { track with ackSeqNo := track.ackSeqNo + 1 }
  have high := maybeArmAcknackRetry_highestDelivered { track with ackSeqNo := track.ackSeqNo + 1 }
  have updates : (track.updateReliableAck track.ackSeqNo 1).1 =
      (WriterProxy.maybeArmAcknackRetry { track with ackSeqNo := track.ackSeqNo + 1 }).1 := by
    unfold WriterProxy.updateReliableAck
    rw [if_neg (by rw [seqDelta_self]; decide), records]
    rfl
  rw [updates]
  refine ⟨armed.ack, armed.used.trans none_, ?_, high⟩
  rw [armed.bitmap]
  exact clear

/-- Fragment `index` of a sample of two. -/
def half (seqNo : SeqNo) (index : Nat) : Reader.Datagram := ⟨someWriter, seqNo, 0, [1], true, false, index, 2⟩

/-- A Subscriber with the first half of a sample in the scratch. -/
structure HalfThere (sub : Subscriber) (seqNo : SeqNo) (before : List Delivery) : Prop where
  busy : sub.fast = some ⟨someWriter, seqNo, 2, 0, true, false, 1, 0, [1], 1⟩
  empty : sub.reorderHeld = 0
  capacity : 1 ≤ sub.reorderPayloadCapacity
  longest : 2 ≤ sub.maxSampleLength
  delivered : sub.delivered = before
  tracked : ∃ proxy, sub.findWriterProxy someWriter = some proxy ∧ proxy.track.ackSeqNo = seqNo + 1 ∧ proxy.track.receivedWords = 0 ∧
    bit proxy.track.receivedBitmap 0 = false ∧ seqDelta proxy.track.highestDelivered seqNo < 0

/-- The next datagram recorded, of a writer that is tracked. -/
theorem updateReliableAck_tracked {sub : Subscriber} {proxy : TrackedWriter} (found : sub.findWriterProxy someWriter = some proxy)
    (seqNo : SeqNo) :
    (sub.updateReliableAck someWriter seqNo 1).1 = sub.setProxy { proxy with track := (proxy.track.updateReliableAck seqNo 1).1 } := by
  have met : sub.firstContact someWriter seqNo = sub := by
    unfold Subscriber.firstContact
    rw [if_pos (Or.inl (by rw [found]; rfl))]
  unfold Subscriber.updateReliableAck
  dsimp only
  rw [met, found]

/-- The next datagram in order goes where the scratch takes it. -/
theorem deliverUserFragment_next {sub sub' : Subscriber} {proxy : TrackedWriter} {index : Nat} {isFirst : Bool}
    (found : sub.findWriterProxy someWriter = some proxy) (clear : bit proxy.track.receivedBitmap 0 = false) (parts : index < 2)
    (first : isFirst = true → index = 0) (takes : sub.fragFastTake proxy (half proxy.track.ackSeqNo index) false = some sub') :
    sub.deliverUserFragment (half proxy.track.ackSeqNo index) isFirst false = sub' := by
  have same : (if isFirst then { half proxy.track.ackSeqNo index with fragIndex := 0 } else half proxy.track.ackSeqNo index) =
      half proxy.track.ackSeqNo index := by
    cases isFirst with
    | false => rfl
    | true =>
      rw [first rfl]
      rfl
  have new : ¬ (seqDelta proxy.track.ackSeqNo proxy.track.ackSeqNo < 0 ∨
      steps proxy.track.ackSeqNo proxy.track.ackSeqNo < proxy.track.windowBits ∧
        bitmapTestBit proxy.track.receivedBitmap (steps proxy.track.ackSeqNo proxy.track.ackSeqNo) = true) := by
    rw [seqDelta_self, steps_self, bitmapTestBit_eq, clear]
    simp
  have sane : ¬ ((half proxy.track.ackSeqNo index).fragCount < 2 ∨
      Subscriber.fragMaxCount < (half proxy.track.ackSeqNo index).fragCount ∨
      (half proxy.track.ackSeqNo index).fragCount ≤ (half proxy.track.ackSeqNo index).fragIndex ∨
      (half proxy.track.ackSeqNo index).payload.length = 0) := by
    change ¬ (2 < 2 ∨ 64 < 2 ∨ 2 ≤ index ∨ [1].length = 0)
    simp
    omega
  unfold Subscriber.deliverUserFragment
  dsimp only
  rw [same, if_neg sane, if_neg]
  · have found' : sub.findWriterProxy (half proxy.track.ackSeqNo index).writer = some proxy := found
    unfold Subscriber.acceptReliableFragment
    rw [found']
    dsimp only
    have new' : ¬ (seqDelta (half proxy.track.ackSeqNo index).seqNo proxy.track.ackSeqNo < 0 ∨
        steps proxy.track.ackSeqNo (half proxy.track.ackSeqNo index).seqNo < proxy.track.windowBits ∧
          bitmapTestBit proxy.track.receivedBitmap (steps proxy.track.ackSeqNo (half proxy.track.ackSeqNo index).seqNo) = true) := new
    rw [if_neg new', takes]
  · rintro ⟨_, unknown⟩
    change (sub.findWriterProxy someWriter).isNone = true at unknown
    rw [found] at unknown
    cases unknown

theorem Flowing.first {sub : Subscriber} {seqNo : SeqNo} (flowing : Flowing sub someWriter seqNo) :
    HalfThere (sub.deliverUserFragment (half seqNo 0) true false) seqNo sub.delivered := by
  obtain ⟨proxy, found, ack, none_, clear, behind⟩ := flowing.tracked
  have capacity := flowing.capacity
  have longest := flowing.longest
  subst ack
  obtain ⟨next, none', clear', high⟩ := updateReliableAck_flowing none_ clear
  have takes : sub.fragFastTake proxy (half proxy.track.ackSeqNo 0) false =
      some { sub.setProxy { proxy with track := (proxy.track.updateReliableAck proxy.track.ackSeqNo 1).1 } with
        fast := some ⟨someWriter, proxy.track.ackSeqNo, 2, 0, true, false, 1, 0, [1], 1⟩ } := by
    have fresh : sub.fastSampleFor (half proxy.track.ackSeqNo 0) false =
        some ⟨someWriter, proxy.track.ackSeqNo, 2, 0, true, false, 1, 0, [], 0⟩ := by
      unfold Subscriber.fastSampleFor
      rw [if_pos (show (half proxy.track.ackSeqNo 0).fragIndex = 0 from rfl), if_neg (by rw [flowing.idle, flowing.empty]; simp)]
      rfl
    have updates := updateReliableAck_tracked found proxy.track.ackSeqNo
    unfold Subscriber.fragFastTake
    rw [if_neg, fresh]
    · dsimp only
      rw [if_neg]
      · change (if 1 < 2 then some { (sub.updateReliableAck someWriter proxy.track.ackSeqNo 1).1 with
          fast := some ⟨someWriter, proxy.track.ackSeqNo, 2, 0, true, false, 1, 0, [1], 1⟩ } else _) = _
        rw [if_pos (by decide), updates]
      · change ¬ sub.maxSampleLength < 0 + 1
        omega
    · rintro (other | long)
      · exact other rfl
      · change sub.reorderPayloadCapacity < 1 at long
        omega
  rw [deliverUserFragment_next found clear (by decide) (fun _ => rfl) takes]
  have name := Subscriber.find_writer found
  have named : ({ proxy with track := (proxy.track.updateReliableAck proxy.track.ackSeqNo 1).1 } : TrackedWriter).writer = someWriter :=
    name
  have sets := Subscriber.sets_setProxy found named
  refine ⟨rfl, flowing.empty, capacity, longest, rfl, _, sets.found, next, none', clear', ?_⟩
  dsimp only
  rw [high]
  exact behind

/-- The next sample in order goes straight to the callback. -/
theorem deliverInOrder_next {sub : Subscriber} {sample : Delivery} {proxy : TrackedWriter}
    (found : sub.findWriterProxy sample.writer = some proxy) (behind : seqDelta proxy.track.highestDelivered sample.seqNo < 0) :
    sub.deliverInOrder sample =
      { sub with delivered := sub.delivered ++ [sample] }.setProxy
        { proxy with track := { proxy.track with highestDelivered := sample.seqNo } } := by
  unfold Subscriber.deliverInOrder
  rw [found]
  dsimp only
  rw [if_neg (by omega)]

/-- The fragment that makes the sample in the scratch whole. -/
theorem fragFastTake_last {sub sub' : Subscriber} {proxy proxy' : TrackedWriter} {ctx : Reader.Datagram} {busy : Bool} {fast : FastSample}
    (due : ctx.seqNo = proxy.track.ackSeqNo) (fits : ctx.payload.length ≤ sub.reorderPayloadCapacity)
    (there : sub.fastSampleFor ctx busy = some fast) (short : fast.bytes.length + ctx.payload.length ≤ sub.maxSampleLength)
    (last : (fast.take ctx).count ≤ (fast.take ctx).placed)
    (delivers : { (sub.updateReliableAck ctx.writer ctx.seqNo 1).1 with fast := none }.deliverInOrder
      ⟨ctx.writer, (fast.take ctx).seqNo, (fast.take ctx).timestamp, (fast.take ctx).bytes, (fast.take ctx).isNative,
        (fast.take ctx).viaDataPort⟩ = sub')
    (found : sub'.findWriterProxy ctx.writer = some proxy') :
    sub.fragFastTake proxy ctx busy = some (sub'.setProxy { proxy' with reorderCursor := proxy'.track.ackSeqNo }) := by
  unfold Subscriber.fragFastTake
  rw [if_neg, there]
  · dsimp only
    rw [if_neg (by omega), if_neg (by omega), delivers, found]
  · rintro (other | long)
    · exact other due
    · omega

/-- The second half makes the sample whole. -/
theorem HalfThere.second {sub : Subscriber} {seqNo : SeqNo} {before : List Delivery} (halfThere : HalfThere sub seqNo before) :
    Flowing (sub.deliverUserFragment (half (seqNo + 1) 1) false false) someWriter (seqNo + 2) ∧
      ∃ sample, (sub.deliverUserFragment (half (seqNo + 1) 1) false false).delivered = before ++ [sample] := by
  obtain ⟨proxy, found, ack, none_, clear, behind⟩ := halfThere.tracked
  have capacity := halfThere.capacity
  have longest := halfThere.longest
  have name := Subscriber.find_writer found
  obtain ⟨next, none', clear', high⟩ := updateReliableAck_flowing none_ clear
  have updates := updateReliableAck_tracked found proxy.track.ackSeqNo
  generalize (proxy.track.updateReliableAck proxy.track.ackSeqNo 1).1 = after at next none' clear' high updates
  let recorded : TrackedWriter := { proxy with track := after }
  let handed : TrackedWriter := { recorded with track := { after with highestDelivered := seqNo } }
  let sample : Delivery := ⟨someWriter, seqNo, 0, [1, 1], true, false⟩
  let sub1 : Subscriber := { sub.setProxy recorded with fast := none }
  let sub2 : Subscriber := { sub1 with delivered := sub1.delivered ++ [sample] }.setProxy handed
  have named : recorded.writer = someWriter := name
  have named' : handed.writer = someWriter := name
  have found1 : sub1.findWriterProxy someWriter = some recorded := (Subscriber.sets_setProxy found named).found
  have found2 : sub2.findWriterProxy someWriter = some handed := (Subscriber.sets_setProxy found1 named').found
  have whole : sub1.deliverInOrder sample = sub2 := by
    apply deliverInOrder_next found1
    change seqDelta after.highestDelivered seqNo < 0
    rw [high]
    exact behind
  have takes : sub.fragFastTake proxy (half proxy.track.ackSeqNo 1) false =
      some (sub2.setProxy { handed with reorderCursor := handed.track.ackSeqNo }) := by
    have there : sub.fastSampleFor (half proxy.track.ackSeqNo 1) false =
        some ⟨someWriter, seqNo, 2, 0, true, false, 1, 0, [1], 1⟩ := by
      unfold Subscriber.fastSampleFor
      rw [if_neg (show ¬ (half proxy.track.ackSeqNo 1).fragIndex = 0 from Nat.one_ne_zero), halfThere.busy]
      rfl
    have fits : (half proxy.track.ackSeqNo 1).payload.length ≤ sub.reorderPayloadCapacity := capacity
    apply fragFastTake_last rfl fits there longest (Nat.le_refl 2) _ found2
    change { (sub.updateReliableAck someWriter proxy.track.ackSeqNo 1).1 with fast := none }.deliverInOrder sample = sub2
    rw [updates]
    exact whole
  have named'' : ({ handed with reorderCursor := handed.track.ackSeqNo } : TrackedWriter).writer = someWriter := name
  have sets := Subscriber.sets_setProxy found2 named''
  rw [← ack, deliverUserFragment_next found clear (by decide) (fun first => by cases first) takes]
  constructor
  · refine ⟨rfl, halfThere.empty, capacity, longest, _, sets.found, ?_, none', clear', ?_⟩
    · change after.ackSeqNo = _
      rw [next, ack]
      grind
    · change seqDelta seqNo (seqNo + 2) < 0
      unfold seqDelta
      have gap : seqNo - (seqNo + 2) = -2 := by grind
      rw [gap]
      decide
  · refine ⟨sample, ?_⟩
    change sub.delivered ++ [sample] = before ++ [sample]
    rw [halfThere.delivered]

/-- A queue whose reader has come to `seqNo`, with `n` samples handed over and none taken. -/
structure Waiting (s : KeepAllQueue) (size : Nat) (seqNo : SeqNo) (n : Nat) : Prop where
  flowing : Flowing s.sub someWriter seqNo
  idle : s.handing = []
  room : s.queueCapacity = size
  most : s.queue.length ≤ size
  all : s.queue.length + s.keepAllUnconsultedDrops = n

/-- A sample in two fragments comes, and the callback is given it. -/
def wholeSample (seqNo : SeqNo) : List QueueEvent :=
  [.arrives (.fragment (half seqNo 0) true false), .arrives (.fragment (half (seqNo + 1) 1) false false), .callback true]

def samples (seqNo : SeqNo) : Nat → List QueueEvent
  | 0 => []
  | n + 1 => wholeSample seqNo ++ samples (seqNo + 2) n

theorem Waiting.sample {size n : Nat} {seqNo : SeqNo} (waiting : Waiting s size seqNo n) :
    Waiting (Run.after step s (wholeSample seqNo)) size (seqNo + 2) (n + 1) := by
  have halfThere := waiting.flowing.first
  obtain ⟨flowing, sample, delivered⟩ := halfThere.second
  have most := waiting.most
  have all := waiting.all
  let sub1 := s.sub.deliverUserFragment (half seqNo 0) true false
  let sub2 := sub1.deliverUserFragment (half (seqNo + 1) 1) false false
  have first : s.arrive (.fragment (half seqNo 0) true false) = { s with sub := sub1, handing := [] } := by
    have nothing : sub1.delivered.drop s.sub.delivered.length = [] := by
      rw [halfThere.delivered, List.drop_length]
    unfold arrive
    rw [if_neg (not_not_intro waiting.idle)]
    change { s with sub := sub1, handing := sub1.delivered.drop s.sub.delivered.length } = _
    rw [nothing]
  have second : ({ s with sub := sub1, handing := [] } : KeepAllQueue).arrive (.fragment (half (seqNo + 1) 1) false false) =
      { s with sub := sub2, handing := [sample] } := by
    have one : sub2.delivered.drop sub1.delivered.length = [sample] := by
      rw [delivered, halfThere.delivered, List.drop_left]
    unfold arrive
    rw [if_neg (not_not_intro rfl)]
    change { s with sub := sub2, handing := sub2.delivered.drop sub1.delivered.length } = _
    rw [one]
  change Waiting (((s.arrive (.fragment (half seqNo 0) true false)).arrive
    (.fragment (half (seqNo + 1) 1) false false)).subscriberCallback true) size (seqNo + 2) (n + 1)
  rw [first, second]
  unfold subscriberCallback
  dsimp only
  rw [if_neg (by decide), waiting.room]
  split
  · exact ⟨flowing, rfl, rfl, most, by dsimp only; omega⟩
  · refine ⟨flowing, rfl, rfl, ?_, ?_⟩
    · dsimp only
      rw [List.length_append, List.length_singleton]
      omega
    · dsimp only
      rw [List.length_append, List.length_singleton]
      omega

theorem Waiting.samples {size : Nat} (m : Nat) {n : Nat} {seqNo : SeqNo} (waiting : Waiting s size seqNo n) :
    ∃ next, Waiting (Run.after step s (samples seqNo m)) size next (n + m) := by
  induction m generalizing s seqNo n with
  | zero => exact ⟨seqNo, waiting⟩
  | succ m ih =>
    obtain ⟨next, after⟩ := ih waiting.sample
    refine ⟨next, ?_⟩
    have count : n + 1 + m = n + (m + 1) := by omega
    rw [count] at after
    unfold KeepAllQueue.samples Run.after
    rw [List.foldl_append]
    exact after

/-- The subscription once its writer has been met. -/
def met : KeepAllQueue := (create someQueue).step (.arrives (.heartbeat someWriter 1 0 true []))

/-- A writer is met, and nothing of it is taken. -/
def unread (n : Nat) : List QueueEvent := .arrives (.heartbeat someWriter 1 0 true []) :: samples 1 n

/-- Its reader waits for sample 1. -/
theorem met_tracked : (met.sub.findWriterProxy someWriter).map (fun proxy => (proxy.track.ackSeqNo, proxy.track.receivedWords,
    bit proxy.track.receivedBitmap 0, decide (seqDelta proxy.track.highestDelivered 1 < 0))) = some (1, 0, false, true) := by
  decide +kernel

theorem waiting_met : Waiting met 1043 1 0 := by
  refine ⟨⟨rfl, rfl, by decide +kernel, by decide +kernel, ?_⟩, rfl, rfl, Nat.zero_le _, rfl⟩
  obtain ⟨proxy, found, tracked⟩ := Option.map_eq_some_iff.mp met_tracked
  simp only [Prod.mk.injEq, decide_eq_true_eq] at tracked
  obtain ⟨ack, used, clear, behind⟩ := tracked
  exact ⟨proxy, found, ack, used, clear, behind⟩

theorem unread_dropped {n : Nat} (many : 1043 < n) : ¬ KeepsAll (Run.after step (create someQueue) (unread n)) := by
  have begins : Run.after step (create someQueue) (unread n) = Run.after step met (samples 1 n) := rfl
  obtain ⟨_, waiting⟩ := waiting_met.samples n
  have most := waiting.most
  have all := waiting.all
  rw [begins]
  rintro ⟨none_, _⟩
  omega

end KeepAllQueue

end RmwQueue

end Tickle
