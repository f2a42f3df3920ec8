import Tickle.Run
import Tickle.Reader.Proxy

/-! # The reorder ring of a RELIABLE Subscriber

What arrives ahead of a gap waits in a ring of slots, one datagram a slot, until the watermark of its writer has passed
it; the fragments of a sample wait there one by one, or in the node's scratch while they come in order. Modelled as the
source has it: where a datagram goes, the scratch and its way back to the ring, the drain, and the three things that
arrive. The large samples and the pool of a Subscriber with no ring are left out.
-/

namespace Tickle

namespace Reader

open Bits Serial

/-- What identifies a writer: its context and its entity. -/
structure Writer where
  contextId : BitVec 8
  entityId : BitVec 32
  deriving DecidableEq

/-- `struct data_delivery_ctx`, and what a reorder slot keeps of one: `fragCount` is 0 for a whole sample. -/
structure Datagram where
  writer : Writer
  seqNo : SeqNo
  timestamp : Nat
  payload : List UInt8
  isNative : Bool
  viaDataPort : Bool
  fragIndex : Nat
  fragCount : Nat

/-- What the application is handed. -/
structure Delivery where
  writer : Writer
  seqNo : SeqNo
  timestamp : Nat
  payload : List UInt8
  isNative : Bool
  viaDataPort : Bool
  deriving DecidableEq

/-- A datagram that is a sample of its own. -/
def Datagram.sample (ctx : Datagram) : Delivery :=
  ⟨ctx.writer, ctx.seqNo, ctx.timestamp, ctx.payload, ctx.isNative, ctx.viaDataPort⟩

/-- `struct tt_WriterProxy`: what it tracks, and where the writer stands in the ring. -/
structure TrackedWriter where
  writer : Writer
  track : WriterProxy
  reorderCursor : SeqNo
  reorderPivot : SeqNo
  reorderBase : Nat

/-- `frag_fast_*` of the context, with the bytes of `frag_scratch`. -/
structure FastSample where
  writer : Writer
  seqNo : SeqNo
  count : Nat
  timestamp : Nat
  isNative : Bool
  viaDataPort : Bool
  firstLength : Nat
  contLength : Nat
  bytes : List UInt8
  placed : Nat

namespace FastSample

/-- The bytes of the scratch that are fragment `index`. -/
def part (fast : FastSample) (index : Nat) : List UInt8 :=
  if index = 0 then fast.bytes.take fast.firstLength
  else (fast.bytes.drop (fast.firstLength + (index - 1) * fast.contLength)).take fast.contLength

/-- The next fragment put to the sample. -/
def take (fast : FastSample) (ctx : Datagram) : FastSample :=
  { fast with
    contLength := if ctx.fragIndex = 1 then ctx.payload.length else fast.contLength
    bytes := fast.bytes ++ ctx.payload
    placed := fast.placed + 1 }

/-- Fragment `index` as `frag_fast_spill` stores it. -/
def fragment (fast : FastSample) (index : Nat) : Datagram where
  writer := fast.writer
  seqNo := plus fast.seqNo index
  timestamp := if index = 0 then fast.timestamp else 0
  payload := fast.part index
  isNative := fast.isNative
  viaDataPort := fast.viaDataPort
  fragIndex := index
  fragCount := fast.count

end FastSample

/-- `struct tt_Subscriber`, RELIABLE, with what its context keeps for it. -/
structure Subscriber where
  /-- The width of the tracking windows, in words. -/
  words : Nat
  durable : Bool
  reorderSlots : Nat
  reorderSlotBytes : Nat
  /-- `capacity.peers`. -/
  peers : Nat
  maxSampleLength : Nat
  /-- The occupied slots. -/
  ring : Nat → Option Datagram
  reorderHeld : Nat
  writers : List TrackedWriter
  /-- The sample of this Subscriber in the context's scratch. -/
  fast : Option FastSample
  /-- Every sample handed to the application, oldest first. -/
  delivered : List Delivery
  reorderAbandoned : Nat
  reorderOverflow : Nat
  outOfOrderDiscarded : Nat
  fragDropped : Nat

/-- `sizeof(struct tt_ReorderSlot)`. -/
def slotHeader : Nat := 24

/-- The options of a Subscriber with a reorder ring. -/
structure SubscriberOptions where
  words : Nat
  durable : Bool
  reorderSlots : Nat
  reorderSlotBytes : Nat
  peers : Nat
  maxSampleLength : Nat
  tracking : 0 < words ∧ words < 2 ^ 16
  /-- `reorder_slots` is a `uint16_t`, and a slot has room for some payload. -/
  usable : 0 < reorderSlots ∧ reorderSlots < 2 ^ 16 ∧ slotHeader + 8 ≤ reorderSlotBytes

namespace Subscriber

def create (opts : SubscriberOptions) : Subscriber where
  words := opts.words
  durable := opts.durable
  reorderSlots := opts.reorderSlots
  reorderSlotBytes := opts.reorderSlotBytes
  peers := opts.peers
  maxSampleLength := opts.maxSampleLength
  ring := fun _ => none
  reorderHeld := 0
  writers := []
  fast := none
  delivered := []
  reorderAbandoned := 0
  reorderOverflow := 0
  outOfOrderDiscarded := 0
  fragDropped := 0

/-! ## Writers and slots -/

/-- `find_writer_proxy`. -/
def findWriterProxy (sub : Subscriber) (writer : Writer) : Option TrackedWriter :=
  sub.writers.find? fun proxy => proxy.writer = writer

/-- The proxy written back. -/
def setProxy (sub : Subscriber) (proxy : TrackedWriter) : Subscriber :=
  { sub with writers := sub.writers.map fun old => if old.writer = proxy.writer then proxy else old }

/-- `reorder_stride`: rounded down to 8. -/
def reorderStride (sub : Subscriber) : Nat := sub.reorderSlotBytes / 8 * 8

/-- `reorder_payload_capacity`. -/
def reorderPayloadCapacity (sub : Subscriber) : Nat :=
  if sub.reorderSlots = 0 ∨ sub.reorderSlotBytes ≤ slotHeader then 0 else sub.reorderStride - slotHeader

/-- `reorder_salt`. -/
def reorderSalt (writer : Writer) : BitVec 32 :=
  (writer.entityId * 2654435761#32) ^^^ (writer.contextId.setWidth 32 * 40503#32)

/-- `reorder_writer_slot`, as the index of the slot. -/
def reorderWriterSlot (sub : Subscriber) (writer : Writer) (seqNo : SeqNo) : Nat :=
  match sub.findWriterProxy writer with
  | none => (seqNo + reorderSalt writer).toNat % sub.reorderSlots
  | some proxy => (seqNo - proxy.reorderPivot + BitVec.ofNat 32 proxy.reorderBase).toNat % sub.reorderSlots

/-- `reorder_place_pivot`. -/
def reorderPlacePivot (slots : Nat) (proxy : TrackedWriter) (seqNo : SeqNo) : TrackedWriter :=
  { proxy with
    reorderPivot := seqNo
    reorderBase := if slots ≠ 0 then (seqNo + reorderSalt proxy.writer).toNat % slots else 0 }

/-- `REORDER_PIVOT_REACH`. -/
def reorderPivotReach : Nat := 0x40000000

/-- `REORDER_PIVOT_LEAD`. -/
def reorderPivotLead : SeqNo := 0x20000000

/-- `reorder_follow_pivot` of a proxy: the pivot of a seq_no to be held far past it comes closer, the base with it. -/
def pivotFollowed (slots : Nat) (proxy : TrackedWriter) (seqNo : SeqNo) : TrackedWriter :=
  if slots = 0 ∨ steps proxy.reorderPivot seqNo < reorderPivotReach then proxy
  else
    let pivot := seqNo - reorderPivotLead
    let moved := (seqDelta pivot proxy.reorderPivot).tmod slots
    { proxy with
      reorderBase := (((proxy.reorderBase : Int) + moved + slots).tmod slots).toNat
      reorderPivot := pivot }

/-- `reorder_follow_pivot`. -/
def reorderFollowPivot (sub : Subscriber) (writer : Writer) (seqNo : SeqNo) : Subscriber :=
  match sub.findWriterProxy writer with
  | none => sub
  | some proxy => sub.setProxy (pivotFollowed sub.reorderSlots proxy seqNo)

/-- A slot taken. -/
def occupy (sub : Subscriber) (index : Nat) (datagram : Datagram) : Subscriber :=
  { sub with ring := Function.update sub.ring index (some datagram), reorderHeld := sub.reorderHeld + 1 }

/-- `reorder_release`. -/
def reorderRelease (sub : Subscriber) (index : Nat) : Subscriber :=
  { sub with ring := Function.update sub.ring index none, reorderHeld := sub.reorderHeld - 1 }

/-- `reorder_slot_holds`, of the slot `seqNo` maps to: what it holds there of the writer. -/
def heldAt (sub : Subscriber) (writer : Writer) (seqNo : SeqNo) : Option Datagram :=
  match sub.ring (sub.reorderWriterSlot writer seqNo) with
  | none => none
  | some held => if held.seqNo = seqNo ∧ held.writer = writer then some held else none

/-! ## The scratch -/

/-- One round of `frag_fast_spill`: a slot already taken is passed over. -/
def spillOne (fast : FastSample) (sub : Subscriber) (index : Nat) : Subscriber :=
  let slot := sub.reorderWriterSlot fast.writer (plus fast.seqNo index)
  if (sub.ring slot).isSome then sub else sub.occupy slot (fast.fragment index)

/-- The cursor of a writer put somewhere. -/
def putCursor (sub : Subscriber) (writer : Writer) (seqNo : SeqNo) : Subscriber :=
  match sub.findWriterProxy writer with
  | none => sub
  | some proxy => sub.setProxy { proxy with reorderCursor := seqNo }

/-- `frag_fast_spill`. -/
def fragFastSpill (sub : Subscriber) : Subscriber :=
  match sub.fast with
  | none => sub
  | some fast =>
    let followed := { sub with fast := none }.reorderFollowPivot fast.writer fast.seqNo
    ((List.range fast.placed).foldl (spillOne fast) followed).putCursor fast.writer fast.seqNo

/-- `frag_fast_holds`: the scratch has part of a sample of this writer. -/
def fragFastHolds (sub : Subscriber) (writer : Writer) : Bool :=
  match sub.fast with
  | none => false
  | some fast => fast.writer = writer

/-- `frag_fast_spill_if_overtaken`. -/
def fragFastSpillIfOvertaken (sub : Subscriber) (writer : Writer) : Subscriber :=
  match sub.fast, sub.findWriterProxy writer with
  | some fast, some proxy =>
    if fast.writer = writer ∧ proxy.track.ackSeqNo ≠ plus fast.seqNo fast.placed then sub.fragFastSpill else sub
  | _, _ => sub

/-! ## Holding -/

/-- What a writer's proxy tracks, changed. -/
def mapTrack (sub : Subscriber) (writer : Writer) (f : WriterProxy → WriterProxy) : Subscriber :=
  match sub.findWriterProxy writer with
  | none => sub
  | some proxy => sub.setProxy { proxy with track := f proxy.track }

/-- `note_collision`. -/
def noteCollision (track : WriterProxy) (held ctx : Datagram) : WriterProxy :=
  if held.writer = ctx.writer then track
  else
    { track with
      collidedSeqNo :=
        if track.collided = false ∨ seqDelta ctx.seqNo track.collidedSeqNo > 0 then ctx.seqNo
        else track.collidedSeqNo
      collided := true }

/-- The end of `hold_for_reorder`: nothing can keep the datagram, so it is un-received. -/
def unreceive (sub : Subscriber) (ctx : Datagram) : Subscriber :=
  { sub with reorderOverflow := sub.reorderOverflow + 1 }.mapTrack ctx.writer fun track => track.unreceive ctx.seqNo

/-- `hold_for_reorder`. -/
def holdForReorder (sub : Subscriber) (ctx : Datagram) : Subscriber :=
  let spilled := sub.fragFastSpill
  if ctx.payload.length ≤ spilled.reorderPayloadCapacity then
    let followed := spilled.reorderFollowPivot ctx.writer ctx.seqNo
    let slot := followed.reorderWriterSlot ctx.writer ctx.seqNo
    match followed.ring slot with
    | some held =>
      if held.seqNo = ctx.seqNo ∧ held.writer = ctx.writer then followed
      else (followed.mapTrack ctx.writer fun track => noteCollision track held ctx).unreceive ctx
    | none => followed.occupy slot { ctx with fragIndex := 0, fragCount := 0 }
  else spilled.unreceive ctx

/-- `release_reorder_slots_for_writer`, of one writer. -/
def releaseReorderSlotsForWriter (sub : Subscriber) (writer : Writer) : Subscriber :=
  let dropped :=
    match sub.fast with
    | none => sub
    | some fast =>
      if fast.writer = writer then
        { sub with fast := none, reorderAbandoned := sub.reorderAbandoned + fast.placed }
      else sub
  if dropped.reorderPayloadCapacity = 0 then dropped
  else
    (List.range dropped.reorderSlots).foldl
      (fun sub index =>
        match sub.ring index with
        | none => sub
        | some held =>
          if held.writer = writer then
            { sub.reorderRelease index with reorderAbandoned := sub.reorderAbandoned + 1 }
          else sub)
      dropped

/-! ## The drain -/

/-- `deliver_in_order`. -/
def deliverInOrder (sub : Subscriber) (sample : Delivery) : Subscriber :=
  match sub.findWriterProxy sample.writer with
  | none => sub
  | some proxy =>
    if 0 ≤ seqDelta proxy.track.highestDelivered sample.seqNo then
      { sub with outOfOrderDiscarded := sub.outOfOrderDiscarded + 1 }
    else
      { sub with delivered := sub.delivered ++ [sample] }.setProxy
        { proxy with track := { proxy.track with highestDelivered := sample.seqNo } }

/-- Fragment `index` of a sample of `count` fragments, held at its place. -/
def heldPart (sub : Subscriber) (writer : Writer) (seqNo : SeqNo) (count index : Nat) : Option Datagram :=
  match sub.heldAt writer (plus seqNo index) with
  | none => none
  | some held => if held.fragIndex = index ∧ held.fragCount = count then some held else none

/-- A slot of a sample given up, when it holds the writer's datagram. -/
def abandonAt (writer : Writer) (sub : Subscriber) (seqNo : SeqNo) : Subscriber :=
  match sub.heldAt writer seqNo with
  | none => sub
  | some _ =>
    { sub.reorderRelease (sub.reorderWriterSlot writer seqNo) with reorderAbandoned := sub.reorderAbandoned + 1 }

/-- The end of `drain_fragmented_sample`: all of the sample is here. -/
def deliverFragments (sub : Subscriber) (writer : Writer) (seqNo : SeqNo) (first : Datagram) : Subscriber :=
  let spilled := sub.fragFastSpill
  let bytes := (List.range first.fragCount).flatMap fun index =>
    match spilled.ring (spilled.reorderWriterSlot writer (plus seqNo index)) with
    | none => []
    | some part => part.payload
  let released := (List.range first.fragCount).foldl
    (fun sub index => sub.reorderRelease (sub.reorderWriterSlot writer (plus seqNo index))) spilled
  if released.maxSampleLength < bytes.length then { released with fragDropped := released.fragDropped + 1 }
  else released.deliverInOrder ⟨writer, seqNo, first.timestamp, bytes, first.isNative, first.viaDataPort⟩

/-- `drain_fragmented_sample`, where the ring holds `first`: how many seq_nos it dealt with, nothing to stop there. -/
def drainFragmentedSample (sub : Subscriber) (writer : Writer) (seqNo ack : SeqNo) (first : Datagram) :
    Option (Subscriber × Nat) :=
  if first.fragIndex ≠ 0 then some (abandonAt writer sub seqNo, 1)
  else
    match (List.range first.fragCount).find? fun index => (sub.heldPart writer seqNo first.fragCount index).isNone with
    | none => some (sub.deliverFragments writer seqNo first, first.fragCount)
    | some index =>
      if 0 ≤ seqDelta (plus seqNo index) ack then none
      else
        let below := min (steps seqNo ack) first.fragCount
        some (((List.range below).map (plus seqNo)).foldl (abandonAt writer) sub, below)

/-- `drain_ring_at`: what the ring holds at `seqNo` dealt with. -/
def drainRingAt (sub : Subscriber) (writer : Writer) (seqNo ack : SeqNo) : Option (Subscriber × Nat) :=
  match sub.heldAt writer seqNo with
  | none => some (sub, 1)
  | some held =>
    if held.fragCount ≠ 0 then sub.drainFragmentedSample writer seqNo ack held
    else some ((sub.reorderRelease (sub.reorderWriterSlot writer seqNo)).deliverInOrder held.sample, 1)

/-- Where a drain has come to: the sample in hand is delivered in its turn. -/
structure Drained where
  sub : Subscriber
  arriving : Option Datagram
  stop : SeqNo

/-- The loop of `drain_reorder_walk`, with `left` seq_nos to go from `seqNo` on. A round deals with one at least, so
`left` rounds are enough. -/
def drainReorderWalk (writer : Writer) (ack : SeqNo) : (rounds left : Nat) → SeqNo → Option Datagram → Subscriber → Drained
  | 0, _, _, arriving, sub => ⟨sub, arriving, ack⟩
  | rounds + 1, left, seqNo, arriving, sub =>
    if left = 0 then ⟨sub, arriving, ack⟩
    else
      match arriving with
      | some ctx =>
        if seqNo = ctx.seqNo then
          drainReorderWalk writer ack rounds (left - 1) (seqNo + 1) none (sub.deliverInOrder ctx.sample)
        else
          match sub.drainRingAt writer seqNo ack with
          | none => ⟨sub, arriving, seqNo⟩
          | some (sub, consumed) =>
            drainReorderWalk writer ack rounds (left - consumed) (plus seqNo consumed) arriving sub
      | none =>
        match sub.drainRingAt writer seqNo ack with
        | none => ⟨sub, none, seqNo⟩
        | some (sub, consumed) => drainReorderWalk writer ack rounds (left - consumed) (plus seqNo consumed) none sub

/-- `drain_reorder_with`. -/
def drainReorderWith (sub : Subscriber) (writer : Writer) (arriving : Option Datagram) : Subscriber :=
  let spilled := sub.fragFastSpillIfOvertaken writer
  match spilled.findWriterProxy writer with
  | none => spilled
  | some proxy =>
    let ack := proxy.track.ackSeqNo
    let span := min (steps proxy.reorderCursor ack) proxy.track.windowBits
    let drained : Drained :=
      if spilled.reorderHeld ≠ 0 ∧ spilled.reorderPayloadCapacity ≠ 0 then
        drainReorderWalk writer ack span span proxy.reorderCursor arriving spilled
      else ⟨spilled, arriving, ack⟩
    let settled :=
      match drained.arriving with
      | none => drained.sub
      | some ctx =>
        if drained.stop = ack then drained.sub.deliverInOrder ctx.sample else drained.sub.holdForReorder ctx
    settled.putCursor writer drained.stop

/-- `drain_reorder`. -/
def drainReorder (sub : Subscriber) (writer : Writer) : Subscriber := sub.drainReorderWith writer none

/-! ## What arrives -/

/-- `find_or_create_writer_proxy`, when the table has room: a writer not heard from before. -/
def newProxy (sub : Subscriber) (writer : Writer) : TrackedWriter :=
  reorderPlacePivot sub.reorderSlots
    { writer, track := WriterProxy.create sub.words, reorderCursor := 1, reorderPivot := 1, reorderBase := 0 } 1

/-- `take_first_contact_baseline`, with the cursor. -/
def takeFirstContactBaseline (durable : Bool) (proxy : TrackedWriter) (seqNo : SeqNo) : TrackedWriter :=
  { proxy with
    track := proxy.track.takeFirstContactBaseline durable seqNo
    reorderCursor :=
      if durable ∧ steps proxy.track.ackSeqNo seqNo < proxy.track.windowBits then proxy.reorderCursor else seqNo }

/-- A writer's first datagram: a proxy for it, when the table has room. -/
def firstContact (sub : Subscriber) (writer : Writer) (seqNo : SeqNo) : Subscriber :=
  if (sub.findWriterProxy writer).isSome ∨ sub.peers ≤ sub.writers.length then sub
  else
    { sub with
      writers := sub.writers ++
        [reorderPlacePivot sub.reorderSlots (takeFirstContactBaseline sub.durable (sub.newProxy writer) seqNo) seqNo] }

/-- `update_reliable_ack`: whether the datagram may be delivered. -/
def updateReliableAck (sub : Subscriber) (writer : Writer) (seqNo : SeqNo) (span : Nat) : Subscriber × Bool :=
  let met := sub.firstContact writer seqNo
  match met.findWriterProxy writer with
  | none => (met, true)
  | some proxy =>
    let updated := proxy.track.updateReliableAck seqNo span
    (met.setProxy { proxy with track := updated.1 }, updated.2.1)

/-- `deliver_data_to_subscriber`. `accepted` is the answer of the accept callback, `span` is `rx_seq_span`. -/
def deliverDataToSubscriber (sub : Subscriber) (ctx : Datagram) (span : Nat) (accepted : Bool) : Subscriber :=
  if accepted = false then sub.mapTrack ctx.writer fun track => track.noteDeclined ctx.seqNo
  else
    let updated := sub.updateReliableAck ctx.writer ctx.seqNo span
    if updated.2 = false then updated.1
    else
      match updated.1.findWriterProxy ctx.writer with
      | none => { updated.1 with delivered := updated.1.delivered ++ [ctx.sample] }
      | some proxy =>
        if 0 ≤ seqDelta ctx.seqNo proxy.track.ackSeqNo then updated.1.holdForReorder ctx
        else updated.1.drainReorderWith ctx.writer (some ctx)

/-- `reorder_store_fragment`. -/
def reorderStoreFragment (sub : Subscriber) (ctx : Datagram) : Subscriber × Bool :=
  let spilled := sub.fragFastSpill
  if spilled.reorderPayloadCapacity < ctx.payload.length then (spilled, false)
  else
    let followed := spilled.reorderFollowPivot ctx.writer ctx.seqNo
    let slot := followed.reorderWriterSlot ctx.writer ctx.seqNo
    if (followed.ring slot).isSome then (followed, false) else (followed.occupy slot ctx, true)

/-- The sample `frag_fast_take` puts the fragment to: a new one, or the one in the scratch. `busy`: the scratch holds
another Subscriber's sample. -/
def fastSampleFor (sub : Subscriber) (ctx : Datagram) (busy : Bool) : Option FastSample :=
  if ctx.fragIndex = 0 then
    if sub.fast.isSome ∨ busy ∨ sub.reorderHeld ≠ 0 then none
    else
      some
        { writer := ctx.writer
          seqNo := ctx.seqNo
          count := ctx.fragCount
          timestamp := ctx.timestamp
          isNative := ctx.isNative
          viaDataPort := ctx.viaDataPort
          firstLength := ctx.payload.length
          contLength := 0
          bytes := []
          placed := 0 }
  else
    match sub.fast with
    | none => none
    | some fast =>
      if fast.writer ≠ ctx.writer ∨ ctx.fragIndex ≠ fast.placed ∨ ctx.fragCount ≠ fast.count ∨
          (1 < ctx.fragIndex ∧ ctx.fragIndex + 1 ≠ fast.count ∧ ctx.payload.length ≠ fast.contLength) then
        none
      else some fast

/-- `frag_fast_take`: nothing when the fragment is not taken. -/
def fragFastTake (sub : Subscriber) (proxy : TrackedWriter) (ctx : Datagram) (busy : Bool) : Option Subscriber :=
  if ctx.seqNo ≠ proxy.track.ackSeqNo ∨ sub.reorderPayloadCapacity < ctx.payload.length then none
  else
    match sub.fastSampleFor ctx busy with
    | none => none
    | some fast =>
      if sub.maxSampleLength < fast.bytes.length + ctx.payload.length then none
      else
        let updated := (sub.updateReliableAck ctx.writer ctx.seqNo 1).1
        let taken := fast.take ctx
        if taken.placed < taken.count then some { updated with fast := some taken }
        else
          let delivered := { updated with fast := none }.deliverInOrder
            ⟨ctx.writer, taken.seqNo, taken.timestamp, taken.bytes, taken.isNative, taken.viaDataPort⟩
          match delivered.findWriterProxy ctx.writer with
          | none => some delivered
          | some proxy => some (delivered.setProxy { proxy with reorderCursor := proxy.track.ackSeqNo })

/-- `accept_reliable_fragment` past its fast path: stored first, recorded second. -/
def storeReliableFragment (sub : Subscriber) (ctx : Datagram) : Subscriber :=
  let stored := sub.reorderStoreFragment ctx
  if stored.2 = false then { stored.1 with reorderOverflow := stored.1.reorderOverflow + 1 }
  else
    let slot := stored.1.reorderWriterSlot ctx.writer ctx.seqNo
    let updated := stored.1.updateReliableAck ctx.writer ctx.seqNo 1
    if updated.2 = false ∨ (updated.1.findWriterProxy ctx.writer).isNone then updated.1.reorderRelease slot
    else updated.1.drainReorder ctx.writer

/-- `accept_reliable_fragment`. -/
def acceptReliableFragment (sub : Subscriber) (ctx : Datagram) (busy : Bool) : Subscriber :=
  match sub.findWriterProxy ctx.writer with
  | none => sub.storeReliableFragment ctx
  | some proxy =>
    let offset := steps proxy.track.ackSeqNo ctx.seqNo
    if seqDelta ctx.seqNo proxy.track.ackSeqNo < 0 ∨
        (offset < proxy.track.windowBits ∧ bitmapTestBit proxy.track.receivedBitmap offset = true) then
      sub
    else
      match sub.fragFastTake proxy ctx busy with
      | some taken => taken
      | none => sub.storeReliableFragment ctx

/-- `tt_FRAG_MAX_COUNT`. -/
def fragMaxCount : Nat := 64

/-- `deliver_user_fragment`, for this Subscriber: a continuation reaches it only when it tracks the writer. -/
def deliverUserFragment (sub : Subscriber) (ctx : Datagram) (isFirst busy : Bool) : Subscriber :=
  let ctx := if isFirst then { ctx with fragIndex := 0 } else ctx
  if ctx.fragCount < 2 ∨ fragMaxCount < ctx.fragCount ∨ ctx.fragCount ≤ ctx.fragIndex ∨ ctx.payload.length = 0 then
    { sub with fragDropped := sub.fragDropped + 1 }
  else if isFirst = false ∧ (sub.findWriterProxy ctx.writer).isNone then sub
  else sub.acceptReliableFragment ctx busy

/-- The watermark of a HEARTBEAT, before the drain. -/
def heardHeartbeat (sub : Subscriber) (writer : Writer) (firstAvailableSeqNo lastSeqNo : SeqNo) : Subscriber :=
  match sub.findWriterProxy writer with
  | some proxy =>
    sub.setProxy { proxy with
      track := (proxy.track.advancePastUnavailable firstAvailableSeqNo).jumpToAnnounced lastSeqNo }
  | none =>
    if sub.peers ≤ sub.writers.length then sub
    else
      let new := sub.newProxy writer
      let track := (new.track.moveAck (if sub.durable then firstAvailableSeqNo else lastSeqNo + 1)).clearReceived
      { sub with writers := sub.writers ++ [reorderPlacePivot sub.reorderSlots { new with track } track.ackSeqNo] }

/-- `inform_subscriber_of_heartbeat`. -/
def informSubscriberOfHeartbeat (sub : Subscriber) (writer : Writer) (firstAvailableSeqNo lastSeqNo : SeqNo)
    (isFinal : Bool) (skips : List AcknackSkip) : Subscriber :=
  ((sub.heardHeartbeat writer firstAvailableSeqNo lastSeqNo).drainReorder writer).mapTrack writer fun track =>
    (track.noteAnnounced lastSeqNo isFinal skips).1

/-- `forget_writer_proxies_for_endpoint`, of one writer. -/
def forgetWriter (sub : Subscriber) (writer : Writer) : Subscriber :=
  if (sub.findWriterProxy writer).isNone then sub
  else
    { sub with writers := sub.writers.filter fun proxy => proxy.writer ≠ writer }.releaseReorderSlotsForWriter writer

/-- What can happen to a Subscriber. -/
inductive Event where
  | data (ctx : Datagram) (span : Nat) (accepted : Bool)
  | fragment (ctx : Datagram) (isFirst busy : Bool)
  | heartbeat (writer : Writer) (firstAvailableSeqNo lastSeqNo : SeqNo) (isFinal : Bool) (skips : List AcknackSkip)
  /-- Another Subscriber of the context takes the scratch. -/
  | scratchTaken
  | forget (writer : Writer)

def step (sub : Subscriber) : Event → Subscriber
  | .data ctx span accepted => sub.deliverDataToSubscriber ctx span accepted
  | .fragment ctx isFirst busy => sub.deliverUserFragment ctx isFirst busy
  | .heartbeat writer firstAvailableSeqNo lastSeqNo isFinal skips =>
    sub.informSubscriberOfHeartbeat writer firstAvailableSeqNo lastSeqNo isFinal skips
  | .scratchTaken => sub.fragFastSpill
  | .forget writer => sub.forgetWriter writer

end Subscriber

end Reader

end Tickle
