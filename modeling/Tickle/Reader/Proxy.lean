import Tickle.Loop
import Tickle.Serial
import Tickle.Reader.Bitmap

/-! # What a RELIABLE reader has of one writer

`struct tt_WriterProxy`: the watermark, the datagrams recorded past it, and the highest one the writer announced. The
functions that move the watermark and those that build an ACKNACK, as the source has them; what the proxy's timers and
estimates do is left out.
-/

namespace Tickle

namespace Reader

open Bits Serial

structure WriterProxy where
  /-- `proxy_words`: the width of the Subscriber's tracking window. -/
  words : Nat
  ackSeqNo : SeqNo
  receivedBitmap : Words
  receivedWords : Nat
  heartbeatLastSeqNo : SeqNo
  highestDelivered : SeqNo
  /-- What `gap_abandoned` of the Subscriber has grown by for this writer. -/
  gapAbandoned : Nat
  /-- What `gap_evicted` has grown by for this writer. -/
  gapEvicted : Nat
  acknackScheduled : Bool
  collided : Bool
  collidedSeqNo : SeqNo

/-- A run of bit positions, both inclusive. -/
structure AcknackSkip where
  lowBit : Int
  highBit : Int

/-- The ACKNACK submessage: its base and the words of its bitmap. -/
structure AckNack where
  seqNo : SeqNo
  bitmapWords : Nat
  bitmap : Words

namespace WriterProxy

/-- `proxy_window_bits`. -/
def windowBits (proxy : WriterProxy) : Nat := proxy.words * wordBits

/-- `find_or_create_writer_proxy`: a slot claimed for a writer not heard from before. -/
def create (words : Nat) : WriterProxy where
  words
  ackSeqNo := 1
  receivedBitmap := none_
  receivedWords := 0
  heartbeatLastSeqNo := 0
  highestDelivered := 0
  gapAbandoned := 0
  gapEvicted := 0
  acknackScheduled := false
  collided := false
  collidedSeqNo := 0

/-! ## The bitmap -/

/-- `proxy_mark_received`. -/
def markReceived (proxy : WriterProxy) (offset : Nat) : WriterProxy :=
  let word := offset / wordBits
  { proxy with
    receivedBitmap := bitmapSetBit proxy.receivedBitmap offset
    receivedWords := if proxy.receivedWords ≤ word then word + 1 else proxy.receivedWords }

/-- `proxy_clear_received`. -/
def clearReceived (proxy : WriterProxy) : WriterProxy :=
  { proxy with receivedBitmap := bitmapClear proxy.receivedBitmap proxy.words, receivedWords := 0 }

/-- The loop of `proxy_trim_received`. -/
def trimmed (bitmap : Words) : (words : Nat) → Nat
  | 0 => 0
  | words + 1 => if bitmap words = 0 then trimmed bitmap words else words + 1

/-- `proxy_trim_received`. -/
def trimReceived (proxy : WriterProxy) : WriterProxy :=
  { proxy with receivedWords := trimmed proxy.receivedBitmap proxy.receivedWords }

/-- `proxy_shift_received_one`. -/
def shiftReceivedOne (proxy : WriterProxy) : WriterProxy :=
  if proxy.receivedWords = 0 then proxy
  else trimReceived { proxy with receivedBitmap := bitmapShiftRightOne proxy.receivedBitmap proxy.receivedWords }

/-- `proxy_highest_received`. -/
def highestReceived (proxy : WriterProxy) : Int := bitmapHighestBit proxy.receivedBitmap proxy.receivedWords

/-- `received_in_first`. -/
def receivedInFirst (proxy : WriterProxy) (span : Nat) : Nat :=
  if span = 0 then 0
  else
    let mask := bitmapLowMask proxy.words
      (if proxy.windowBits ≤ span then (proxy.windowBits : Int) - 1 else (span : Int) - 1)
    ((List.range proxy.words).map fun word => popcount (proxy.receivedBitmap word &&& mask word)).sum

/-- Un-receiving a datagram nobody could hold: the end of `hold_for_reorder`. -/
def unreceive (proxy : WriterProxy) (seqNo : SeqNo) : WriterProxy :=
  let offset := steps proxy.ackSeqNo seqNo
  if offset < proxy.windowBits then
    trimReceived { proxy with receivedBitmap := bitmapClearBit proxy.receivedBitmap offset }
  else proxy

/-- One fragment of `large_unrecord`, which leaves the count of words as it is. -/
def unrecord (proxy : WriterProxy) (seqNo : SeqNo) : WriterProxy :=
  let offset := steps proxy.ackSeqNo seqNo
  if offset < proxy.windowBits then
    { proxy with receivedBitmap := bitmapClearBit proxy.receivedBitmap offset }
  else proxy

/-! ## The watermark -/

/-- `HIGHEST_DELIVERED_REACH`. -/
def highestDeliveredReach : Nat := 0x40000000

/-- `HEARTBEAT_STALE_LAG`. -/
def heartbeatStaleLag : Int := 0x800000

/-- `proxy_move_ack`. -/
def moveAck (proxy : WriterProxy) (ackSeqNo : SeqNo) : WriterProxy :=
  { proxy with
    heartbeatLastSeqNo :=
      if seqDelta proxy.heartbeatLastSeqNo proxy.ackSeqNo < 0 then ackSeqNo - 1 else proxy.heartbeatLastSeqNo
    highestDelivered :=
      if highestDeliveredReach ≤ steps proxy.highestDelivered (ackSeqNo - 1) then ackSeqNo - 1
      else proxy.highestDelivered
    ackSeqNo }

/-- `proxy_shift_received_one` and the step of the watermark with it. -/
def absorbOne (proxy : WriterProxy) : WriterProxy :=
  let shifted := proxy.shiftReceivedOne
  { shifted with ackSeqNo := shifted.ackSeqNo + 1 }

/-- The position at the watermark is recorded. -/
def lowestReceived (proxy : WriterProxy) : Bool := bitmapLowestBitSet proxy.receivedBitmap

/-- The loop that absorbs what is recorded right behind the watermark. A round empties the bitmap by a bit, so no more
rounds than the window has bits are needed. -/
def absorb (proxy : WriterProxy) : WriterProxy :=
  Loop.whileN lowestReceived absorbOne proxy.windowBits proxy

/-- `advance_ack_seq_no`. -/
def advanceAckSeqNo (proxy : WriterProxy) : WriterProxy :=
  absorb (shiftReceivedOne { proxy with ackSeqNo := proxy.ackSeqNo + 1 })

/-- `jump_ack_baseline`. -/
def jumpAckBaseline (proxy : WriterProxy) (seqNo : SeqNo) : WriterProxy :=
  let span := steps proxy.ackSeqNo seqNo
  let counted :=
    if seqDelta proxy.ackSeqNo seqNo < 0 then
      { proxy with gapAbandoned := proxy.gapAbandoned + (span - proxy.receivedInFirst span) }
    else proxy
  advanceAckSeqNo (clearReceived (counted.moveAck seqNo))

/-- The loop of `absorb_seq_span`, from the `i`-th seq_no of the span on: `left` more of them. -/
def absorbSeqSpanFrom (firstOffset : Nat) : (left i : Nat) → WriterProxy → WriterProxy
  | 0, _, proxy => proxy
  | left + 1, i, proxy =>
    if proxy.windowBits ≤ firstOffset + i then proxy
    else
      absorbSeqSpanFrom firstOffset left (i + 1)
        (if bitmapTestBit proxy.receivedBitmap (firstOffset + i) then proxy else proxy.markReceived (firstOffset + i))

/-- `absorb_seq_span`. -/
def absorbSeqSpan (proxy : WriterProxy) (firstOffset span : Nat) : WriterProxy :=
  absorbSeqSpanFrom firstOffset (span - 1) 1 proxy

/-- The bitmap of `advance_past_unavailable` put at a base `skipped` further: shifted, or a window and more away cleared. -/
def rebase (proxy : WriterProxy) (skipped : Nat) : WriterProxy :=
  if skipped < proxy.windowBits then
    trimReceived { proxy with receivedBitmap := bitmapShiftRight proxy.receivedBitmap proxy.words skipped }
  else proxy.clearReceived

/-- `advance_past_unavailable`. -/
def advancePastUnavailable (proxy : WriterProxy) (firstAvailableSeqNo : SeqNo) : WriterProxy :=
  if 0 ≤ seqDelta proxy.ackSeqNo firstAvailableSeqNo then proxy
  else
    let skipped := steps proxy.ackSeqNo firstAvailableSeqNo
    let counted := { proxy with gapEvicted := proxy.gapEvicted + (skipped - proxy.receivedInFirst skipped) }
    absorb ((counted.rebase skipped).moveAck firstAvailableSeqNo)

/-! ## ACKNACKs -/

/-- `highest_relevant_bit_from`. -/
def highestRelevantBitFrom (proxy : WriterProxy) (hbAhead : Int) : Int :=
  let highest := proxy.highestReceived
  if 0 ≤ hbAhead then
    let hbHighest : Int := if hbAhead.toNat < proxy.windowBits then hbAhead.toNat else proxy.windowBits - 1
    if hbHighest > highest then hbHighest else highest
  else highest

/-- `highest_relevant_bit`. -/
def highestRelevantBit (proxy : WriterProxy) : Int :=
  proxy.highestRelevantBitFrom (seqDelta proxy.heartbeatLastSeqNo proxy.ackSeqNo)

/-- One word of the request, less the runs skipped. -/
def requestWord (proxy : WriterProxy) (lowBit highBit : Int) (skips : List AcknackSkip) (word : Nat) : BitVec 64 :=
  skips.foldl (fun request skip => request &&& ~~~(bitmapRangeInWord word skip.lowBit skip.highBit))
    (~~~(proxy.receivedBitmap word) &&& bitmapLowMask proxy.words highBit word &&&
      ~~~(bitmapLowMask proxy.words (lowBit - 1) word))

/-- `send_acknack_skipping`: the message it encodes. -/
def sendAcknackSkipping (proxy : WriterProxy) (lowBit highBit : Int) (skips : List AcknackSkip) : AckNack :=
  let wireWords := if highBit < 0 then 0 else highBit.toNat / wordBits + 1
  let wireWords := if proxy.words < wireWords then proxy.words else wireWords
  { seqNo := proxy.ackSeqNo
    bitmapWords := wireWords
    bitmap := fun word => if word < wireWords then proxy.requestWord lowBit highBit skips word else 0 }

/-- `send_acknack_range`. -/
def sendAcknackRange (proxy : WriterProxy) (lowBit highBit : Int) : AckNack :=
  proxy.sendAcknackSkipping lowBit highBit []

/-- `send_acknack`. -/
def sendAcknack (proxy : WriterProxy) : AckNack := proxy.sendAcknackRange 0 proxy.highestRelevantBit

/-- The head of `maybe_arm_acknack_retry`: a HEARTBEAT long passed is pinned behind the watermark. With it, how far ahead
of the watermark the announced seq_no lies. -/
def pinStaleHeartbeat (proxy : WriterProxy) : WriterProxy × Int :=
  let hbAhead := seqDelta proxy.heartbeatLastSeqNo proxy.ackSeqNo
  if hbAhead < -heartbeatStaleLag then ({ proxy with heartbeatLastSeqNo := proxy.ackSeqNo - 1 }, -1)
  else (proxy, hbAhead)

/-- `maybe_arm_acknack_retry`, with the ACKNACK it sends: the timer is always got. -/
def maybeArmAcknackRetry (proxy : WriterProxy) : WriterProxy × Option AckNack :=
  let pinned := proxy.pinStaleHeartbeat
  if pinned.1.highestRelevantBitFrom pinned.2 < 0 then ({ pinned.1 with acknackScheduled := false }, none)
  else if pinned.1.acknackScheduled then (pinned.1, none)
  else ({ pinned.1 with acknackScheduled := true }, some pinned.1.sendAcknack)

/-- `names_any_open`. -/
def namesAnyOpen (proxy : WriterProxy) (highBit : Int) (skips : List AcknackSkip) : Bool :=
  (List.range proxy.words).any fun word =>
    word ≤ highBit.toNat / wordBits &&
      skips.foldl (fun open_ skip => open_ &&& ~~~(bitmapRangeInWord word skip.lowBit skip.highBit))
        (~~~(proxy.receivedBitmap word) &&& bitmapRangeInWord word 0 highBit) != 0

/-- `answer_ack_request`, with the runs `repairs_in_flight` finds. -/
def answerAckRequest (proxy : WriterProxy) (skips : List AcknackSkip) : List AckNack :=
  let highBit := proxy.highestRelevantBit
  if highBit < 0 then []
  else if proxy.namesAnyOpen highBit skips then [proxy.sendAcknackSkipping 0 highBit skips]
  else [proxy.sendAcknackRange 0 (-1)]

/-! ## Arrivals and HEARTBEATs -/

/-- `take_first_contact_baseline`. -/
def takeFirstContactBaseline (durable : Bool) (proxy : WriterProxy) (seqNo : SeqNo) : WriterProxy :=
  if durable ∧ steps proxy.ackSeqNo seqNo < proxy.windowBits then proxy else proxy.moveAck seqNo

/-- `struct new_gap_range`, when there is one. -/
structure NewGapRange where
  lowBit : Int
  highBit : Int

/-- `extend_gap_to_watermark`. -/
def extendGapToWatermark (proxy : WriterProxy) (newGap : NewGapRange) : WriterProxy × NewGapRange :=
  if seqDelta proxy.collidedSeqNo proxy.ackSeqNo < 0 then ({ proxy with collided := false }, newGap)
  else (proxy, { newGap with lowBit := 0 })

/-- `record_out_of_order_arrival`: whether the datagram is new, and the gap it opens. -/
def recordOutOfOrderArrival (proxy : WriterProxy) (offset : Nat) : WriterProxy × Bool × Option NewGapRange :=
  if bitmapTestBit proxy.receivedBitmap offset then (proxy, false, none)
  else
    let prevHighest := proxy.highestReceived
    (proxy.markReceived offset, true,
      if (offset : Int) > prevHighest + 1 then some ⟨prevHighest + 1, offset - 1⟩ else none)

/-- The middle of `update_reliable_ack`: a datagram at or past the watermark is recorded. -/
def recordArrival (proxy : WriterProxy) (seqNo : SeqNo) (span : Nat) : WriterProxy × Bool × Option NewGapRange :=
  if seqNo = proxy.ackSeqNo then ((proxy.absorbSeqSpan 0 span).advanceAckSeqNo, true, none)
  else
    let offset := steps proxy.ackSeqNo seqNo
    if offset < proxy.windowBits then
      let recorded := proxy.recordOutOfOrderArrival offset
      (recorded.1.absorbSeqSpan offset span, recorded.2)
    else (proxy.jumpAckBaseline seqNo, true, none)

/-- The end of `update_reliable_ack`: a gap that opens while the timer is armed is asked for at once. -/
def askForNewGap (proxy : WriterProxy) (retryAlreadyArmed : Bool) (newGap : Option NewGapRange) :
    WriterProxy × List AckNack :=
  match newGap with
  | none => (proxy, [])
  | some gap =>
    if retryAlreadyArmed then
      let extended := if proxy.collided then proxy.extendGapToWatermark gap else (proxy, gap)
      (extended.1, [extended.1.sendAcknackRange extended.2.lowBit extended.2.highBit])
    else (proxy, [])

/-- `update_reliable_ack` of a writer in contact already: whether the datagram may be delivered, and the ACKNACKs sent.
`span` is `rx_seq_span`. -/
def updateReliableAck (proxy : WriterProxy) (seqNo : SeqNo) (span : Nat) : WriterProxy × Bool × List AckNack :=
  if seqDelta seqNo proxy.ackSeqNo < 0 then (proxy, true, [])
  else
    let recorded := proxy.recordArrival seqNo span
    let armed := recorded.1.maybeArmAcknackRetry
    let asked := armed.1.askForNewGap recorded.1.acknackScheduled recorded.2.2
    (asked.1, recorded.2.1, armed.2.toList ++ asked.2)

/-- The oversized gap of `inform_subscriber_of_heartbeat`. -/
def jumpToAnnounced (proxy : WriterProxy) (lastSeqNo : SeqNo) : WriterProxy :=
  if 0 ≤ seqDelta lastSeqNo proxy.ackSeqNo ∧ proxy.windowBits ≤ steps proxy.ackSeqNo lastSeqNo then
    proxy.jumpAckBaseline lastSeqNo
  else proxy

/-- The end of `inform_subscriber_of_heartbeat`, from the monotonic guard on. -/
def noteAnnounced (proxy : WriterProxy) (lastSeqNo : SeqNo) (isFinal : Bool) (skips : List AcknackSkip) :
    WriterProxy × List AckNack :=
  let noted :=
    if seqDelta proxy.heartbeatLastSeqNo lastSeqNo < 0 then { proxy with heartbeatLastSeqNo := lastSeqNo } else proxy
  let hadGap := 0 ≤ noted.highestRelevantBit
  let armed := noted.maybeArmAcknackRetry
  let answer :=
    if isFinal then [] else if ¬ hadGap then [armed.1.sendAcknack]
    else if noted.acknackScheduled then armed.1.answerAckRequest skips else []
  (armed.1, armed.2.toList ++ answer)

/-- `inform_subscriber_of_heartbeat` of a writer in contact already. -/
def informOfHeartbeat (proxy : WriterProxy) (firstAvailableSeqNo lastSeqNo : SeqNo) (isFinal : Bool)
    (skips : List AcknackSkip) : WriterProxy × List AckNack :=
  ((proxy.advancePastUnavailable firstAvailableSeqNo).jumpToAnnounced lastSeqNo).noteAnnounced lastSeqNo isFinal skips

/-- `note_declined`: a datagram the Subscriber has no room for counts as announced. -/
def noteDeclined (proxy : WriterProxy) (seqNo : SeqNo) : WriterProxy :=
  if seqDelta seqNo proxy.ackSeqNo < 0 then proxy
  else
    let noted :=
      if seqDelta proxy.heartbeatLastSeqNo seqNo < 0 then { proxy with heartbeatLastSeqNo := seqNo } else proxy
    { noted with acknackScheduled := true }

/-- The first contact through a HEARTBEAT. -/
def meetByHeartbeat (durable : Bool) (proxy : WriterProxy) (firstAvailableSeqNo lastSeqNo : SeqNo) (isFinal : Bool)
    (skips : List AcknackSkip) : WriterProxy × List AckNack :=
  ((proxy.moveAck (if durable then firstAvailableSeqNo else lastSeqNo + 1)).clearReceived).noteAnnounced lastSeqNo
    isFinal skips

end WriterProxy

end Reader

end Tickle
