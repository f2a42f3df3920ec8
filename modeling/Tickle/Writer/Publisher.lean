import Tickle.Writer.Cache

/-! # A reliable Publisher

The acknowledgements of the matched Subscribers, KEEP_ALL's admission checks, and the three ways a
sample enters the retained cache: an ordinary publish, the publish of a claimed slot, and the copy of
a claim whose destination has changed. What the network does with a send is part of the call
(`Route`): the writer's own state depends only on whether it succeeded.
-/

namespace Tickle

open Serial Loop

/-- `struct tt_PeerAck` of one matched Subscriber: every seq_no below `ackSeqNo` is acknowledged.
`trackingWords` 0 announced no window. -/
structure PeerAck where
  contextId : Nat
  entityId : Nat
  ackSeqNo : SeqNo
  trackingWords : Nat
  deriving DecidableEq, Repr

/-- A slot claimed with `tt_Publisher_claim()`, by the payload it was returned as. -/
structure Claim where
  payload : Nat
  length : Nat
  deriving DecidableEq, Repr

/-- `struct tt_Publisher`, what publishing and acknowledging read and write. An unused entry of
`peer_acks[]` is `none`. -/
structure Publisher where
  seqNo : SeqNo
  reliable : Bool
  keepAll : Bool
  lifespanDuration : Nat
  reliableCache : ReliableCache
  peerAcks : List (Option PeerAck)
  blockedRecordBytes : Nat
  blockedDatagrams : Nat
  writablePending : Bool
  claims : List Claim
  claimsLimit : Nat

/-- What a Publisher is created with. `capacity` or `arenaSize` 0 asks for no cache. -/
structure PublisherOptions where
  reliable : Bool
  historyKeepAll : Bool
  historyDepth : Nat
  lifespanDuration : Nat
  capacity : Nat
  arenaSize : Nat
  arenaLimit : Nat
  assuredDatagrams : Nat
  assuredLen : Nat
  peers : Nat
  claimsLimit : Nat
  capacity_lt : capacity < 65536

/-- `node_create_publisher_qos_locked()`: KEEP_ALL is bounded in samples by nothing, it refuses. -/
def Publisher.create (opts : PublisherOptions) : Publisher where
  seqNo := 0
  reliable := opts.reliable
  keepAll := opts.historyKeepAll && opts.reliable
  lifespanDuration := opts.lifespanDuration
  reliableCache := { ReliableCache.init opts.capacity opts.arenaSize opts.capacity_lt with
    arenaLimit := opts.arenaLimit
    sampleDepth := if opts.historyKeepAll then 0 else opts.historyDepth % 65536
    depthAssuredDatagrams := if opts.historyKeepAll then 0 else opts.assuredDatagrams
    depthAssuredLen := if opts.historyKeepAll then 0 else opts.assuredLen }
  peerAcks := List.replicate opts.peers none
  blockedRecordBytes := 0
  blockedDatagrams := 0
  writablePending := false
  claims := []
  claimsLimit := opts.claimsLimit

/-- `tt_RELIABLE_BITMAP_BITS` and `tt_RELIABLE_BITMAP_WORD_BITS`. -/
def reliableBitmapBits : Nat := 256

def reliableBitmapWordBits : Nat := 64

/-- One round of `peer_ack_lowest()`. -/
def peerAckLower (lowest : Option SeqNo) (entry : Option PeerAck) : Option SeqNo :=
  match entry, lowest with
  | none, _ => lowest
  | some ack, none => some ack.ackSeqNo
  | some ack, some low => if seqDelta ack.ackSeqNo low < 0 then some ack.ackSeqNo else some low

/-- One round of `publisher_unacked_bound_locked()`: the narrowest announced window so far. -/
def narrowerWindow (bound : Option Nat) (entry : Option PeerAck) : Option Nat :=
  match entry with
  | none => bound
  | some ack =>
    let window := ack.trackingWords * reliableBitmapWordBits
    if window = 0 then bound
    else match bound with
      | none => some window
      | some b => if window < b then some window else some b

namespace Publisher

/-- `peer_ack_lowest()`: `none` with no Subscriber matched. -/
def peerAckLowest (pub : Publisher) : Option SeqNo := pub.peerAcks.foldl peerAckLower none

/-- `any_peer_ack_matched()`. -/
def anyPeerAckMatched (pub : Publisher) : Bool := pub.peerAcks.any Option.isSome

/-- `publisher_oldest_seq_no()` and `publisher_unacked_from()`: where the acknowledgeable history
begins. -/
def unackedFrom (pub : Publisher) : SeqNo :=
  if pub.reliableCache.ringDepth = 0 || !pub.reliableCache.retains then pub.seqNo + 1
  else pub.reliableCache.oldestSeqNo

/-- `publisher_unacked_bound_locked()`. -/
def unackedBound (pub : Publisher) : Nat :=
  (pub.peerAcks.foldl narrowerWindow none).getD reliableBitmapBits

/-- `keep_all_bound()`. -/
def keepAllBound (pub : Publisher) : Nat :=
  let depth := pub.reliableCache.ringDepth
  let window := pub.unackedBound
  if window < depth then window else depth

/-- `keep_all_acked_through()`: the lowest acknowledgement, rounded down to a whole sample. -/
def keepAllAckedThrough (pub : Publisher) : SeqNo :=
  let cache := pub.reliableCache
  let depth := cache.ringDepth
  let acked := pub.peerAckLowest.getD (pub.seqNo + 1) - 1
  if depth = 0 then acked
  else whileN (fun a => cache.recordContinues depth (a + 1)) (fun a => a - 1)
    (steps cache.oldestSeqNo cache.newestSeqNo + 1) acked

/-- `keep_all_writable()`. -/
def keepAllWritable (pub : Publisher) : Bool :=
  let cache := pub.reliableCache
  if !pub.keepAll || cache.ringDepth = 0 then true
  else if !pub.anyPeerAckMatched then true
  else
    let ackedThrough := pub.keepAllAckedThrough
    let datagrams := if pub.blockedDatagrams > 1 then pub.blockedDatagrams else 1
    if (plus pub.seqNo datagrams - ackedThrough).toNat > pub.keepAllBound then false
    else if pub.blockedRecordBytes ≠ 0 &&
        !cache.admits cache.ringDepth pub.blockedRecordBytes ackedThrough then false
    else true

/-- `keep_all_refused_record_bytes()`. -/
def keepAllRefusedRecordBytes (pub : Publisher) (node : Context) (cdr : List UInt8)
    (wholeLimit : Nat) : Nat :=
  if !pub.keepAll || !pub.anyPeerAckMatched then 0
  else
    let record := sampleCacheFootprint node cdr wholeLimit
    if pub.reliableCache.admits pub.reliableCache.ringDepth record pub.keepAllAckedThrough then 0
    else record

/-- `keep_all_refuses_encoded()`: whether KEEP_ALL refuses the encoded sample, and the Publisher with
what was refused. -/
def keepAllRefusesEncoded (pub : Publisher) (node : Context) (cdr : List UInt8)
    (wholeLimit : Nat) : Bool × Publisher :=
  let datagrams := sampleDatagramCount node cdr wholeLimit
  if datagrams > 1 && pub.keepAll && pub.reliableCache.ringDepth ≠ 0 && pub.anyPeerAckMatched &&
      (plus pub.seqNo datagrams - pub.keepAllAckedThrough).toNat > pub.keepAllBound then
    (true, { pub with blockedDatagrams := datagrams % 65536 })
  else
    let refused := pub.keepAllRefusedRecordBytes node cdr wholeLimit
    if refused ≠ 0 then (true, { pub with blockedRecordBytes := refused }) else (false, pub)

end Publisher

/-- What a publish meets outside the Publisher: `whole_record_limit_for()` its destinations, whether
`peers[]` has one at all, whether the sends succeeded, the sizes `cache_grow` reaches when it is
called, and whether the Publisher is still within its first announce interval. -/
structure Route where
  wholeToPeers : Nat
  matched : Bool
  sent : Bool
  growths : List Nat
  unmatchedWindow : Bool
  now : Nat

namespace ReliableCache

/-- `cache_grow` called until `enough`, or until it cannot; `false` when it could not. -/
def growUntil (enough : ReliableCache → Bool) : List Nat → ReliableCache → ReliableCache × Bool
  | [], cache => (cache, enough cache)
  | size :: sizes, cache =>
    if enough cache then (cache, true)
    else match cache.grow size with
      | none => (cache, false)
      | some grown => growUntil enough sizes grown

end ReliableCache

namespace Publisher

/-- `keep_all_room_before_match()`: no room is taken from samples nobody could acknowledge yet. -/
def keepAllRoomBeforeMatch (pub : Publisher) (node : Context) (cdr : List UInt8) (wholeLimit : Nat)
    (route : Route) : ReliableCache :=
  let cache := pub.reliableCache
  if pub.anyPeerAckMatched || !route.unmatchedWindow then cache
  else
    let footprint := sampleCacheFootprint node cdr wholeLimit
    (cache.growUntil (fun c => c.admits c.ringDepth footprint 0) route.growths).1

/-- `make_depth_room()`. -/
def makeDepthRoom (pub : Publisher) (node : Context) (cdr : List UInt8) (wholeLimit : Nat)
    (route : Route) (datagrams : Nat) : ReliableCache :=
  let cache := pub.reliableCache
  if pub.keepAll then pub.keepAllRoomBeforeMatch node cdr wholeLimit route
  else if cache.sampleDepth = 0 then cache
  else if datagrams = cache.depthAssuredDatagrams ∧
      dataFraming + cdr.length ≤ cache.depthAssuredLen then cache
  else
    let footprint := sampleCacheFootprint node cdr wholeLimit
    let grown := { cache with depthAssuredDatagrams := 0 }.growUntil
      (fun c => c.keepsDepth footprint) route.growths
    if grown.2 then grown.1
    else { grown.1 with depthShortfalls := grown.1.depthShortfalls + 1 }

/-- `check_and_cache_sample()`: the encoded sample into the cache, whole or as its fragments. -/
def checkAndCacheSample (pub : Publisher) (node : Context) (cdr : List UInt8) (wholeLimit : Nat)
    (route : Route) : ReliableCache :=
  let datagrams := sampleDatagramCount node cdr wholeLimit
  let roomy := pub.makeDepthRoom node cdr wholeLimit route datagrams
  if datagrams > 1 then
    roomy.cacheSampleFragments node cdr wholeLimit (pub.seqNo + 1) datagrams route.now
  else roomy.cacheReliableSample (pub.seqNo + 1) cdr route.now

end Publisher

/-- `tt_ret_t` of the calls modelled here. -/
inductive Ret
  | ok
  | wouldBlock
  | ioError
  | protocolError
  | illegalStatus
  | unsupported
  | invalidArgument
  | outOfBuffer
  deriving DecidableEq, Repr

namespace Publisher

/-- A refused publish: nothing is sent, cached or numbered. -/
def refused (pub : Publisher) : Publisher := { pub with writablePending := true }

/-- The cached sample's seq_nos taken, with nothing outstanding to re-ask about. -/
def cached (pub : Publisher) (cache : ReliableCache) : Publisher :=
  { pub with reliableCache := cache, blockedRecordBytes := 0, blockedDatagrams := 0 }

/-- `whole_limit` of a publish: a datagram's worth, or what every destination's slot takes. -/
def wholeLimit (node : Context) (route : Route) : Nat :=
  if route.wholeToPeers > node.fragWholeLimit then route.wholeToPeers else node.fragWholeLimit

/-- `publisher_publish_locked()` of a sample whose CDR is `cdr`. The seq_nos are those of the network
form, whatever form is cached. -/
def publish (pub : Publisher) (node : Context) (cdr : List UInt8) (route : Route) :
    Ret × Publisher :=
  if !pub.keepAllWritable then (.wouldBlock, pub.refused)
  else if cdr.length > node.maxSampleLength then (.protocolError, pub)
  else
    let asked := pub.keepAllRefusesEncoded node cdr node.fragWholeLimit
    if asked.1 then (.wouldBlock, asked.2.refused)
    else
      let seqSpan := sampleDatagramCount node cdr node.fragWholeLimit
      let kept := pub.cached (pub.checkAndCacheSample node cdr (wholeLimit node route) route)
      if !route.matched then (.ok, { kept with seqNo := plus pub.seqNo seqSpan })
      else if !route.sent then (.ioError, kept)
      else (.ok, { kept with seqNo := plus pub.seqNo seqSpan })

/-- `publisher_claim_locked()` of `capacity` bytes; `granted` is the payload of a free slot of a
destination that takes claims. -/
def claim (pub : Publisher) (node : Context) (capacity : Nat) (granted : Option Nat) :
    Ret × Publisher :=
  if pub.claims.length ≥ pub.claimsLimit then (.illegalStatus, pub)
  else if !pub.keepAllWritable then (.wouldBlock, pub.refused)
  else
    let cdr := List.replicate capacity 0
    if capacity > node.maxSampleLength ∨
        headerLength + recordLengthChecked cdr > node.fragWholeLimit ∨
        pub.keepAllRefusedRecordBytes node cdr node.fragWholeLimit ≠ 0 then (.unsupported, pub)
    else match granted with
      | none => (.unsupported, pub)
      | some payload => (.ok, { pub with claims := ⟨payload, capacity⟩ :: pub.claims })

/-- `claim_release()`. -/
def claimRelease (pub : Publisher) (payload : Nat) : Publisher :=
  { pub with claims := pub.claims.filter (fun c => c.payload ≠ payload) }

/-- `publisher_publish_claimed_locked()`: the claim's slot published where it lies, or by copy when
`moved` says its destination changed. -/
def publishClaimed (pub : Publisher) (node : Context) (payload : Nat) (cdr : List UInt8)
    (moved : Bool) (route : Route) : Ret × Publisher :=
  match pub.claims.find? (fun c => c.payload = payload) with
  | none => (.illegalStatus, pub)
  | some claim =>
    if cdr.length > claim.length then (.invalidArgument, pub.claimRelease payload)
    else if !pub.keepAllWritable then (.wouldBlock, pub.refused)
    else if moved then
      -- `publish_claim_by_copy()`: the slot is given back whatever the publish answers
      let copied := pub.publish node cdr route
      (copied.1, copied.2.claimRelease payload)
    else
      let kept := pub.cached (pub.checkAndCacheSample node cdr node.fragWholeLimit route)
      (.ok, { kept.claimRelease payload with seqNo := pub.seqNo + 1 })

/-- `publisher_abandon_claim_locked()`. -/
def abandonClaim (pub : Publisher) (payload : Nat) : Ret × Publisher :=
  match pub.claims.find? (fun c => c.payload = payload) with
  | none => (.illegalStatus, pub)
  | some _ => (.ok, pub.claimRelease payload)

/-- `find_peer_ack()` on one entry. -/
def isPeer (contextId entityId : Nat) (entry : Option PeerAck) : Bool :=
  entry.any (fun ack => ack.contextId = contextId && ack.entityId = entityId)

/-- The first unused entry taken. -/
def claimEntry (ack : PeerAck) : List (Option PeerAck) → List (Option PeerAck)
  | [] => []
  | none :: rest => some ack :: rest
  | some other :: rest => some other :: claimEntry ack rest

/-- `claim_peer_ack()` and the announced window: a matched Subscriber has acknowledged nothing the
Publisher still holds. -/
def claimPeerAck (pub : Publisher) (contextId entityId trackingWords : Nat) : Publisher :=
  if pub.peerAcks.any (isPeer contextId entityId) then pub
  else { pub with
    peerAcks := claimEntry ⟨contextId, entityId, pub.unackedFrom, trackingWords⟩ pub.peerAcks }

/-- `forget_peer_ack()`: one entity, or every one of the context. -/
def forgetPeerAck (pub : Publisher) (contextId : Nat) (entityId : Option Nat) : Publisher :=
  { pub with
    peerAcks := pub.peerAcks.map fun entry =>
      if entry.any (fun ack => ack.contextId = contextId && entityId.all (· = ack.entityId)) then none
      else entry }

/-- `record_peer_ack()` on one entry: only ever advances, serially. -/
def advanceAck (contextId entityId : Nat) (seqNo : SeqNo) (entry : Option PeerAck) : Option PeerAck :=
  entry.map fun ack =>
    if ack.contextId = contextId ∧ ack.entityId = entityId ∧ seqDelta ack.ackSeqNo seqNo < 0 then
      { ack with ackSeqNo := seqNo }
    else ack

/-- `record_peer_ack()`. -/
def recordPeerAck (pub : Publisher) (contextId entityId : Nat) (seqNo : SeqNo) : Publisher :=
  if entityId = 0 then pub
  else { pub with peerAcks := pub.peerAcks.map (advanceAck contextId entityId seqNo) }

/-- `notify_writable_if_pending()`; the callback's own calls are the application's next. -/
def notifyWritableIfPending (pub : Publisher) : Publisher :=
  if !pub.writablePending || !pub.keepAllWritable then pub else { pub with writablePending := false }

end Publisher

end Tickle
