import Tickle.Serial

/-! # Announces of a remote context

What a context keeps of one remote context: the endpoint list it announced, whether that list counts
as applied, the parts of a list still arriving, and which local Publishers and Clients have it as a
peer. Lists come whole or in parts, each under the generation of the list. The discovery table, the
peer tables and the ack tables have room.
-/

namespace Tickle

open Serial

abbrev Generation := SeqNo

/-- The generation on the wire: the sender's `last_modified`, nanoseconds cut to 32 bits. -/
def generationOf (lastModified : Nat) : Generation := BitVec.ofNat 32 lastModified

inductive EntityKind
  | topicPublisher
  | topicSubscriber
  | serviceClient
  | serviceServer
  | node
  deriving DecidableEq, Repr

/-- The bits of `tt_UpdateEntity.qos`. -/
structure UpdateQos where
  reliable : Bool
  durable : Bool
  livelinessManual : Bool
  keepAll : Bool
  deriving DecidableEq, Repr

/-- `struct tt_UpdateEntity` with its strings. -/
structure UpdateEntity where
  endpointId : Nat
  entityId : Nat
  kind : EntityKind
  nodeIndex : Nat
  qos : UpdateQos
  deadlineDuration : Nat
  livelinessLeaseDuration : Nat
  lifespanDuration : Nat
  historyDepth : Nat
  trackingWords : Nat
  type : String
  name : String
  deriving DecidableEq, Repr

/-- What the discovery table finds an entity of the context by. -/
def UpdateEntity.key (e : UpdateEntity) : Nat × Nat := (e.endpointId, e.entityId)

/-- `struct tt_DiscoveredEntity`. -/
structure DiscoveredEntity where
  announced : UpdateEntity
  alive : Bool
  lastAsserted : Nat
  deriving DecidableEq, Repr

/-- A local Publisher as matching reads it: what it offers, whether the context is in its `peers[]`,
and the context's entities in its `peer_acks[]`. -/
structure LocalPublisher where
  endpointId : Nat
  reliable : Bool
  durable : Bool
  livelinessManual : Bool
  deadlineDuration : Nat
  livelinessLeaseDuration : Nat
  peer : Bool
  acks : List Nat
  deriving DecidableEq, Repr

structure LocalClient where
  endpointId : Nat
  peer : Bool
  deriving DecidableEq, Repr

/-- One datagram of an announce: a part of the list, or all of it as part 0 of 1. `broken` is the
entity whose strings do not decode, after the ones that did. -/
structure Announce where
  generation : Generation
  fragIndex : Nat
  fragCount : Nat
  senderPort : Nat
  entities : List UpdateEntity
  broken : Option UpdateEntity
  deriving DecidableEq, Repr

/-- `tt_UPDATE_MAX_PARTS`. -/
def updateMaxParts : Nat := 32

/-- `ANNOUNCE_REORDER_WINDOW_NS`. -/
def announceReorderWindow : Nat := 1000000000

/-- The rows of a context's discovery state for one remote context. -/
structure RemoteContext where
  updateSeen : Bool
  updateReprocess : Bool
  updateGeneration : Generation
  updateApplied : Nat
  updateSenderPort : Nat
  updateLastSeen : Nat
  trafficLastSeen : Nat
  updatePartGeneration : Generation
  updatePartCount : Nat
  updatePartReceived : Finset Nat
  manual : Bool
  lapsed : Bool
  entities : List DiscoveredEntity
  publishers : List LocalPublisher
  clients : List LocalClient

/-- `deadline_liveliness_incompatible()`. -/
def deadlineLivelinessIncompatible (requestedDeadline offeredDeadline : Nat)
    (requestedManual offeredManual : Bool) (requestedLease offeredLease : Nat) : Bool :=
  if requestedDeadline ≠ 0 ∧ (offeredDeadline = 0 ∨ offeredDeadline > requestedDeadline) then true
  else if requestedManual && !offeredManual then true
  else requestedLease ≠ 0 && (offeredLease = 0 || offeredLease > requestedLease)

namespace LocalPublisher

/-- The RxO check of `register_subscriber_peer_on_publisher()`. -/
def incompatible (pub : LocalPublisher) (e : UpdateEntity) : Bool :=
  (e.qos.reliable && !pub.reliable) || (e.qos.durable && !pub.durable) ||
    deadlineLivelinessIncompatible e.deadlineDuration pub.deadlineDuration e.qos.livelinessManual
      pub.livelinessManual e.livelinessLeaseDuration pub.livelinessLeaseDuration

/-- The entity is a Subscriber of this Publisher's topic that it can serve. -/
def Matches (pub : LocalPublisher) (e : UpdateEntity) : Prop :=
  e.kind = .topicSubscriber ∧ pub.endpointId = e.endpointId ∧ pub.incompatible e = false

instance (pub : LocalPublisher) (e : UpdateEntity) : Decidable (pub.Matches e) :=
  inferInstanceAs (Decidable (_ ∧ _))

/-- `register_subscriber_peer_on_publisher()`. -/
def registerSubscriberPeer (e : UpdateEntity) (pub : LocalPublisher) : LocalPublisher :=
  if pub.incompatible e then pub
  else { pub with
    peer := true
    acks :=
      if pub.reliable ∧ e.entityId ≠ 0 ∧ e.entityId ∉ pub.acks then e.entityId :: pub.acks
      else pub.acks }

/-- `forget_publisher_peer()`. -/
def forgetPeer (preserveAck : Bool) (pub : LocalPublisher) : LocalPublisher :=
  { pub with peer := false, acks := if preserveAck then pub.acks else [] }

end LocalPublisher

/-- `upsert_discovered_entity()`: announced is alive. -/
def upsertDiscoveredEntity (now : Nat) (e : UpdateEntity) :
    List DiscoveredEntity → List DiscoveredEntity
  | [] => [⟨e, true, now⟩]
  | head :: rest =>
    if head.announced.key = e.key then ⟨e, true, now⟩ :: rest
    else head :: upsertDiscoveredEntity now e rest

namespace RemoteContext

/-- A context never heard of, with the local endpoints there are. -/
def unknown (publishers : List LocalPublisher) (clients : List LocalClient) : RemoteContext where
  updateSeen := false
  updateReprocess := false
  updateGeneration := 0
  updateApplied := 0
  updateSenderPort := 0
  updateLastSeen := 0
  trafficLastSeen := 0
  updatePartGeneration := 0
  updatePartCount := 0
  updatePartReceived := ∅
  manual := false
  lapsed := false
  entities := []
  publishers := publishers.map fun pub => { pub with peer := false, acks := [] }
  clients := clients.map fun client => { client with peer := false }

/-- `entity_asserts_manually()`. -/
def assertsManually (e : UpdateEntity) : Bool :=
  e.kind = .topicPublisher && e.qos.livelinessManual

/-- `refresh_liveliness_flags()`. -/
def refreshLivelinessFlags (c : RemoteContext) : RemoteContext :=
  let leased := c.entities.filter fun d => d.announced.livelinessLeaseDuration ≠ 0
  { c with
    manual := leased.any fun d => assertsManually d.announced
    lapsed := leased.any fun d => !d.alive && c.updateSeen }

/-- `update_parts_any()`. -/
def updatePartsAny (c : RemoteContext) : Bool := c.updatePartCount ≠ 0 && c.updatePartReceived ≠ ∅

/-- `update_parts_complete()`. -/
def updatePartsComplete (c : RemoteContext) (count : Nat) : Bool :=
  c.updatePartReceived = Finset.range count

/-- `discovery_generation_applied()`. -/
def discoveryGenerationApplied (c : RemoteContext) (generation : Generation) : Bool :=
  c.updateSeen && !c.updateReprocess && c.updateGeneration = generation

/-- `announce_superseded()`. -/
def announceSuperseded (c : RemoteContext) (now : Nat) (generation : Generation) : Bool :=
  if !c.updateSeen || c.updateGeneration = 0 then false
  else (generation = 0 || seqDelta generation c.updateGeneration < 0) &&
    now - c.updateApplied < announceReorderWindow

/-- `forget_peers_from_source()`. -/
def forgetPeersFromSource (c : RemoteContext) (preserveAck : Bool) : RemoteContext :=
  { c with
    publishers := c.publishers.map (LocalPublisher.forgetPeer preserveAck)
    clients := c.clients.map fun client => { client with peer := false } }

/-- `forget_discovered_entities_from_source()`. -/
def forgetDiscoveredEntities (c : RemoteContext) : RemoteContext :=
  { c with entities := [] }.refreshLivelinessFlags

/-- The peers an announced entity gives the local endpoints of its topic or service. -/
def registerPeers (c : RemoteContext) (e : UpdateEntity) : RemoteContext :=
  match e.kind with
  | .topicSubscriber => { c with
      publishers := c.publishers.map fun pub =>
        if pub.endpointId = e.endpointId then pub.registerSubscriberPeer e else pub }
  | .serviceServer => { c with
      clients := c.clients.map fun client =>
        if client.endpointId = e.endpointId then { client with peer := true } else client }
  | _ => c

/-- One round of `decode_update_entities()`. -/
def takeEntity (now : Nat) (c : RemoteContext) (e : UpdateEntity) : RemoteContext :=
  let c := c.registerPeers e
  { c with entities := upsertDiscoveredEntity now e c.entities }

/-- `decode_update_entities()`: an entity that does not decode has registered its peer already. -/
def decodeUpdateEntities (c : RemoteContext) (now : Nat) (a : Announce) : RemoteContext :=
  let c := a.entities.foldl (takeEntity now) c
  match a.broken with
  | none => c
  | some e => c.registerPeers e

/-- `drop_ack_state_for_unmatched_source()`. -/
def dropAckStateForUnmatched (c : RemoteContext) : RemoteContext :=
  { c with publishers := c.publishers.map fun pub => if pub.peer then pub else { pub with acks := [] } }

/-- The same id from another port, under another generation: another incarnation. -/
def newIncarnation (c : RemoteContext) (a : Announce) : Bool :=
  c.updateSeen && c.updateSenderPort ≠ 0 && a.senderPort ≠ 0 &&
    c.updateSenderPort ≠ a.senderPort && c.updateGeneration ≠ a.generation

/-- What of an announce changes nothing: an illegal part, the list acted on last, an older one. -/
def ignores (c : RemoteContext) (now : Nat) (a : Announce) : Bool :=
  a.fragCount < 1 || updateMaxParts < a.fragCount || a.fragCount ≤ a.fragIndex ||
    (!c.newIncarnation a &&
      (c.discoveryGenerationApplied a.generation || c.announceSuperseded now a.generation))

/-- The datagram begins a list: it is not one more part of the list under way. -/
def begins (c : RemoteContext) (a : Announce) : Bool :=
  a.fragCount = 1 || !c.updatePartsAny || c.updatePartGeneration ≠ a.generation ||
    c.updatePartCount ≠ a.fragCount

/-- A new list supersedes what the context announced before. -/
def beginList (c : RemoteContext) (a : Announce) : RemoteContext :=
  if c.begins a then
    { (c.forgetPeersFromSource true).forgetDiscoveredEntities with
      updatePartGeneration := a.generation
      updatePartCount := a.fragCount
      updatePartReceived := ∅ }
  else c

/-- The part's entities applied. -/
def absorb (c : RemoteContext) (now : Nat) (a : Announce) : RemoteContext :=
  ((c.beginList a).decodeUpdateEntities now a).refreshLivelinessFlags

def receive (c : RemoteContext) (now : Nat) (a : Announce) : RemoteContext :=
  let c := c.absorb now a
  { c with updatePartReceived := insert a.fragIndex c.updatePartReceived }

/-- The list is complete: it becomes the one acted on. -/
def finish (c : RemoteContext) (now : Nat) (a : Announce) : RemoteContext :=
  { c.dropAckStateForUnmatched with
    updatePartReceived := ∅
    updateSenderPort := a.senderPort
    updateGeneration := a.generation
    updateApplied := now
    updateSeen := true
    updateReprocess := false }

/-- Any announce, like any summary, refreshes its context's liveliness. -/
def heard (c : RemoteContext) (now : Nat) : RemoteContext := { c with updateLastSeen := now }

/-- `process_announce()`. -/
def processAnnounce (c : RemoteContext) (now : Nat) (a : Announce) : RemoteContext :=
  let c := c.heard now
  if c.ignores now a then c
  else if a.broken.isSome then c.absorb now a
  else
    let received := c.receive now a
    if received.updatePartsComplete a.fragCount then received.finish now a else received

/-- `process_discovery_summary()`; what it asks for comes as announces. -/
def processDiscoverySummary (c : RemoteContext) (now : Nat) : RemoteContext := c.heard now

end RemoteContext

end Tickle
