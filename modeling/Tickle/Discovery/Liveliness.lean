import Tickle.Run
import Tickle.Discovery.Announce

/-! # Liveliness of a remote context's entities

Leases run out and traffic revives; a silent context is presumed dead. `RemoteContext.step` is
everything that happens to what is kept of one remote context, announces included.
-/

namespace Tickle

open Serial

namespace RemoteContext

/-- `source_last_heard()`. -/
def sourceLastHeard (c : RemoteContext) : Nat := max c.updateLastSeen c.trafficLastSeen

/-- `entity_lease_anchor()`. -/
def entityLeaseAnchor (c : RemoteContext) (d : DiscoveredEntity) : Nat :=
  if assertsManually d.announced then d.lastAsserted else c.sourceLastHeard

/-- `entity_within_lease()`. -/
def entityWithinLease (c : RemoteContext) (d : DiscoveredEntity) (now : Nat) : Bool :=
  let anchor := c.entityLeaseAnchor d
  now ≤ anchor || now - anchor ≤ d.announced.livelinessLeaseDuration

/-- `sibling_alive()`, asked once the entity itself is not alive any more. -/
def siblingAlive (c : RemoteContext) (e : UpdateEntity) : Bool :=
  c.entities.any fun d =>
    d.alive && d.announced.endpointId = e.endpointId && d.announced.kind = e.kind

/-- `forget_publisher_acks_for_entity()`. -/
def forgetPublisherAcksForEntity (c : RemoteContext) (endpointId entityId : Nat) : RemoteContext :=
  { c with
    publishers := c.publishers.map fun pub =>
      if pub.endpointId = endpointId then { pub with acks := pub.acks.filter (· ≠ entityId) }
      else pub }

/-- `forget_publisher_peers_for_endpoint()`. -/
def forgetPublisherPeersForEndpoint (c : RemoteContext) (endpointId : Nat) : RemoteContext :=
  { c with
    publishers := c.publishers.map fun pub =>
      if pub.endpointId = endpointId then pub.forgetPeer false else pub }

/-- `lapse_entity()` of the entity in `slot`: a sibling of its topic keeps the peer. -/
def lapseEntity (c : RemoteContext) (slot : Nat) (d : DiscoveredEntity) : RemoteContext :=
  let e := d.announced
  let c := { c with entities := c.entities.set slot { d with alive := false } }
  if e.kind = .topicSubscriber then
    if e.entityId ≠ 0 && c.siblingAlive e then c.forgetPublisherAcksForEntity e.endpointId e.entityId
    else c.forgetPublisherPeersForEndpoint e.endpointId
  else c

/-- The entity's lease has run out. -/
def expired (c : RemoteContext) (now : Nat) (d : DiscoveredEntity) : Bool :=
  d.alive && d.announced.livelinessLeaseDuration ≠ 0 && !c.entityWithinLease d now

/-- One round of `check_entity_leases()`. -/
def checkEntityLease (now : Nat) (c : RemoteContext) (slot : Nat) : RemoteContext :=
  match c.entities[slot]? with
  | none => c
  | some d => if c.expired now d then (c.lapseEntity slot d).refreshLivelinessFlags else c

/-- `check_entity_leases()`. -/
def checkEntityLeases (c : RemoteContext) (now : Nat) : RemoteContext :=
  (List.range c.entities.length).foldl (checkEntityLease now) c

/-- Traffic revives the entity: it lapsed, and is not one that asserts its liveliness itself. -/
def revivable (d : DiscoveredEntity) : Bool :=
  !d.alive && d.announced.livelinessLeaseDuration ≠ 0 && !assertsManually d.announced

/-- `revive_lapsed_entities()`. -/
def reviveLapsedEntities (c : RemoteContext) : RemoteContext :=
  if !c.updateSeen then c
  else { c with
    entities := c.entities.map fun d => if revivable d then { d with alive := true } else d
    }.refreshLivelinessFlags

/-- A datagram from the context, whatever it carries. -/
def traffic (c : RemoteContext) (now : Nat) : RemoteContext :=
  let c := { c with trafficLastSeen := now }
  if c.lapsed then c.reviveLapsedEntities else c

/-- `note_manual_assertion()`. -/
def noteManualAssertion (c : RemoteContext) (now endpointId entityId : Nat) : RemoteContext :=
  if !c.manual then c
  else
    let asserted (d : DiscoveredEntity) : Bool := d.announced.endpointId = endpointId &&
      d.announced.entityId = entityId && assertsManually d.announced
    let revived (d : DiscoveredEntity) : Bool :=
      !d.alive && d.announced.livelinessLeaseDuration ≠ 0 && c.updateSeen
    let noted := { c with
      entities := c.entities.map fun d =>
        if asserted d then { d with lastAsserted := now, alive := d.alive || revived d } else d }
    if c.entities.any fun d => asserted d && revived d then noted.refreshLivelinessFlags else noted

/-- `presume_node_dead()`. -/
def presumeNodeDead (c : RemoteContext) : RemoteContext :=
  { c.forgetPeersFromSource false with
    entities := c.entities.map fun d => { d with alive := false }
    updateSeen := false
    updateReprocess := false
    updateGeneration := 0
    updateLastSeen := 0
    updateSenderPort := 0
    trafficLastSeen := 0
    updatePartReceived := ∅
    manual := false
    lapsed := false }

/-- `reprocess_known_announces()`. -/
def reprocessKnownAnnounces (c : RemoteContext) : RemoteContext :=
  if c.updateSeen then { c with updateReprocess := true } else c

/-- `claim_from_acknack()` at the Publisher in `slot`; `departed` says the reader has just left. -/
def claimFromAcknack (c : RemoteContext) (slot entityId : Nat) (departed : Bool) : RemoteContext :=
  match c.publishers[slot]? with
  | none => c
  | some pub =>
    if !pub.reliable || entityId = 0 || entityId ∈ pub.acks then c
    else if c.entities.any fun d => d.announced.endpointId = pub.endpointId &&
        d.announced.entityId = entityId && !d.alive then c
    else if departed then c
    else { c with
      publishers := c.publishers.set slot { pub with peer := true, acks := entityId :: pub.acks } }

/-- What happens to what is kept of a remote context: its datagrams, the liveliness timer, and local
endpoints created. -/
inductive Event where
  | announce (now : Nat) (a : Announce)
  | summary (now : Nat)
  | data (now : Nat) (asserts : Option (Nat × Nat))
  | acknack (now slot entityId : Nat) (departed : Bool)
  | checkLeases (now : Nat)
  | presumeDead
  | createPublisher (pub : LocalPublisher)
  | createClient (client : LocalClient)
  | writerUnknown

def step (c : RemoteContext) : Event → RemoteContext
  | .announce now a => (c.traffic now).processAnnounce now a
  | .summary now => (c.traffic now).processDiscoverySummary now
  | .data now none => c.traffic now
  | .data now (some (endpointId, entityId)) =>
      (c.traffic now).noteManualAssertion now endpointId entityId
  | .acknack now slot entityId departed => (c.traffic now).claimFromAcknack slot entityId departed
  | .checkLeases now => c.checkEntityLeases now
  | .presumeDead => c.presumeNodeDead
  | .createPublisher pub =>
      { c with publishers := c.publishers ++ [{ pub with peer := false, acks := [] }]
        }.reprocessKnownAnnounces
  | .createClient client =>
      { c with clients := c.clients ++ [{ client with peer := false }] }.reprocessKnownAnnounces
  -- A Subscriber that meets a writer whose policies it does not know has its announce pulled again.
  | .writerUnknown => { c with updateReprocess := true }

/-- The state after a run. -/
def run (c : RemoteContext) (events : List Event) : RemoteContext := Run.after step c events

end RemoteContext

end Tickle
