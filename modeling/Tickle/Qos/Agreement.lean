import Tickle.Discovery.Parts
import Tickle.Qos.Profile

/-! # Both ends of a match

A Publisher's context decides from the Subscriber's announce whether to take it as a peer, the Subscriber's from the Publisher's
whether to take its DATA, and each reports the policy that fails. The three tests are written apart, over fields, announced
bits and durations; all of them decide `Serves`.
-/

namespace Tickle

namespace Qos

/-! ## Endpoints and their announces -/

/-- A Publisher or Subscriber, as it was created. -/
structure TopicEndpoint where
  id : Nat
  entityId : Nat
  nodeIndex : Nat
  actual : Profile
  trackingWords : Nat
  historyDepth : Nat
  type : String
  name : String
  deriving DecidableEq, Repr

/-- `endpoint_qos_bits()`. -/
def endpointQosBits (actual : Profile) : UpdateQos where
  reliable := actual.reliability.kind = .reliable
  durable := actual.durability = .transientLocal
  livelinessManual := actual.liveliness.kind = .manualByTopic
  keepAll := actual.history.kind = .keepAll

namespace TopicEndpoint

/-- What `encode_update_entities()` announces of the endpoint; `tracking_words` is a Subscriber's. -/
def entity (kind : EntityKind) (endpoint : TopicEndpoint) : UpdateEntity where
  endpointId := endpoint.id
  entityId := endpoint.entityId
  kind
  nodeIndex := endpoint.nodeIndex
  qos := endpointQosBits endpoint.actual
  deadlineDuration := toField endpoint.actual.deadline
  livelinessLeaseDuration := toField endpoint.actual.liveliness.lease
  lifespanDuration := toField endpoint.actual.lifespan
  historyDepth := endpoint.historyDepth
  trackingWords := if kind = .topicSubscriber then endpoint.trackingWords else 0
  type := endpoint.type
  name := endpoint.name

/-- The local Publisher is this one: its fields are those the profile gave it. -/
structure IsLocal (endpoint : TopicEndpoint) (pub : LocalPublisher) : Prop where
  endpointId : pub.endpointId = endpoint.id
  reliable : pub.reliable = (rxoOfProfile endpoint.actual).reliable
  durable : pub.durable = (rxoOfProfile endpoint.actual).durable
  manual : pub.livelinessManual = (rxoOfProfile endpoint.actual).manual
  deadline : pub.deadlineDuration = (rxoOfProfile endpoint.actual).deadline
  lease : pub.livelinessLeaseDuration = (rxoOfProfile endpoint.actual).lease

end TopicEndpoint

/-! ## The Subscriber's test -/

/-- `writer_qos_incompatible()`, of an entity that is there. -/
def writerQosIncompatible (sub : Rxo) (publisher : UpdateEntity) : Bool :=
  (sub.reliable && !publisher.qos.reliable) || (sub.durable && !publisher.qos.durable) ||
    deadlineLivelinessIncompatible sub.deadline publisher.deadlineDuration sub.manual publisher.qos.livelinessManual
      sub.lease publisher.livelinessLeaseDuration

/-- `subscriber_incompatible_with_writer()`, with the discovery table's rows of the writer's context: a writer not found there
passes. -/
def subscriberIncompatibleWithWriter (c : RemoteContext) (sub : Rxo) (endpointId entityId : Nat) : Bool :=
  match c.entities.find? fun d => d.announced.key = (endpointId, entityId) with
  | none => false
  | some d => writerQosIncompatible sub d.announced

/-! ## One relation -/

theorem deadlineLivelinessIncompatible_eq {requested offered : Rxo} :
    deadlineLivelinessIncompatible requested.deadline offered.deadline requested.manual offered.manual requested.lease
      offered.lease = false ↔
      Within offered.deadline requested.deadline ∧ (requested.manual = true → offered.manual = true) ∧
        Within offered.lease requested.lease := by
  unfold deadlineLivelinessIncompatible
  split
  next late =>
    rw [← not_within] at late
    simp [late]
  next met =>
    rw [← not_within, not_not] at met
    split
    next manual => simp_all
    next manual =>
      have lease : (decide (requested.lease ≠ 0) && (decide (offered.lease = 0) || decide (offered.lease > requested.lease))) =
          false ↔ Within offered.lease requested.lease := by
        rw [← not_iff_not, not_within]
        simp
        omega
      rw [lease]
      simp_all

/-- The fields compared one by one. -/
def refusedByFields (requested offered : Rxo) : Bool :=
  (requested.reliable && !offered.reliable) || (requested.durable && !offered.durable) ||
    deadlineLivelinessIncompatible requested.deadline offered.deadline requested.manual offered.manual requested.lease
      offered.lease

theorem refusedByFields_eq {requested offered : Rxo} : refusedByFields requested offered = false ↔ Serves offered requested := by
  unfold refusedByFields
  rw [Bool.or_eq_false_iff, Bool.or_eq_false_iff, deadlineLivelinessIncompatible_eq]
  constructor
  · rintro ⟨⟨reliable, durable⟩, deadline, manual, lease⟩
    exact ⟨by simpa using reliable, by simpa using durable, manual, deadline, lease⟩
  · intro serves
    have reliable := serves.reliable
    have durable := serves.durable
    exact ⟨⟨by simpa using reliable, by simpa using durable⟩, serves.deadline, serves.manual, serves.lease⟩

variable {pub sub : TopicEndpoint} {kind : EntityKind}

/-- The announce carries what the endpoint has. -/
theorem rxoOfAnnounce_entity (endpoint : TopicEndpoint) (kind : EntityKind) :
    rxoOfAnnounce (endpoint.entity kind).heard = rxoOfProfile endpoint.actual := rfl

theorem registers_iff {local_ : LocalPublisher} (own : pub.IsLocal local_) :
    local_.incompatible (sub.entity kind).heard = false ↔
      Serves (rxoOfProfile pub.actual) (rxoOfProfile sub.actual) := by
  rw [← refusedByFields_eq]
  unfold LocalPublisher.incompatible refusedByFields
  rw [own.reliable, own.durable, own.manual, own.deadline, own.lease]
  exact Iff.rfl

theorem refuses_iff :
    writerQosIncompatible (rxoOfProfile sub.actual) (pub.entity kind).heard = false ↔
      Serves (rxoOfProfile pub.actual) (rxoOfProfile sub.actual) :=
  @refusedByFields_eq (rxoOfProfile sub.actual) (rxoOfProfile pub.actual)

theorem judge_publisher_iff :
    judge .topicPublisher pub.actual (sub.entity kind).heard = .invalid ↔
      Serves (rxoOfProfile pub.actual) (rxoOfProfile sub.actual) := by
  unfold judge
  rw [if_pos rfl, rxoOfAnnounce_entity, incompatiblePolicy_invalid]

theorem judge_subscriber_iff :
    judge .topicSubscriber sub.actual (pub.entity kind).heard = .invalid ↔
      Serves (rxoOfProfile pub.actual) (rxoOfProfile sub.actual) := by
  unfold judge
  rw [if_neg (by decide), rxoOfAnnounce_entity, incompatiblePolicy_invalid]

/-! ## Two contexts -/

/-- The context has applied the announce of another, whose endpoints are `endpoints`: it was fed all of its datagrams, in some
order and perhaps repeatedly, when they were news to it. -/
structure HasApplied (host : ByteOrder) (node : Context) (sender : ByteOrder) (endpoints : List UpdateEntity)
    (c : RemoteContext) : Prop where
  fed : ∃ (room : Nat → Nat) (g : Generation) (datagrams : List Update.Datagram) (port : Nat)
    (padding : Update.Datagram → Cursor.Bytes) (c₀ : RemoteContext) (heard : List (Nat × Update.Datagram)),
    (∀ p, node.controlMax ≤ room p) ∧ Update.buildAndSendUpdate node sender room g endpoints = some datagrams ∧
      RemoteLists.News c₀ g (heard.map Prod.fst) ∧ (∀ h ∈ heard, h.2 ∈ datagrams) ∧
      (∀ d ∈ datagrams, d ∈ heard.map Prod.snd) ∧
      c = c₀.feed (Update.announces host (host ≠ sender) port padding heard)

/-- The endpoints of a context: what its announce can say, each with ids of its own, and every Subscriber one with a profile. -/
structure Announceable (node : Context) (endpoints : List UpdateEntity) : Prop where
  udp : node.controlMax ≤ 65507
  encodable : ∀ e ∈ endpoints, e.Encodable
  keys : (endpoints.map UpdateEntity.key).Nodup
  subscribers : ∀ e ∈ endpoints, e.kind = .topicSubscriber → ∃ s : TopicEndpoint, e = s.entity .topicSubscriber

variable {host sender : ByteOrder} {node : Context} {endpoints : List UpdateEntity} {c : RemoteContext}

theorem HasApplied.recorded (applied : HasApplied host node sender endpoints c) (list : Announceable node endpoints) :
    c.Recorded (· ∈ (Update.announced node endpoints).map UpdateEntity.heard) := by
  obtain ⟨room, g, datagrams, port, padding, c₀, heard, wide, sent, news, own, all, rfl⟩ := applied.fed
  have possible : Update.updateFitsSingle node endpoints = true ∨ Update.planUpdateParts node endpoints ≠ none := by
    by_contra neither
    rw [not_or, Bool.not_eq_true, not_not] at neither
    rw [Update.buildAndSendUpdate_unsent neither.1 neither.2] at sent
    cases sent
  obtain ⟨parts, datagrams', sent', carried⟩ := Update.buildAndSendUpdate_sent wide sender g possible
  rw [sent, Option.some_inj] at sent'
  subst sent'
  obtain ⟨complete, recorded⟩ := carried.feed (fun e he => list.encodable e (Update.announced_subset he))
    (fun e he => Update.announced_short list.udp he) (Update.announced_distinct list.keys) host port padding news own
  exact recorded (complete.mpr all)

/-- The table finds an announced entity by its ids. -/
theorem find_recorded {known : UpdateEntity → Prop} (recorded : c.Recorded known) {e : UpdateEntity} (there : known e) :
    ∃ d, c.entities.find? (fun d => d.announced.key = e.key) = some d ∧ d.announced = e := by
  obtain ⟨d, hd, same⟩ := List.mem_map.mp ((recorded.table e).mpr there)
  have found : (c.entities.find? fun d => d.announced.key = e.key).isSome = true := by
    rw [List.find?_isSome]
    exact ⟨d, hd, by simp [same]⟩
  obtain ⟨d', first⟩ := Option.isSome_iff_exists.mp found
  have key : d'.announced.key = d.announced.key := by
    have := List.find?_some first
    rw [same]
    simpa using this
  have once := List.inj_on_of_nodup_map recorded.once (List.mem_of_find?_eq_some first) hd key
  exact ⟨d', first, once ▸ same⟩

theorem takes_iff (recorded : c.Recorded (· ∈ (Update.announced node endpoints).map UpdateEntity.heard))
    (listed : pub.entity .topicPublisher ∈ Update.announced node endpoints) :
    subscriberIncompatibleWithWriter c (rxoOfProfile sub.actual) pub.id pub.entityId = false ↔
      Serves (rxoOfProfile pub.actual) (rxoOfProfile sub.actual) := by
  obtain ⟨d, found, same⟩ := find_recorded recorded (List.mem_map_of_mem listed)
  unfold subscriberIncompatibleWithWriter
  change (match c.entities.find? (fun d => d.announced.key = (pub.entity .topicPublisher).heard.key) with
    | none => false
    | some d => writerQosIncompatible (rxoOfProfile sub.actual) d.announced) = false ↔ _
  rw [found]
  dsimp only
  rw [same]
  exact refuses_iff

/-- What a context that never heard of the other makes of its announce of generation 7. -/
def acquainted (host sender : ByteOrder) (publishers : List LocalPublisher) (endpoints : List UpdateEntity) : RemoteContext :=
  (RemoteContext.unknown publishers []).feed (Update.announces host (host ≠ sender) 7400 (fun _ => [])
    (((Update.buildAndSendUpdate Publisher.smallLink sender (fun _ => 3000) 7 endpoints).getD []).map fun d => (5, d)))

theorem acquainted_hasApplied (host : ByteOrder) {sender : ByteOrder} (publishers : List LocalPublisher)
    {endpoints : List UpdateEntity} (fits : Update.updateFitsSingle Publisher.smallLink endpoints = true) :
    HasApplied host Publisher.smallLink sender endpoints (acquainted host sender publishers endpoints) := by
  have wide : ∀ p : Nat, Publisher.smallLink.controlMax ≤ (fun _ : Nat => 3000) p := fun _ => (by decide : 548 ≤ 3000)
  obtain ⟨parts, datagrams, sent, -⟩ := Update.buildAndSendUpdate_sent wide sender 7 (.inl fits)
  refine ⟨fun _ => 3000, 7, datagrams, 7400, fun _ => [], .unknown publishers [], datagrams.map fun d => (5, d), wide, sent,
    ⟨rfl, fun _ _ => rfl, .inl rfl⟩, ?_, ?_, ?_⟩
  · simp
  · simp
  · unfold acquainted
    rw [sent]
    rfl

def profileOf (deadline : Nat) : Profile where
  history := ⟨.keepLast, 10, 4096⟩
  reliability := ⟨.reliable, 4, 256, 0⟩
  durability := .volatile
  deadline := deadline
  lifespan := infinite
  liveliness := ⟨.automatic, infinite⟩

def talker : TopicEndpoint := ⟨1, 2, 0, profileOf 5, 0, 10, "", ""⟩

def listener : TopicEndpoint := ⟨1, 3, 0, profileOf 9, 4, 10, "", ""⟩

/-- The talker as its own context has it, with the listener's context a peer or not. -/
def talkerLocal (peer : Bool) (acks : List Nat) : LocalPublisher := ⟨1, true, false, false, 5, 0, peer, acks⟩

theorem talker_announceable : Announceable Publisher.smallLink [talker.entity .topicPublisher] where
  udp := by decide
  encodable := by
    intro e he
    rw [List.mem_singleton.mp he]
    exact ⟨by decide, by decide, by decide, by decide, by decide, by decide, by decide, by decide, by simp [TopicEndpoint.entity, talker],
      by simp [TopicEndpoint.entity, talker]⟩
  keys := by decide
  subscribers := by
    intro e he kind
    rw [List.mem_singleton.mp he] at kind
    cases kind

theorem listener_announceable : Announceable Publisher.smallLink [listener.entity .topicSubscriber] where
  udp := by decide
  encodable := by
    intro e he
    rw [List.mem_singleton.mp he]
    exact ⟨by decide, by decide, by decide, by decide, by decide, by decide, by decide, by decide,
      by simp [TopicEndpoint.entity, listener], by simp [TopicEndpoint.entity, listener]⟩
  keys := by decide
  subscribers := by
    intro e he _
    exact ⟨listener, List.mem_singleton.mp he⟩

end Qos

end Tickle
