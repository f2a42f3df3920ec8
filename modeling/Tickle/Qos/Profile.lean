import Tickle.Discovery.Announce

/-! # QoS profiles

What an endpoint asks for, what that resolves to at its creation, and when a Publisher's offer meets a Subscriber's request.
A profile has `infinite` for an unbounded duration; the fields of an endpoint and the announces have 0 (`toField`).
-/

namespace Tickle

namespace Qos

/-- `tt_QOS_DURATION_INFINITE`. -/
def infinite : Nat := 2 ^ 64 - 1

/-- `tt_QOS_DURATION_BEST_AVAILABLE`. -/
def bestAvailable : Nat := 2 ^ 64 - 2

/-- `tt_QOS_REORDER_NONE`. -/
def reorderNone : Nat := 2 ^ 16 - 1

/-- `tt_RELIABLE_BITMAP_WORDS`. -/
def bitmapWords : Nat := 4

/-- `tt_RELIABLE_BITMAP_MAX_WORDS`, without large samples. -/
def bitmapMaxWords : Nat := 64

inductive HistoryKind
  | systemDefault
  | keepLast
  | keepAll
  deriving DecidableEq, Repr

inductive ReliabilityKind
  | systemDefault
  | reliable
  | bestEffort
  | bestAvailable
  deriving DecidableEq, Repr

inductive DurabilityKind
  | systemDefault
  | volatile
  | transientLocal
  | bestAvailable
  deriving DecidableEq, Repr

inductive LivelinessKind
  | systemDefault
  | automatic
  | manualByTopic
  | bestAvailable
  deriving DecidableEq, Repr

/-- `struct tt_QosHistory`. -/
structure History where
  kind : HistoryKind
  depth : Nat
  bytes : Nat
  deriving DecidableEq, Repr

/-- `struct tt_QosReliability`. -/
structure Reliability where
  kind : ReliabilityKind
  trackingWords : Nat
  reorderSlots : Nat
  maxBlocking : Nat
  deriving DecidableEq, Repr

/-- `struct tt_QosLiveliness`. -/
structure Liveliness where
  kind : LivelinessKind
  lease : Nat
  deriving DecidableEq, Repr

/-- `struct tt_QosProfile`. -/
structure Profile where
  history : History
  reliability : Reliability
  durability : DurabilityKind
  deadline : Nat
  lifespan : Nat
  liveliness : Liveliness
  deriving DecidableEq, Repr

/-- `struct tt_QosDefaults`. -/
structure Defaults where
  depth : Nat
  keepAllDepth : Nat
  historyBytes : Nat
  keepAllBytes : Nat
  maxBlocking : Nat

/-- `struct tt_QosMatched`. -/
structure Matched where
  count : Nat
  allReliable : Bool
  allDurable : Bool
  allManual : Bool
  deadline : Nat
  lease : Nat
  deriving DecidableEq, Repr

/-! ## Resolution -/

/-- `qos_duration()`. -/
def duration (requested : Nat) : Nat := if requested = 0 then infinite else requested

/-- `qos_or_default()` and `qos_or_default64()`. -/
def orDefault (requested fallback : Nat) : Nat := if requested ≠ 0 then requested else fallback

/-- `qos_best_available_duration()`. -/
def bestAvailableDuration (matched : Matched) (value : Nat) : Nat :=
  if matched.count = 0 then infinite else duration value

/-- `qos_resolve_history()`. -/
def resolveHistory (requested : History) (defaults : Defaults) : Option History :=
  let kind : HistoryKind := if requested.kind = .keepAll then .keepAll else .keepLast
  if requested.depth > 2 ^ 16 - 1 then none
  else
    some
      { kind
        depth := orDefault requested.depth (if kind = .keepAll then defaults.keepAllDepth else defaults.depth)
        bytes := orDefault requested.bytes (if kind = .keepAll then defaults.keepAllBytes else defaults.historyBytes) }

/-- `qos_window_bits()`. -/
def windowBits (trackingWords : Nat) : Nat := trackingWords * 64

/-- `qos_reorder_too_narrow()`. -/
def reorderTooNarrow (slots trackingWords : Nat) : Bool := slots ≠ reorderNone && slots + 1 < windowBits trackingWords

/-- `kind & tt_KIND_SERVICE`. -/
def isService (kind : EntityKind) : Bool := kind = .serviceClient || kind = .serviceServer || kind = .node

/-- What a BEST_AVAILABLE policy takes: the strict choice, unless a Subscriber has seen a Publisher that does not offer
it. -/
def takesStrict (kind : EntityKind) (matched : Matched) (all : Bool) : Bool :=
  kind = .topicPublisher || matched.count = 0 || all

/-- The kind of `qos_resolve_reliability()`. -/
def resolveReliabilityKind (requested : ReliabilityKind) (kind : EntityKind) (matched : Matched) :
    Option ReliabilityKind :=
  match requested with
  | .systemDefault => some .reliable
  | .reliable => some .reliable
  | .bestEffort => some .bestEffort
  | .bestAvailable =>
    if isService kind then none
    else if takesStrict kind matched matched.allReliable then some .reliable
    else some .bestEffort

/-- `qos_resolve_reliability()`. -/
def resolveReliability (requested : Reliability) (kind : EntityKind) (matched : Matched) (defaults : Defaults) :
    Option Reliability :=
  match resolveReliabilityKind requested.kind kind matched with
  | none => none
  | some outKind =>
    if requested.trackingWords > bitmapMaxWords then none
    else
      let subscriber : Bool := kind = .topicSubscriber
      let trackingWords := if subscriber then orDefault requested.trackingWords bitmapWords else 0
      let slots := orDefault requested.reorderSlots (windowBits trackingWords)
      if subscriber && outKind = .reliable && reorderTooNarrow slots trackingWords then none
      else
        some
          { kind := outKind
            trackingWords
            reorderSlots := if subscriber && outKind = .reliable then slots % 2 ^ 16 else 0
            maxBlocking := if kind = .topicPublisher then orDefault requested.maxBlocking defaults.maxBlocking else 0 }

/-- `qos_resolve_durability()`. -/
def resolveDurability (requested : DurabilityKind) (kind : EntityKind) (matched : Matched) : Option DurabilityKind :=
  match requested with
  | .systemDefault => some .volatile
  | .volatile => some .volatile
  | .transientLocal => if isService kind then none else some .transientLocal
  | .bestAvailable =>
    if isService kind then none
    else if takesStrict kind matched matched.allDurable then some .transientLocal
    else some .volatile

/-- The kind of `qos_resolve_liveliness()`. -/
def resolveLivelinessKind (requested : LivelinessKind) (kind : EntityKind) (matched : Matched) : Option LivelinessKind :=
  match requested with
  | .systemDefault => some .automatic
  | .automatic => some .automatic
  | .manualByTopic => if isService kind then none else some .manualByTopic
  | .bestAvailable =>
    if isService kind then none
    else if takesStrict kind matched matched.allManual then some .manualByTopic
    else some .automatic

/-- `qos_resolve_liveliness()`: a lease below the floor is refused. -/
def resolveLiveliness (requested : Liveliness) (kind : EntityKind) (matched : Matched) (leaseFloor : Nat) :
    Option Liveliness :=
  match resolveLivelinessKind requested.kind kind matched with
  | none => none
  | some outKind =>
    let lease :=
      if requested.lease = bestAvailable then bestAvailableDuration matched matched.lease else duration requested.lease
    if lease < leaseFloor then none else some ⟨outKind, lease⟩

/-- `qos_profile_resolve()`: nothing for `tt_RET_INVALID_ARGUMENT`. -/
def profileResolve (defaults : Defaults) (requested : Profile) (kind : EntityKind) (matched : Matched)
    (leaseFloor : Nat) : Option Profile :=
  if kind = .node then none
  else do
    let history ← resolveHistory requested.history defaults
    let reliability ← resolveReliability requested.reliability kind matched defaults
    let durability ← resolveDurability requested.durability kind matched
    let liveliness ← resolveLiveliness requested.liveliness kind matched leaseFloor
    return {
      history
      reliability
      durability
      deadline :=
        if requested.deadline = bestAvailable then bestAvailableDuration matched matched.deadline
        else duration requested.deadline
      lifespan := duration requested.lifespan
      liveliness }

/-! ## What discovery shows -/

/-- `qos_match_one()`. -/
def matchOne (matched : Matched) (e : UpdateEntity) : Matched :=
  { matched with
    count := matched.count + 1
    allReliable := matched.allReliable && e.qos.reliable
    allDurable := matched.allDurable && e.qos.durable
    allManual := matched.allManual && e.qos.livelinessManual }

/-- `qos_bound()`. -/
def bound (takeMax : Bool) (old value : Nat) : Nat :=
  if takeMax then (if value > old then value else old) else if value < old then value else old

/-- One round of the loop of `qos_gather_matched()`, for an entity it does not pass over. -/
def gatherOne (takeMax : Bool) (matched : Matched) (e : UpdateEntity) : Matched :=
  { matchOne matched e with
    deadline := bound takeMax matched.deadline (orDefault e.deadlineDuration infinite)
    lease := bound takeMax matched.lease (orDefault e.livelinessLeaseDuration infinite) }

/-- The side opposite to a topic endpoint's. -/
def opposite (kind : EntityKind) : EntityKind :=
  if kind = .topicSubscriber then .topicPublisher else .topicSubscriber

/-- The entities `qos_gather_matched()` does not pass over. -/
def seen (entities : List DiscoveredEntity) (kind : EntityKind) (topicName : String) : List UpdateEntity :=
  (entities.filter fun d => d.alive && d.announced.kind = opposite kind && d.announced.name = topicName).map
    DiscoveredEntity.announced

/-- `qos_gather_matched()`, of the slots in use of the discovery table. -/
def gatherMatched (entities : List DiscoveredEntity) (kind : EntityKind) (topicName : String) : Matched :=
  if kind = .topicPublisher ∨ kind = .topicSubscriber then
    let takeMax : Bool := kind = .topicSubscriber
    let start := if takeMax then 0 else infinite
    (seen entities kind topicName).foldl (gatherOne takeMax) ⟨0, true, true, true, start, start⟩
  else ⟨0, true, true, true, 0, 0⟩

/-! ## A request and an offer -/

/-- `struct qos_rxo`: a duration 0 is infinite. -/
structure Rxo where
  reliable : Bool
  durable : Bool
  manual : Bool
  deadline : Nat
  lease : Nat
  deriving DecidableEq, Repr

/-- `enum tt_QosPolicyKind`. -/
inductive PolicyKind
  | invalid
  | reliability
  | durability
  | deadline
  | liveliness
  deriving DecidableEq, Repr

/-- `qos_incompatible_policy()`. -/
def incompatiblePolicy (requested offered : Rxo) : PolicyKind :=
  if requested.reliable && !offered.reliable then .reliability
  else if requested.durable && !offered.durable then .durability
  else if requested.deadline ≠ 0 ∧ (offered.deadline = 0 ∨ offered.deadline > requested.deadline) then .deadline
  else if (requested.manual && !offered.manual) = true ∨
      (requested.lease ≠ 0 ∧ (offered.lease = 0 ∨ offered.lease > requested.lease)) then .liveliness
  else .invalid

/-- `qos_rxo_of_announce()`. -/
def rxoOfAnnounce (e : UpdateEntity) : Rxo :=
  ⟨e.qos.reliable, e.qos.durable, e.qos.livelinessManual, e.deadlineDuration, e.livelinessLeaseDuration⟩

/-- `qos_to_field()`. -/
def toField (duration : Nat) : Nat := if duration = infinite then 0 else duration

/-- `qos_rxo_of_endpoint()` of an endpoint created with the actual profile: its fields are the profile's. -/
def rxoOfProfile (actual : Profile) : Rxo where
  reliable := actual.reliability.kind = .reliable
  durable := actual.durability = .transientLocal
  manual := actual.liveliness.kind = .manualByTopic
  deadline := toField actual.deadline
  lease := toField actual.liveliness.lease

/-- A local endpoint of `kind` with the profile, and an announced one of the other side: the policy that fails. -/
def judge (kind : EntityKind) (actual : Profile) (e : UpdateEntity) : PolicyKind :=
  if kind = .topicPublisher then incompatiblePolicy (rxoOfAnnounce e) (rxoOfProfile actual)
  else incompatiblePolicy (rxoOfProfile actual) (rxoOfAnnounce e)

/-! ## The relation they decide -/

/-- A duration offered is as short as the one requested, 0 being infinite. -/
def Within (offered requested : Nat) : Prop := requested = 0 ∨ (offered ≠ 0 ∧ offered ≤ requested)

/-- The offer meets the request, policy by policy. -/
structure Serves (offered requested : Rxo) : Prop where
  reliable : requested.reliable = true → offered.reliable = true
  durable : requested.durable = true → offered.durable = true
  manual : requested.manual = true → offered.manual = true
  deadline : Within offered.deadline requested.deadline
  lease : Within offered.lease requested.lease

theorem not_within {offered requested : Nat} :
    ¬ Within offered requested ↔ requested ≠ 0 ∧ (offered = 0 ∨ offered > requested) := by
  unfold Within
  omega

/-- No policy is named exactly when the offer meets the request. -/
theorem incompatiblePolicy_invalid {requested offered : Rxo} :
    incompatiblePolicy requested offered = .invalid ↔ Serves offered requested := by
  unfold incompatiblePolicy
  constructor
  · intro named
    split at named
    · cases named
    next reliable =>
    split at named
    · cases named
    next durable =>
    split at named
    · cases named
    next deadline =>
    split at named
    · cases named
    next liveliness =>
    rw [← not_within, not_not] at deadline
    rw [← not_within, not_or, not_not] at liveliness
    exact ⟨by simpa using reliable, by simpa using durable, by simpa using liveliness.1, deadline, liveliness.2⟩
  · intro serves
    have reliable := serves.reliable
    have durable := serves.durable
    have manual := serves.manual
    rw [if_neg (by simpa using reliable), if_neg (by simpa using durable), if_neg, if_neg]
    · rw [← not_within, not_or, not_not]
      exact ⟨by simpa using manual, serves.lease⟩
    · rw [← not_within, not_not]
      exact serves.deadline

end Qos

end Tickle
