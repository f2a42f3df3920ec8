import Tickle.Qos.BestAvailable

/-! # The compatibility verdict

`rmw_qos_profile_check_compatible()` says from two profiles alone whether endpoints created from them will connect. Core connects by what
the profiles resolved to when the endpoints were created, each against what discovery knew then. The verdict goes wrong in two ways. A
MANUAL_BY_TOPIC publisher without a lease is given one at its creation, which the verdict takes for infinite; and a BEST_AVAILABLE
deadline or lease of a subscription is taken to be met by every publisher, where it is settled by those known at its creation.
-/

namespace Tickle

namespace Rmw

open Qos

/-! ## Profiles of rmw -/

/-- `rmw_qos_history_policy_t`. -/
inductive RmwHistory
  | systemDefault
  | keepLast
  | keepAll
  | unknown
  deriving DecidableEq, Repr

/-- `rmw_qos_reliability_policy_t`. -/
inductive RmwReliability
  | systemDefault
  | reliable
  | bestEffort
  | unknown
  | bestAvailable
  deriving DecidableEq, Repr

/-- `rmw_qos_durability_policy_t`. -/
inductive RmwDurability
  | systemDefault
  | transientLocal
  | volatile
  | unknown
  | bestAvailable
  deriving DecidableEq, Repr

/-- `rmw_qos_liveliness_policy_t`. -/
inductive RmwLiveliness
  | systemDefault
  | automatic
  | manualByTopic
  | unknown
  | bestAvailable
  deriving DecidableEq, Repr

/-- What is used of rmw itself: its times with their `rmw_time_total_nsec()` and `rmw_time_equal()`, its sentinels, and the names it
has for the policies. -/
structure RmwApi (Time : Type*) where
  /-- An `rmw_duration_t`, of 64 bits with a sign. -/
  totalNsec : Time → BitVec 64
  equal : Time → Time → Bool
  /-- `RMW_DURATION_UNSPECIFIED`, and the default of the lease. -/
  unspecified : Time
  /-- `RMW_DURATION_INFINITE`. -/
  infinite : Time
  deadlineBestAvailable : Time
  leaseBestAvailable : Time
  reliabilityToStr : RmwReliability → Option String
  durabilityToStr : RmwDurability → Option String
  livelinessToStr : RmwLiveliness → Option String
  unspecified_not_bestAvailable : ∀ time, equal time unspecified = true → equal time leaseBestAvailable = false

/-- `rmw_qos_profile_t`. -/
structure RmwProfile (Time : Type*) where
  history : RmwHistory
  depth : Nat
  reliability : RmwReliability
  durability : RmwDurability
  deadline : Time
  lifespan : Time
  liveliness : RmwLiveliness
  livelinessLeaseDuration : Time

/-- `rmw_tickle_entity_kind_t`. -/
inductive RmwEntityKind
  | publisher
  | subscription
  | serviceOrClient
  deriving DecidableEq, Repr

/-- `rmw_tickle_qos_extensions_t`. -/
structure QosExtensions where
  depth : Nat
  historyBytes : Nat
  maxBlocking : Nat
  trackingWords : Nat
  reorderSlots : Nat
  manualDefaultLease : Nat

/-- What an endpoint's creation reads of its context: the defaults, and `tt_InitOptions.discovery`, which `validate_discovery_options()`
has passed. -/
structure CreationContext where
  defaults : Defaults
  updateInterval : Nat
  txInterval : Nat
  missThreshold : Nat
  leaseDivisor : Nat
  updateInterval_le : updateInterval ≤ 86400 * 10 ^ 9
  txInterval_le : txInterval ≤ 86400 * 10 ^ 9
  missThreshold_le : missThreshold ≤ 255
  leaseDivisor_le : leaseDivisor ≤ 255

/-- `rmw_tickle_lease_floor_ns()`. -/
def CreationContext.leaseFloor (context : CreationContext) : Nat := context.leaseDivisor * context.txInterval

/-- `rmw_tickle_node_silence_ns()`. -/
def CreationContext.nodeSilence (context : CreationContext) : Nat := context.missThreshold * context.updateInterval

/-- `rmw_tickle_node_silence_ns()` without a context. -/
def defaultNodeSilence : Nat := 3 * 10 ^ 9

section Api

variable {Time : Type*} (api : RmwApi Time)

/-- `rmw_tickle_validate_qos_profile_for()`, of a publisher's or a subscription's profile. -/
def validateQosProfile (qos : RmwProfile Time) (leaseFloor : Nat) : Bool :=
  qos.reliability ≠ .unknown && qos.durability ≠ .unknown && qos.liveliness ≠ .unknown &&
    (api.equal qos.livelinessLeaseDuration api.unspecified || api.equal qos.livelinessLeaseDuration api.infinite ||
      (BitVec.ofNat 64 leaseFloor).toInt ≤ (api.totalNsec qos.livelinessLeaseDuration).toInt)

/-- `duration_to_tt()`, with the sentinel of a policy that has one. -/
def durationToTt (duration : Time) (bestAvailable : Option Time) : Nat :=
  if bestAvailable.any (api.equal duration) then Qos.bestAvailable
  else if api.equal duration api.unspecified || api.equal duration api.infinite then Qos.infinite
  else if 0 < (api.totalNsec duration).toInt then (api.totalNsec duration).toNat
  else Qos.infinite

def reliabilityToTt : RmwReliability → ReliabilityKind
  | .reliable => .reliable
  | .bestEffort => .bestEffort
  | .bestAvailable => .bestAvailable
  | .systemDefault => .systemDefault
  | .unknown => .systemDefault

def durabilityToTt : RmwDurability → DurabilityKind
  | .volatile => .volatile
  | .transientLocal => .transientLocal
  | .bestAvailable => .bestAvailable
  | .systemDefault => .systemDefault
  | .unknown => .systemDefault

def livelinessToTt : RmwLiveliness → LivelinessKind
  | .automatic => .automatic
  | .manualByTopic => .manualByTopic
  | .bestAvailable => .bestAvailable
  | .systemDefault => .systemDefault
  | .unknown => .systemDefault

/-- A publisher that is to assert its liveliness by a lease it does not name. -/
def leaseUnnamed (qos : RmwProfile Time) (kind : RmwEntityKind) : Bool :=
  kind = .publisher && qos.liveliness = .manualByTopic && api.equal qos.livelinessLeaseDuration api.unspecified

/-- `rmw_tickle_qos_to_tt()`. -/
def qosToTt (qos : RmwProfile Time) (kind : RmwEntityKind) (extensions : QosExtensions) : Profile :=
  let keepAll : Bool := qos.history = .keepAll
  let depth := if keepAll || qos.depth = 0 then extensions.depth else qos.depth
  let counted := if kind ≠ .publisher ∧ depth > 2 ^ 16 - 1 then 2 ^ 16 - 1 else depth
  { history :=
      { kind := if keepAll then .keepAll else .keepLast
        depth := if counted > 2 ^ 32 - 1 then 2 ^ 32 - 1 else counted
        bytes := extensions.historyBytes }
    reliability :=
      { kind := reliabilityToTt qos.reliability
        trackingWords := extensions.trackingWords
        reorderSlots := extensions.reorderSlots
        maxBlocking := if kind = .publisher then extensions.maxBlocking else 0 }
    durability := durabilityToTt qos.durability
    deadline := durationToTt api qos.deadline (some api.deadlineBestAvailable)
    lifespan := durationToTt api qos.lifespan none
    liveliness :=
      { kind := livelinessToTt qos.liveliness
        lease :=
          if leaseUnnamed api qos kind then
            if extensions.manualDefaultLease ≠ 0 then extensions.manualDefaultLease else defaultNodeSilence
          else durationToTt api qos.livelinessLeaseDuration (some api.leaseBestAvailable) } }

/-! ## The verdict -/

/-- `struct qos_reasons`: what is written of a text of `size - 1` characters at most. -/
structure QosReasons where
  text : List Char
  size : Nat

/-- `qos_reason_append()`. -/
def QosReasons.append (reasons : QosReasons) (text : String) : QosReasons :=
  if reasons.size = 0 ∨ reasons.size - 1 ≤ reasons.text.length then reasons
  else { reasons with text := (reasons.text ++ text.toList).take (reasons.size - 1) }

/-- `struct qos_findings`. -/
structure QosFindings where
  errors : QosReasons
  warnings : QosReasons
  error : Bool
  warning : Bool

namespace QosFindings

def addError (findings : QosFindings) (text : String) : QosFindings :=
  { findings with error := true, errors := findings.errors.append text }

def addWarning (findings : QosFindings) (text : String) : QosFindings :=
  { findings with warning := true, warnings := findings.warnings.append text }

/-- `kind_findings()`. -/
def kindFindings (findings : QosFindings) (error pubUnknown subUnknown pubWeak subStrong : Bool) (errorText name : String)
    (pubStr subStr : Option String) : QosFindings :=
  if error then findings.addError errorText
  else if (pubUnknown && subUnknown) || (pubUnknown && subStrong) || (pubWeak && subUnknown) then
    findings.addWarning ("WARNING: Publisher " ++ name ++ " is " ++ pubStr.getD "unknown" ++ " and subscription " ++ name ++ " is " ++
      subStr.getD "unknown" ++ ";")
  else findings

/-- `duration_findings()`, of the durations for core. -/
def durationFindings (findings : QosFindings) (offered requested : Nat) (name : String) : QosFindings :=
  if requested = Qos.bestAvailable ∨ requested = Qos.infinite then findings
  else if offered = Qos.bestAvailable then
    findings.addWarning ("WARNING: Publisher " ++ name ++ " is best available, subscription requests one;")
  else if offered = Qos.infinite then
    findings.addError ("ERROR: Subscription requests a " ++ name ++ ", publisher offers none;")
  else if offered > requested then findings.addError ("ERROR: Subscription " ++ name ++ " is shorter than the publisher's;")
  else findings

end QosFindings

/-- `reliability_unknown()`. -/
def reliabilityUnknown (kind : RmwReliability) : Bool := kind = .systemDefault || kind = .unknown || kind = .bestAvailable

/-- `durability_unknown()`. -/
def durabilityUnknown (kind : RmwDurability) : Bool := kind = .systemDefault || kind = .unknown || kind = .bestAvailable

/-- `liveliness_unknown()`. -/
def livelinessUnknown (kind : RmwLiveliness) : Bool := kind = .systemDefault || kind = .unknown || kind = .bestAvailable

/-- `rmw_qos_compatibility_type_t`. -/
inductive Compatibility
  | ok
  | warning
  | error
  deriving DecidableEq, Repr

/-- The findings of `rmw_qos_profile_check_compatible()`, policy by policy. -/
def compatibleFindings (pub sub : RmwProfile Time) (reasonSize : Nat) : QosFindings :=
  let start : QosFindings := ⟨⟨[], reasonSize⟩, ⟨[], 512⟩, false, false⟩
  let weak : Bool := pub.reliability = .bestEffort
  let strong : Bool := sub.reliability = .reliable
  let reliability := start.kindFindings (weak && strong) (reliabilityUnknown pub.reliability) (reliabilityUnknown sub.reliability) weak
    strong "ERROR: Best effort publisher and reliable subscription;" "reliability" (api.reliabilityToStr pub.reliability)
    (api.reliabilityToStr sub.reliability)
  let weakDurability : Bool := pub.durability = .volatile
  let strongDurability : Bool := sub.durability = .transientLocal
  let durability := reliability.kindFindings (weakDurability && strongDurability) (durabilityUnknown pub.durability)
    (durabilityUnknown sub.durability) weakDurability strongDurability "ERROR: Volatile publisher and transient local subscription;"
    "durability" (api.durabilityToStr pub.durability) (api.durabilityToStr sub.durability)
  let deadline := durability.durationFindings (durationToTt api pub.deadline (some api.deadlineBestAvailable))
    (durationToTt api sub.deadline (some api.deadlineBestAvailable)) "deadline"
  let weakLiveliness : Bool := pub.liveliness = .automatic
  let strongLiveliness : Bool := sub.liveliness = .manualByTopic
  let liveliness := deadline.kindFindings (weakLiveliness && strongLiveliness) (livelinessUnknown pub.liveliness)
    (livelinessUnknown sub.liveliness) weakLiveliness strongLiveliness
    "ERROR: Automatic liveliness publisher and manual by topic subscription;" "liveliness" (api.livelinessToStr pub.liveliness)
    (api.livelinessToStr sub.liveliness)
  liveliness.durationFindings (durationToTt api pub.livelinessLeaseDuration (some api.leaseBestAvailable))
    (durationToTt api sub.livelinessLeaseDuration (some api.leaseBestAvailable)) "liveliness lease duration"

/-- `rmw_qos_profile_check_compatible()`: the verdict and the reason. -/
def checkCompatible (pub sub : RmwProfile Time) (reasonSize : Nat) : Compatibility × List Char :=
  let findings := compatibleFindings api pub sub reasonSize
  (if findings.error then .error else if findings.warning then .warning else .ok,
    (findings.errors.append (String.ofList findings.warnings.text)).text)

/-! ## What core does -/

/-- A publisher created: the actual profile core resolves, with what discovery knows. -/
def createPublisher (context : CreationContext) (qos : RmwProfile Time) (depth : Nat) (extensions : QosExtensions)
    (entities : List DiscoveredEntity) (topicName : String) : Option Profile :=
  if validateQosProfile api qos context.leaseFloor then
    profileResolve context.defaults
      (qosToTt api { qos with depth } .publisher { extensions with manualDefaultLease := context.nodeSilence }) .topicPublisher
      (gatherMatched entities .topicPublisher topicName) context.leaseFloor
  else none

/-- A subscription created. -/
def createSubscription (context : CreationContext) (qos : RmwProfile Time) (depth : Nat) (extensions : QosExtensions)
    (entities : List DiscoveredEntity) (topicName : String) : Option Profile :=
  if validateQosProfile api qos context.leaseFloor then
    profileResolve context.defaults (qosToTt api { qos with depth } .subscription extensions) .topicSubscriber
      (gatherMatched entities .topicSubscriber topicName) context.leaseFloor
  else none

end Api

/-- Core connects the two. -/
def Connects (pub sub : Profile) : Prop := incompatiblePolicy (rxoOfProfile sub) (rxoOfProfile pub) = .invalid

instance (pub sub : Profile) : Decidable (Connects pub sub) := inferInstanceAs (Decidable (incompatiblePolicy _ _ = _))

/-! ## What a profile resolves to -/

/-- A duration settled at creation. -/
def resolvedDuration (matched : Matched) (requested shown : Nat) : Nat :=
  if requested = Qos.bestAvailable then bestAvailableDuration matched shown else duration requested

/-- What a topic endpoint requests or offers, with what discovery shows. -/
def resolvedRxo (requested : Profile) (kind : EntityKind) (matched : Matched) : Rxo where
  reliable :=
    match requested.reliability.kind with
    | .systemDefault => true
    | .reliable => true
    | .bestEffort => false
    | .bestAvailable => takesStrict kind matched matched.allReliable
  durable :=
    match requested.durability with
    | .systemDefault => false
    | .volatile => false
    | .transientLocal => true
    | .bestAvailable => takesStrict kind matched matched.allDurable
  manual :=
    match requested.liveliness.kind with
    | .systemDefault => false
    | .automatic => false
    | .manualByTopic => true
    | .bestAvailable => takesStrict kind matched matched.allManual
  deadline := toField (resolvedDuration matched requested.deadline matched.deadline)
  lease := toField (resolvedDuration matched requested.liveliness.lease matched.lease)

/-- The slots a RELIABLE Subscriber would get are not too few for its window. -/
def SlotsSuffice (requested : Reliability) : Prop :=
  let trackingWords := orDefault requested.trackingWords bitmapWords
  reorderTooNarrow (orDefault requested.reorderSlots (windowBits trackingWords)) trackingWords = false

/-- What core asks of a topic endpoint's profile. -/
structure Resolvable (requested : Profile) (kind : EntityKind) (matched : Matched) (leaseFloor : Nat) : Prop where
  depth : requested.history.depth ≤ 2 ^ 16 - 1
  words : requested.reliability.trackingWords ≤ bitmapMaxWords
  slots : kind = .topicSubscriber → (resolvedRxo requested kind matched).reliable = true →
    SlotsSuffice requested.reliability
  lease : leaseFloor ≤ resolvedDuration matched requested.liveliness.lease matched.lease

variable {defaults : Defaults} {requested : Profile} {kind : EntityKind} {matched : Matched} {leaseFloor : Nat}

theorem resolveReliabilityKind_topic (topic : isService kind = false) :
    resolveReliabilityKind requested.reliability.kind kind matched =
      some (if (resolvedRxo requested kind matched).reliable then .reliable else .bestEffort) := by
  unfold resolveReliabilityKind resolvedRxo
  cases requested.reliability.kind with
  | systemDefault => rfl
  | reliable => rfl
  | bestEffort => rfl
  | bestAvailable =>
    dsimp only
    rw [topic, if_neg (by decide)]
    split
    · rfl
    · rfl

theorem resolveDurability_topic (topic : isService kind = false) :
    resolveDurability requested.durability kind matched =
      some (if (resolvedRxo requested kind matched).durable then .transientLocal else .volatile) := by
  unfold resolveDurability resolvedRxo
  cases requested.durability with
  | systemDefault => rfl
  | volatile => rfl
  | transientLocal =>
    dsimp only
    rw [topic, if_neg (by decide), if_pos rfl]
  | bestAvailable =>
    dsimp only
    rw [topic, if_neg (by decide)]
    split
    · rfl
    · rfl

theorem resolveLivelinessKind_topic (topic : isService kind = false) :
    resolveLivelinessKind requested.liveliness.kind kind matched =
      some (if (resolvedRxo requested kind matched).manual then .manualByTopic else .automatic) := by
  unfold resolveLivelinessKind resolvedRxo
  cases requested.liveliness.kind with
  | systemDefault => rfl
  | automatic => rfl
  | manualByTopic =>
    dsimp only
    rw [topic, if_neg (by decide), if_pos rfl]
  | bestAvailable =>
    dsimp only
    rw [topic, if_neg (by decide)]
    split
    · rfl
    · rfl

theorem resolveReliability_topic (topic : isService kind = false) :
    (∀ out, resolveReliability requested.reliability kind matched defaults = some out →
        decide (out.kind = .reliable) = (resolvedRxo requested kind matched).reliable ∧
          requested.reliability.trackingWords ≤ bitmapMaxWords ∧
          (kind = .topicSubscriber → (resolvedRxo requested kind matched).reliable = true →
            SlotsSuffice requested.reliability)) ∧
      (requested.reliability.trackingWords ≤ bitmapMaxWords →
        (kind = .topicSubscriber → (resolvedRxo requested kind matched).reliable = true →
          SlotsSuffice requested.reliability) →
        (resolveReliability requested.reliability kind matched defaults).isSome) := by
  unfold resolveReliability SlotsSuffice
  rw [resolveReliabilityKind_topic topic]
  dsimp only
  by_cases words : requested.reliability.trackingWords > bitmapMaxWords
  · rw [if_pos words]
    exact ⟨fun out no => (by cases no), fun few => absurd few (by omega)⟩
  · rw [if_neg words]
    cases reliable : (resolvedRxo requested kind matched).reliable with
    | false =>
      simp only [Bool.false_eq_true, if_false, reduceCtorEq, decide_false, Bool.and_false, Bool.false_and, Option.some.injEq,
        Option.isSome_some]
      refine ⟨?_, fun _ _ => trivial⟩
      rintro out rfl
      exact ⟨by simp, by omega, fun _ no => by cases no⟩
    | true =>
      by_cases subscriber : kind = .topicSubscriber
      · simp only [subscriber, if_true, decide_true, Bool.and_true, Bool.true_and]
        split
        next narrow =>
          exact ⟨fun out no => (by cases no), fun _ wide => absurd (wide trivial trivial) (by simp [narrow])⟩
        next wide =>
          refine ⟨?_, fun _ _ => rfl⟩
          rintro out same
          cases same
          exact ⟨by simp, by omega, fun _ _ => by simpa using wide⟩
      · simp only [subscriber, decide_false, Bool.false_and, if_true, Bool.false_eq_true, if_false]
        refine ⟨?_, fun _ _ => rfl⟩
        rintro out same
        cases same
        exact ⟨by simp, by omega, fun no => no.elim⟩

theorem resolveLiveliness_topic (topic : isService kind = false) :
    resolveLiveliness requested.liveliness kind matched leaseFloor =
      if resolvedDuration matched requested.liveliness.lease matched.lease < leaseFloor then none
      else some ⟨if (resolvedRxo requested kind matched).manual then .manualByTopic else .automatic,
        resolvedDuration matched requested.liveliness.lease matched.lease⟩ := by
  unfold resolveLiveliness
  rw [resolveLivelinessKind_topic topic]
  rfl

/-- A topic endpoint's profile is refused, or resolves to what it is with what discovery shows. -/
theorem profileResolve_topic (topic : isService kind = false) :
    (∀ actual, profileResolve defaults requested kind matched leaseFloor = some actual →
        rxoOfProfile actual = resolvedRxo requested kind matched ∧ Resolvable requested kind matched leaseFloor) ∧
      (Resolvable requested kind matched leaseFloor → ∃ actual, profileResolve defaults requested kind matched leaseFloor = some actual) := by
  have notNode : kind ≠ .node := by
    rintro rfl
    cases topic
  obtain ⟨inverted, resolves⟩ := @resolveReliability_topic defaults requested kind matched topic
  unfold profileResolve
  rw [if_neg notNode, resolveDurability_topic topic, resolveLiveliness_topic topic]
  constructor
  · intro actual resolved
    simp only [Option.bind_eq_bind, Option.bind_eq_some_iff] at resolved
    obtain ⟨history, kept, reliability, reliable, durability, durable, liveliness, lively, same⟩ := resolved
    obtain ⟨kindly, words, slots⟩ := inverted reliability reliable
    have depth : requested.history.depth ≤ 2 ^ 16 - 1 := by
      unfold resolveHistory at kept
      by_contra deep
      dsimp only at kept
      rw [if_pos (by omega)] at kept
      cases kept
    by_cases low : resolvedDuration matched requested.liveliness.lease matched.lease < leaseFloor
    · rw [if_pos low] at lively
      cases lively
    · rw [if_neg low] at lively
      cases lively
      cases durable
      cases same
      refine ⟨?_, depth, words, slots, Nat.le_of_not_lt low⟩
      unfold rxoOfProfile
      dsimp only
      rw [kindly]
      cases manual : (resolvedRxo requested kind matched).manual <;> cases durable : (resolvedRxo requested kind matched).durable <;>
        simp [resolvedRxo, resolvedDuration] at manual durable ⊢ <;> simp [manual, durable]
  · intro resolvable
    have history : ∃ out, resolveHistory requested.history defaults = some out := by
      have depth := resolvable.depth
      unfold resolveHistory
      dsimp only
      rw [if_neg (by omega)]
      exact ⟨_, rfl⟩
    obtain ⟨history, kept⟩ := history
    obtain ⟨reliability, reliable⟩ := Option.isSome_iff_exists.mp (resolves resolvable.words resolvable.slots)
    rw [kept, reliable, if_neg (Nat.not_lt.mpr resolvable.lease)]
    exact ⟨_, rfl⟩

/-! ## What the verdict says -/

namespace QosFindings

variable {findings : QosFindings} {offered asked : Nat}

theorem kindFindings_flags (error pubUnknown subUnknown pubWeak subStrong : Bool) (errorText name : String)
    (pubStr subStr : Option String) :
    (findings.kindFindings error pubUnknown subUnknown pubWeak subStrong errorText name pubStr subStr).error = (findings.error || error) ∧
      (findings.kindFindings error pubUnknown subUnknown pubWeak subStrong errorText name pubStr subStr).warning =
        (findings.warning || (!error && ((pubUnknown && subUnknown) || (pubUnknown && subStrong) || (pubWeak && subUnknown)))) := by
  unfold kindFindings
  cases error with
  | true => exact ⟨(Bool.or_true _).symm, (Bool.or_false _).symm⟩
  | false =>
    rw [if_neg (by decide), Bool.or_false, Bool.not_false, Bool.true_and]
    split
    next found =>
      rw [found]
      exact ⟨rfl, (Bool.or_true _).symm⟩
    next none_ =>
      rw [Bool.not_eq_true] at none_
      rw [none_]
      exact ⟨rfl, (Bool.or_false _).symm⟩

/-- Nothing found so far. -/
def Quiet (findings : QosFindings) : Prop := findings.error = false ∧ findings.warning = false

/-- A kind policy that gives neither an error nor a warning. -/
def kindQuiet (pubUnknown subUnknown pubWeak subStrong : Bool) : Bool :=
  !(pubWeak && subStrong) && !((pubUnknown && subUnknown) || (pubUnknown && subStrong) || (pubWeak && subUnknown))

theorem kindFindings_quiet {pubUnknown subUnknown pubWeak subStrong : Bool} {errorText name : String} {pubStr subStr : Option String} :
    (findings.kindFindings (pubWeak && subStrong) pubUnknown subUnknown pubWeak subStrong errorText name pubStr subStr).Quiet ↔
      findings.Quiet ∧ kindQuiet pubUnknown subUnknown pubWeak subStrong = true := by
  obtain ⟨error, warning⟩ := @kindFindings_flags findings (pubWeak && subStrong) pubUnknown subUnknown pubWeak subStrong errorText name
    pubStr subStr
  unfold Quiet kindQuiet
  rw [error, warning]
  generalize (pubUnknown && subUnknown || pubUnknown && subStrong || pubWeak && subUnknown) = unsure
  cases pubWeak && subStrong <;> cases unsure <;> simp

/-- The offer, not left to discovery, is longer than the duration asked for. -/
def Overdue (offered asked : Nat) : Prop :=
  asked ≠ Qos.bestAvailable ∧ asked ≠ Qos.infinite ∧ offered ≠ Qos.bestAvailable ∧ (offered = Qos.infinite ∨ asked < offered)

instance : Decidable (Overdue offered asked) := inferInstanceAs (Decidable (_ ∧ _))

/-- What is asked for is left to discovery. -/
def Deferred (offered asked : Nat) : Prop := asked ≠ Qos.bestAvailable ∧ asked ≠ Qos.infinite ∧ offered = Qos.bestAvailable

instance : Decidable (Deferred offered asked) := inferInstanceAs (Decidable (_ ∧ _))

theorem durationFindings_flags (name : String) :
    (findings.durationFindings offered asked name).error = (findings.error || decide (Overdue offered asked)) ∧
      (findings.durationFindings offered asked name).warning = (findings.warning || decide (Deferred offered asked)) := by
  unfold durationFindings Overdue Deferred
  split
  next either =>
    have notOverdue : ¬ (asked ≠ Qos.bestAvailable ∧ asked ≠ Qos.infinite) := by tauto
    simp only [← and_assoc, notOverdue, false_and, decide_false, Bool.or_false, and_self]
  next neither =>
    rw [not_or] at neither
    split
    next left_ => simp [addWarning, neither, left_]
    next own =>
      split
      next unbounded =>
        have apart : Qos.infinite ≠ Qos.bestAvailable := by decide
        simp [addError, neither, unbounded, apart]
      next bounded =>
        split
        next longer => simp [addError, neither, own, longer]
        next within =>
          have notLonger : ¬ asked < offered := within
          simp [neither, own, bounded, notLonger]

end QosFindings

open QosFindings

section Verdict

variable {Time : Type*} {api : RmwApi Time} {pub sub : RmwProfile Time} {reasonSize : Nat}

/-- The deadline for core. -/
def ttDeadline (api : RmwApi Time) (qos : RmwProfile Time) : Nat := durationToTt api qos.deadline (some api.deadlineBestAvailable)

/-- The lease for core, of an endpoint that is not given another. -/
def ttLease (api : RmwApi Time) (qos : RmwProfile Time) : Nat :=
  durationToTt api qos.livelinessLeaseDuration (some api.leaseBestAvailable)

theorem checkCompatible_error :
    (checkCompatible api pub sub reasonSize).1 = .error ↔
      (pub.reliability = .bestEffort ∧ sub.reliability = .reliable) ∨ (pub.durability = .volatile ∧ sub.durability = .transientLocal) ∨
        Overdue (ttDeadline api pub) (ttDeadline api sub) ∨ (pub.liveliness = .automatic ∧ sub.liveliness = .manualByTopic) ∨
          Overdue (ttLease api pub) (ttLease api sub) := by
  have verdict : (checkCompatible api pub sub reasonSize).1 = .error ↔ (compatibleFindings api pub sub reasonSize).error = true := by
    unfold checkCompatible
    dsimp only
    split
    next found => exact iff_of_true rfl found
    next none_ =>
      refine iff_of_false ?_ none_
      split
      · decide
      · decide
  rw [verdict]
  unfold compatibleFindings ttDeadline ttLease
  simp only [(durationFindings_flags _).1, (kindFindings_flags _ _ _ _ _ _ _ _ _).1, Bool.or_eq_true, Bool.and_eq_true,
    decide_eq_true_eq, Bool.false_eq_true, false_or, or_assoc]

/-- A duration for core is left to discovery, infinite, or a count of nanoseconds. -/
theorem durationToTt_cases (time : Time) (bestAvailable : Option Time) :
    durationToTt api time bestAvailable = Qos.bestAvailable ∨ durationToTt api time bestAvailable = Qos.infinite ∨
      0 < durationToTt api time bestAvailable ∧ durationToTt api time bestAvailable < 2 ^ 63 := by
  unfold durationToTt
  split
  · exact .inl rfl
  · split
    · exact .inr (.inl rfl)
    · split
      next positive =>
        right
        right
        rw [BitVec.toInt_eq_toNat_cond] at positive
        split at positive
        · omega
        · have := (api.totalNsec time).isLt
          omega
      · exact .inr (.inl rfl)

/-- The offer is as short as the duration asked for, which counts as granted when it is left to discovery. -/
def Granted (offered asked : Nat) : Prop := asked = Qos.bestAvailable ∨ asked = Qos.infinite ∨ offered ≤ asked

instance {offered asked : Nat} : Decidable (Granted offered asked) := inferInstanceAs (Decidable (_ ∨ _))

/-- Every policy of the two is settled by the profiles, as far as the verdict sees. -/
structure Settled (api : RmwApi Time) (pub sub : RmwProfile Time) : Prop where
  reliability : pub.reliability = .reliable ∨ sub.reliability = .bestEffort
  durability : pub.durability = .transientLocal ∨ sub.durability = .volatile
  liveliness : pub.liveliness = .manualByTopic ∨ sub.liveliness = .automatic
  deadline : Granted (ttDeadline api pub) (ttDeadline api sub)
  lease : Granted (ttLease api pub) (ttLease api sub)

theorem granted_iff {offered asked : Nat} (sized : asked = Qos.bestAvailable ∨ asked = Qos.infinite ∨ 0 < asked ∧ asked < 2 ^ 63) :
    Granted offered asked ↔ ¬ Overdue offered asked ∧ ¬ Deferred offered asked := by
  unfold Granted Overdue Deferred Qos.bestAvailable Qos.infinite at *
  omega

theorem durationFindings_quiet {findings : QosFindings} {offered asked : Nat} {name : String}
    (sized : asked = Qos.bestAvailable ∨ asked = Qos.infinite ∨ 0 < asked ∧ asked < 2 ^ 63) :
    (findings.durationFindings offered asked name).Quiet ↔ findings.Quiet ∧ Granted offered asked := by
  obtain ⟨error, warning⟩ := @durationFindings_flags findings offered asked name
  unfold Quiet
  rw [error, warning, granted_iff sized]
  simp only [Bool.or_eq_false_iff, decide_eq_false_iff_not]
  tauto

/-- Among the kinds that are accepted, a pair is passed over exactly when the offer is the strong one or the request the weak one. -/
theorem reliability_quiet {pub sub : RmwReliability} (known : pub ≠ .unknown) (known' : sub ≠ .unknown) :
    kindQuiet (reliabilityUnknown pub) (reliabilityUnknown sub) (pub = .bestEffort) (sub = .reliable) = true ↔
      pub = .reliable ∨ sub = .bestEffort := by
  revert known known'
  cases pub <;> cases sub <;> decide

theorem durability_quiet {pub sub : RmwDurability} (known : pub ≠ .unknown) (known' : sub ≠ .unknown) :
    kindQuiet (durabilityUnknown pub) (durabilityUnknown sub) (pub = .volatile) (sub = .transientLocal) = true ↔
      pub = .transientLocal ∨ sub = .volatile := by
  revert known known'
  cases pub <;> cases sub <;> decide

theorem liveliness_quiet {pub sub : RmwLiveliness} (known : pub ≠ .unknown) (known' : sub ≠ .unknown) :
    kindQuiet (livelinessUnknown pub) (livelinessUnknown sub) (pub = .automatic) (sub = .manualByTopic) = true ↔
      pub = .manualByTopic ∨ sub = .automatic := by
  revert known known'
  cases pub <;> cases sub <;> decide

theorem validateQosProfile_known {qos : RmwProfile Time} {leaseFloor : Nat} (accepted : validateQosProfile api qos leaseFloor = true) :
    qos.reliability ≠ .unknown ∧ qos.durability ≠ .unknown ∧ qos.liveliness ≠ .unknown := by
  unfold validateQosProfile at accepted
  simp only [Bool.and_eq_true, decide_eq_true_eq] at accepted
  exact ⟨accepted.1.1.1, accepted.1.1.2, accepted.1.2⟩

theorem checkCompatible_ok {leaseFloor leaseFloor' : Nat} (pubAccepted : validateQosProfile api pub leaseFloor = true)
    (subAccepted : validateQosProfile api sub leaseFloor' = true) :
    (checkCompatible api pub sub reasonSize).1 = .ok ↔ Settled api pub sub := by
  have verdict : (checkCompatible api pub sub reasonSize).1 = .ok ↔ (compatibleFindings api pub sub reasonSize).Quiet := by
    unfold checkCompatible Quiet
    dsimp only
    cases (compatibleFindings api pub sub reasonSize).error <;> cases (compatibleFindings api pub sub reasonSize).warning <;> simp
  obtain ⟨reliability, durability, liveliness⟩ := validateQosProfile_known pubAccepted
  obtain ⟨reliability', durability', liveliness'⟩ := validateQosProfile_known subAccepted
  rw [verdict]
  unfold compatibleFindings
  dsimp only
  rw [durationFindings_quiet (durationToTt_cases _ _), kindFindings_quiet, durationFindings_quiet (durationToTt_cases _ _),
    kindFindings_quiet, kindFindings_quiet, reliability_quiet reliability reliability', durability_quiet durability durability',
    liveliness_quiet liveliness liveliness']
  constructor
  · rintro ⟨⟨⟨⟨⟨-, reliable⟩, durable⟩, deadline⟩, manual⟩, lease⟩
    exact ⟨reliable, durable, manual, deadline, lease⟩
  · rintro ⟨reliable, durable, manual, deadline, lease⟩
    exact ⟨⟨⟨⟨⟨⟨rfl, rfl⟩, reliable⟩, durable⟩, deadline⟩, manual⟩, lease⟩

end Verdict

/-! ## The verdict and core -/

section Agreement

variable {Time : Type*} (api : RmwApi Time) (pubContext subContext : CreationContext) (pub sub : RmwProfile Time)

/-- The lease a publisher asks core for. -/
def offeredLease : Nat :=
  if leaseUnnamed api pub .publisher then
    if pubContext.nodeSilence ≠ 0 then pubContext.nodeSilence else defaultNodeSilence
  else ttLease api pub

/-- With some endpoints discovered, every policy but the lease is met. -/
structure Meetable : Prop where
  reliability : ¬ (pub.reliability = .bestEffort ∧ (sub.reliability = .reliable ∨ sub.reliability = .systemDefault))
  durability : ¬ ((pub.durability = .volatile ∨ pub.durability = .systemDefault) ∧ sub.durability = .transientLocal)
  deadline : ¬ Overdue (ttDeadline api pub) (ttDeadline api sub)

/-- What the verdict rests on. -/
structure VerdictHolds : Prop where
  /-- A deadline left to discovery may have been settled at a nanosecond. -/
  deadline : Settled api pub sub → ttDeadline api sub = Qos.bestAvailable → ttDeadline api pub = 1
  /-- A lease left to discovery may have been settled at the floor. -/
  lease : Settled api pub sub → ttLease api sub = Qos.bestAvailable → offeredLease api pubContext pub ≤ max 1 subContext.leaseFloor
  /-- A lease that was not named may be short enough. -/
  unnamed : leaseUnnamed api pub .publisher = true → ttLease api sub ≠ Qos.bestAvailable → ttLease api sub ≠ Qos.infinite →
    offeredLease api pubContext pub ≤ ttLease api sub → ¬ Meetable api pub sub

/-- Whatever discovery knew when the two endpoints were created, ERROR is said of no two that core connects and OK of no two that it
refuses. -/
def VerdictAgrees (pubDepth subDepth : Nat) (pubExtensions subExtensions : QosExtensions) (topicName : String) (reasonSize : Nat) : Prop :=
  ∀ pubSeen subSeen pubActual subActual,
    createPublisher api pubContext pub pubDepth pubExtensions pubSeen topicName = some pubActual →
    createSubscription api subContext sub subDepth subExtensions subSeen topicName = some subActual →
    ((checkCompatible api pub sub reasonSize).1 = .error → ¬ Connects pubActual subActual) ∧
      ((checkCompatible api pub sub reasonSize).1 = .ok → Connects pubActual subActual)

variable {api pubContext subContext pub sub}

theorem CreationContext.leaseFloor_lt (context : CreationContext) : context.leaseFloor < 2 ^ 63 := by
  have product := Nat.mul_le_mul context.leaseDivisor_le context.txInterval_le
  unfold leaseFloor
  omega

theorem CreationContext.nodeSilence_lt (context : CreationContext) : context.nodeSilence < 2 ^ 63 := by
  have product := Nat.mul_le_mul context.missThreshold_le context.updateInterval_le
  unfold nodeSilence
  omega

/-- The verdict takes a lease that is not named for infinite. -/
theorem ttLease_unnamed (unnamed : leaseUnnamed api pub .publisher = true) : ttLease api pub = Qos.infinite := by
  unfold leaseUnnamed at unnamed
  simp only [Bool.and_eq_true, decide_eq_true_eq, true_and] at unnamed
  have apart := api.unspecified_not_bestAvailable _ unnamed.2
  unfold ttLease durationToTt
  rw [Option.any_some, apart, if_neg (by decide), unnamed.2, Bool.true_or, if_pos rfl]

/-- A lease that is not named is a count of nanoseconds. -/
theorem offeredLease_unnamed (unnamed : leaseUnnamed api pub .publisher = true) :
    0 < offeredLease api pubContext pub ∧ offeredLease api pubContext pub < 2 ^ 63 := by
  have small := pubContext.nodeSilence_lt
  unfold offeredLease
  rw [if_pos unnamed]
  unfold defaultNodeSilence
  split
  · omega
  · omega

theorem offeredLease_cases :
    offeredLease api pubContext pub = Qos.bestAvailable ∨ offeredLease api pubContext pub = Qos.infinite ∨
      0 < offeredLease api pubContext pub ∧ offeredLease api pubContext pub < 2 ^ 63 := by
  by_cases unnamed : leaseUnnamed api pub .publisher = true
  · exact .inr (.inr (offeredLease_unnamed unnamed))
  · unfold offeredLease
    rw [if_neg unnamed]
    exact durationToTt_cases _ _

/-- What a publisher offers. -/
def offers (api : RmwApi Time) (pubContext : CreationContext) (pub : RmwProfile Time) (matched : Matched) : Rxo where
  reliable := pub.reliability ≠ .bestEffort
  durable := pub.durability = .transientLocal || pub.durability = .bestAvailable
  manual := pub.liveliness = .manualByTopic || pub.liveliness = .bestAvailable
  deadline := toField (resolvedDuration matched (ttDeadline api pub) matched.deadline)
  lease := toField (resolvedDuration matched (offeredLease api pubContext pub) matched.lease)

/-- What a subscription requests. -/
def requests (api : RmwApi Time) (sub : RmwProfile Time) (matched : Matched) : Rxo where
  reliable := sub.reliability ≠ .bestEffort &&
    (sub.reliability ≠ .bestAvailable || takesStrict .topicSubscriber matched matched.allReliable)
  durable := sub.durability = .transientLocal || (sub.durability = .bestAvailable && takesStrict .topicSubscriber matched matched.allDurable)
  manual := sub.liveliness = .manualByTopic || (sub.liveliness = .bestAvailable && takesStrict .topicSubscriber matched matched.allManual)
  deadline := toField (resolvedDuration matched (ttDeadline api sub) matched.deadline)
  lease := toField (resolvedDuration matched (ttLease api sub) matched.lease)

variable {depth : Nat} {extensions : QosExtensions}

theorem publisher_rxo :
    resolvedRxo (qosToTt api { pub with depth } .publisher { extensions with manualDefaultLease := pubContext.nodeSilence })
      .topicPublisher matched = offers api pubContext pub matched := by
  unfold resolvedRxo offers
  congr 1
  · unfold qosToTt
    cases pub.reliability <;> rfl
  · unfold qosToTt
    cases pub.durability <;> rfl
  · unfold qosToTt
    cases pub.liveliness <;> rfl

theorem subscription_rxo :
    resolvedRxo (qosToTt api { sub with depth } .subscription extensions) .topicSubscriber matched = requests api sub matched := by
  unfold resolvedRxo requests
  congr 1
  · unfold qosToTt
    cases sub.reliability <;> simp [reliabilityToTt]
  · unfold qosToTt
    cases sub.durability <;> simp [durabilityToTt]
  · unfold qosToTt
    cases sub.liveliness <;> simp [livelinessToTt]

variable {entities : List DiscoveredEntity} {topicName : String} {actual : Profile}

theorem createPublisher_floor (created : createPublisher api pubContext pub depth extensions entities topicName = some actual) :
    pubContext.leaseFloor ≤ resolvedDuration (gatherMatched entities .topicPublisher topicName) (offeredLease api pubContext pub)
      (gatherMatched entities .topicPublisher topicName).lease := by
  unfold createPublisher at created
  split at created
  · exact ((profileResolve_topic rfl).1 actual created).2.lease
  · cases created

theorem createPublisher_created (created : createPublisher api pubContext pub depth extensions entities topicName = some actual) :
    validateQosProfile api pub pubContext.leaseFloor = true ∧
      rxoOfProfile actual = offers api pubContext pub (gatherMatched entities .topicPublisher topicName) := by
  unfold createPublisher at created
  split at created
  next accepted =>
    obtain ⟨same, -⟩ := (profileResolve_topic rfl).1 actual created
    exact ⟨accepted, same.trans publisher_rxo⟩
  · cases created

theorem createSubscription_created (created : createSubscription api subContext sub depth extensions entities topicName = some actual) :
    validateQosProfile api sub subContext.leaseFloor = true ∧
      rxoOfProfile actual = requests api sub (gatherMatched entities .topicSubscriber topicName) ∧
      subContext.leaseFloor ≤ resolvedDuration (gatherMatched entities .topicSubscriber topicName) (ttLease api sub)
        (gatherMatched entities .topicSubscriber topicName).lease := by
  unfold createSubscription at created
  split at created
  next accepted =>
    obtain ⟨same, resolvable⟩ := (profileResolve_topic rfl).1 actual created
    exact ⟨accepted, same.trans subscription_rxo, resolvable.lease⟩
  · cases created

/-! ### Where the verdict is right -/

/-- Durations that are not left to discovery are compared as they are. -/
theorem within_fixed {offered asked : Nat} {matched' : Matched} {shown shown' : Nat} (own : offered ≠ Qos.bestAvailable)
    (own' : asked ≠ Qos.bestAvailable) (some_ : offered ≠ 0) (some' : asked ≠ 0) :
    Within (toField (resolvedDuration matched offered shown)) (toField (resolvedDuration matched' asked shown')) ↔
      asked = Qos.infinite ∨ (offered ≠ Qos.infinite ∧ offered ≤ asked) := by
  unfold resolvedDuration duration Within toField
  rw [if_neg own, if_neg own', if_neg some_, if_neg some']
  by_cases unbounded : asked = Qos.infinite
  · simp [unbounded]
  · rw [if_neg unbounded]
    by_cases unbounded' : offered = Qos.infinite
    · simp [unbounded', unbounded, some']
    · simp [unbounded', unbounded, some', some_]

theorem sized_ne_zero {d : Nat} (sized : d = Qos.bestAvailable ∨ d = Qos.infinite ∨ 0 < d ∧ d < 2 ^ 63) : d ≠ 0 := by
  unfold Qos.bestAvailable Qos.infinite at sized
  omega

/-- An offer that is overdue is not within what is asked for, whatever discovery shows. -/
theorem not_within_of_overdue {offered asked : Nat} {matched' : Matched} {shown shown' : Nat}
    (sized : offered = Qos.bestAvailable ∨ offered = Qos.infinite ∨ 0 < offered ∧ offered < 2 ^ 63)
    (sized' : asked = Qos.bestAvailable ∨ asked = Qos.infinite ∨ 0 < asked ∧ asked < 2 ^ 63) (overdue : Overdue offered asked) :
    ¬ Within (toField (resolvedDuration matched offered shown)) (toField (resolvedDuration matched' asked shown')) := by
  obtain ⟨own', bounded, own, late⟩ := overdue
  rw [within_fixed own own' (sized_ne_zero sized) (sized_ne_zero sized')]
  rintro (unbounded | ⟨bounded', within⟩)
  · exact bounded unbounded
  · rcases late with unbounded | late
    · exact bounded' unbounded
    · omega

theorem not_serves_of_not_meetable {matched' : Matched} (failing : ¬ Meetable api pub sub) :
    ¬ Serves (offers api pubContext pub matched) (requests api sub matched') := by
  intro serves
  apply failing
  have reliable := serves.reliable
  have durable := serves.durable
  unfold offers requests at reliable durable
  refine ⟨?_, ?_, ?_⟩
  · rintro ⟨weak, strong | strong⟩
    · simp [weak, strong] at reliable
    · simp [weak, strong] at reliable
  · rintro ⟨weak | weak, strong⟩
    · simp [weak, strong] at durable
    · simp [weak, strong] at durable
  · intro overdue
    exact not_within_of_overdue (durationToTt_cases _ _) (durationToTt_cases _ _) overdue serves.deadline

/-- Where ERROR is said, the two do not connect. -/
theorem VerdictHolds.error (holds : VerdictHolds api pubContext subContext pub sub) {matched' : Matched} {reasonSize : Nat}
    (said : (checkCompatible api pub sub reasonSize).1 = .error) :
    ¬ Serves (offers api pubContext pub matched) (requests api sub matched') := by
  intro serves
  have manual := serves.manual
  unfold offers requests at manual
  have meetable : Meetable api pub sub := by
    by_contra failing
    exact not_serves_of_not_meetable failing serves
  rcases checkCompatible_error.mp said with ⟨weak, strong⟩ | ⟨weak, strong⟩ | overdue | ⟨weak, strong⟩ | overdue
  · exact meetable.reliability ⟨weak, .inl strong⟩
  · exact meetable.durability ⟨.inl weak, strong⟩
  · exact meetable.deadline overdue
  · simp [weak, strong] at manual
  · by_cases unnamed : leaseUnnamed api pub .publisher = true
    · -- the lease core was given is not the one the verdict goes by
      obtain ⟨positive, small⟩ := @offeredLease_unnamed Time api pubContext pub unnamed
      obtain ⟨own', bounded, -⟩ := overdue
      by_cases within : offeredLease api pubContext pub ≤ ttLease api sub
      · exact holds.unnamed unnamed own' bounded within meetable
      · have late : Overdue (offeredLease api pubContext pub) (ttLease api sub) := by
          refine ⟨own', bounded, ?_, .inr (by omega)⟩
          unfold Qos.bestAvailable
          omega
        exact not_within_of_overdue offeredLease_cases (durationToTt_cases _ _) late serves.lease
    · have same : offeredLease api pubContext pub = ttLease api pub := if_neg unnamed
      rw [← same] at overdue
      exact not_within_of_overdue offeredLease_cases (durationToTt_cases _ _) overdue serves.lease

/-- A duration that is granted and not left to discovery is met. -/
theorem within_of_granted {offered asked : Nat} {matched' : Matched} {shown shown' : Nat}
    (sized : offered = Qos.bestAvailable ∨ offered = Qos.infinite ∨ 0 < offered ∧ offered < 2 ^ 63)
    (sized' : asked = Qos.infinite ∨ 0 < asked ∧ asked < 2 ^ 63) (granted : asked = Qos.infinite ∨ offered ≤ asked) :
    Within (toField (resolvedDuration matched offered shown)) (toField (resolvedDuration matched' asked shown')) := by
  by_cases unbounded : asked = Qos.infinite
  · left
    have own : Qos.infinite ≠ Qos.bestAvailable := by decide
    have large : Qos.infinite ≠ 0 := by decide
    unfold resolvedDuration duration toField
    rw [unbounded, if_neg own, if_neg large, if_pos rfl]
  · have within := granted.resolve_left unbounded
    obtain ⟨positive, small⟩ := sized'.resolve_left unbounded
    have own : offered ≠ Qos.bestAvailable := by
      unfold Qos.bestAvailable
      omega
    have own' : asked ≠ Qos.bestAvailable := by
      unfold Qos.bestAvailable
      omega
    have bounded : offered ≠ Qos.infinite := by
      unfold Qos.infinite
      omega
    rw [within_fixed own own' (sized_ne_zero sized) (by omega)]
    exact .inr ⟨bounded, within⟩

theorem resolvedDuration_ne_zero (matched : Matched) (asked shown : Nat) : resolvedDuration matched asked shown ≠ 0 := by
  have large : Qos.infinite ≠ 0 := by decide
  have some_ : ∀ d, duration d ≠ 0 := by
    intro d
    unfold duration
    split
    · exact large
    next positive => exact positive
  unfold resolvedDuration bestAvailableDuration
  split
  · split
    · exact large
    · exact some_ shown
  · exact some_ asked

/-- An offer no longer than any duration that can be settled on is within it. -/
theorem within_least {offered asked shown shown' : Nat} {matched' : Matched} (own : offered ≠ Qos.bestAvailable)
    (bounded : offered ≠ Qos.infinite) (some_ : offered ≠ 0) (least : offered ≤ resolvedDuration matched' asked shown') :
    Within (toField (resolvedDuration matched offered shown)) (toField (resolvedDuration matched' asked shown')) := by
  have fixed : resolvedDuration matched offered shown = offered := by
    unfold resolvedDuration duration
    rw [if_neg own, if_neg some_]
  unfold Within toField
  rw [fixed, if_neg bounded]
  split
  · exact .inl rfl
  · exact .inr ⟨some_, least⟩

/-- Where OK is said, the two connect. -/
theorem VerdictHolds.ok (holds : VerdictHolds api pubContext subContext pub sub) {matched' : Matched}
    (settled : Settled api pub sub) (floor : subContext.leaseFloor ≤ resolvedDuration matched' (ttLease api sub) matched'.lease) :
    Serves (offers api pubContext pub matched) (requests api sub matched') := by
  have sized := @durationToTt_cases Time api sub.deadline (some api.deadlineBestAvailable)
  have sized' := @durationToTt_cases Time api sub.livelinessLeaseDuration (some api.leaseBestAvailable)
  refine ⟨?_, ?_, ?_, ?_, ?_⟩
  · unfold offers requests
    rcases settled.reliability with strong | weak
    · simp [strong]
    · simp [weak]
  · unfold offers requests
    rcases settled.durability with strong | weak
    · simp [strong]
    · simp [weak]
  · unfold offers requests
    rcases settled.liveliness with strong | weak
    · simp [strong]
    · simp [weak]
  · by_cases deferred : ttDeadline api sub = Qos.bestAvailable
    · have one := holds.deadline settled deferred
      have least := Nat.pos_of_ne_zero (resolvedDuration_ne_zero matched' (ttDeadline api sub) matched'.deadline)
      exact within_least (by rw [one]; decide) (by rw [one]; decide) (by rw [one]; decide) (by rw [one]; exact least)
    · exact within_of_granted (durationToTt_cases _ _) (sized.resolve_left deferred) (settled.deadline.resolve_left deferred)
  · by_cases deferred : ttLease api sub = Qos.bestAvailable
    · have least := Nat.pos_of_ne_zero (resolvedDuration_ne_zero matched' (ttLease api sub) matched'.lease)
      have bound := holds.lease settled deferred
      have small := subContext.leaseFloor_lt
      have short : offeredLease api pubContext pub < 2 ^ 63 := by omega
      apply within_least
      · unfold Qos.bestAvailable
        omega
      · unfold Qos.infinite
        omega
      · exact sized_ne_zero offeredLease_cases
      · omega
    · have granted := settled.lease.resolve_left deferred
      have lease : ttLease api sub = Qos.infinite ∨ offeredLease api pubContext pub ≤ ttLease api sub := by
        rcases granted with unbounded | within
        · exact .inl unbounded
        · by_cases unbounded : ttLease api sub = Qos.infinite
          · exact .inl unbounded
          · right
            have named : ¬ leaseUnnamed api pub .publisher = true := by
              intro unnamed
              rw [ttLease_unnamed unnamed] at within
              have small := (sized'.resolve_left deferred).resolve_left unbounded
              unfold Qos.infinite at within
              unfold ttLease at within
              omega
            unfold offeredLease
            rw [if_neg named]
            exact within
      exact within_of_granted offeredLease_cases (sized'.resolve_left deferred) lease

/-! ### Where it is not -/

/-- An endpoint of the topic that discovery shows, with all of the strict kinds or none. -/
def shown (kind : EntityKind) (strict : Bool) (deadline lease : Nat) (topicName : String) : DiscoveredEntity :=
  ⟨⟨1, 7, kind, 0, ⟨strict, strict, strict, false⟩, deadline, lease, 0, 0, 4, "T", topicName⟩, true, 0⟩

theorem gatherMatched_publisher (strict : Bool) (deadline lease : Nat) (topicName : String) :
    gatherMatched [shown .topicPublisher strict deadline lease topicName] .topicSubscriber topicName =
      ⟨1, strict, strict, strict, orDefault deadline Qos.infinite, orDefault lease Qos.infinite⟩ := by
  have max_ : ∀ d, bound true 0 d = d := by
    intro d
    unfold bound
    rw [if_pos rfl]
    split
    · rfl
    · omega
  simp [gatherMatched, seen, shown, opposite, gatherOne, matchOne, max_]

theorem gatherMatched_subscriber (strict : Bool) {deadline lease : Nat} (small : orDefault deadline Qos.infinite ≤ Qos.infinite)
    (small' : orDefault lease Qos.infinite ≤ Qos.infinite) (topicName : String) :
    gatherMatched [shown .topicSubscriber strict deadline lease topicName] .topicPublisher topicName =
      ⟨1, strict, strict, strict, orDefault deadline Qos.infinite, orDefault lease Qos.infinite⟩ := by
  have min_ : ∀ d ≤ Qos.infinite, bound false Qos.infinite d = d := by
    intro d least
    unfold bound
    rw [if_neg (by decide)]
    split
    · rfl
    · omega
  simp [gatherMatched, seen, shown, opposite, gatherOne, matchOne, min_ _ small, min_ _ small']

/-- A profile that is taken when nothing is known is taken again, if its lease is not below the floor. -/
theorem Resolvable.again {nothing : Matched} (taken : Resolvable requested kind nothing leaseFloor) (none_ : nothing.count = 0)
    (lease : leaseFloor ≤ resolvedDuration matched requested.liveliness.lease matched.lease) :
    Resolvable requested kind matched leaseFloor where
  depth := taken.depth
  words := taken.words
  slots := by
    intro subscriber reliable
    apply taken.slots subscriber
    unfold resolvedRxo takesStrict at reliable ⊢
    dsimp only at reliable ⊢
    split
    · rfl
    · rfl
    next weak => simp [weak] at reliable
    · simp [none_]
  lease := lease

theorem gatherMatched_nil (kind : EntityKind) (topicName : String) : (gatherMatched [] kind topicName).count = 0 := by
  unfold gatherMatched
  split
  · rfl
  · rfl

theorem createPublisher_again (entities : List DiscoveredEntity)
    (accepted : (createPublisher api pubContext pub depth extensions [] topicName).isSome)
    (lease : pubContext.leaseFloor ≤ resolvedDuration (gatherMatched entities .topicPublisher topicName)
      (offeredLease api pubContext pub) (gatherMatched entities .topicPublisher topicName).lease) :
    ∃ actual, createPublisher api pubContext pub depth extensions entities topicName = some actual := by
  obtain ⟨before, created⟩ := Option.isSome_iff_exists.mp accepted
  unfold createPublisher at created ⊢
  split at created
  next valid =>
    obtain ⟨-, taken⟩ := (profileResolve_topic rfl).1 before created
    rw [if_pos valid]
    exact (profileResolve_topic rfl).2 (taken.again (gatherMatched_nil _ _) lease)
  · cases created

theorem createSubscription_again (entities : List DiscoveredEntity)
    (accepted : (createSubscription api subContext sub depth extensions [] topicName).isSome)
    (lease : subContext.leaseFloor ≤ resolvedDuration (gatherMatched entities .topicSubscriber topicName)
      (ttLease api sub) (gatherMatched entities .topicSubscriber topicName).lease) :
    ∃ actual, createSubscription api subContext sub depth extensions entities topicName = some actual := by
  obtain ⟨before, created⟩ := Option.isSome_iff_exists.mp accepted
  unfold createSubscription at created ⊢
  split at created
  next valid =>
    obtain ⟨-, taken⟩ := (profileResolve_topic rfl).1 before created
    rw [if_pos valid]
    exact (profileResolve_topic rfl).2 (taken.again (gatherMatched_nil _ _) lease)
  · cases created

variable {pubDepth subDepth : Nat} {pubExtensions subExtensions : QosExtensions} {reasonSize : Nat}

/-- What an endpoint gets for a lease it settles itself does not depend on what is shown. -/
theorem resolvedDuration_own {asked shown shown' : Nat} {matched' : Matched} (own : asked ≠ Qos.bestAvailable) :
    resolvedDuration matched asked shown = resolvedDuration matched' asked shown' := by
  unfold resolvedDuration
  rw [if_neg own, if_neg own]

/-- A publisher that nothing is shown to offers what it has of its own, or no bound. -/
theorem resolvedDuration_nil {asked : Nat} (sized : asked = Qos.bestAvailable ∨ asked = Qos.infinite ∨ 0 < asked ∧ asked < 2 ^ 63)
    {nothing : Matched} (none_ : nothing.count = 0) (shown : Nat) :
    toField (resolvedDuration nothing asked shown) = 0 ∨ toField (resolvedDuration nothing asked shown) = asked := by
  unfold resolvedDuration bestAvailableDuration duration toField
  by_cases deferred : asked = Qos.bestAvailable
  · rw [if_pos deferred, if_pos none_]
    exact .inl (if_pos rfl)
  · rw [if_neg deferred, if_neg (sized_ne_zero sized)]
    by_cases unbounded : asked = Qos.infinite
    · exact .inl (if_pos unbounded)
    · exact .inr (if_neg unbounded)

/-- With a deadline or a lease left to discovery, a publisher known at the subscription's creation may have offered a shorter one. -/
theorem VerdictAgrees.shorter
    (agrees : VerdictAgrees api pubContext subContext pub sub pubDepth subDepth pubExtensions subExtensions topicName reasonSize)
    (accepted : (createPublisher api pubContext pub pubDepth pubExtensions [] topicName).isSome)
    (accepted' : (createSubscription api subContext sub subDepth subExtensions [] topicName).isSome)
    (settled : Settled api pub sub) (deadline lease : Nat)
    (floor : subContext.leaseFloor ≤ resolvedDuration ⟨1, true, true, true, orDefault deadline Qos.infinite, orDefault lease Qos.infinite⟩
      (ttLease api sub) (orDefault lease Qos.infinite)) :
    Serves (offers api pubContext pub (gatherMatched [] .topicPublisher topicName))
      (requests api sub ⟨1, true, true, true, orDefault deadline Qos.infinite, orDefault lease Qos.infinite⟩) := by
  obtain ⟨pubActual, created⟩ := Option.isSome_iff_exists.mp accepted
  obtain ⟨subBefore, createdBefore⟩ := Option.isSome_iff_exists.mp accepted'
  have matched := gatherMatched_publisher true deadline lease topicName
  obtain ⟨subActual, created'⟩ := createSubscription_again [shown .topicPublisher true deadline lease topicName] accepted'
    (by rw [matched]; exact floor)
  obtain ⟨valid, offered⟩ := createPublisher_created created
  obtain ⟨valid', requested, -⟩ := createSubscription_created created'
  have connects := (agrees _ _ _ _ created created').2 ((checkCompatible_ok valid valid').mpr settled)
  unfold Connects at connects
  rw [incompatiblePolicy_invalid, offered, requested, matched] at connects
  exact connects

theorem VerdictAgrees.deadline
    (agrees : VerdictAgrees api pubContext subContext pub sub pubDepth subDepth pubExtensions subExtensions topicName reasonSize)
    (accepted : (createPublisher api pubContext pub pubDepth pubExtensions [] topicName).isSome)
    (accepted' : (createSubscription api subContext sub subDepth subExtensions [] topicName).isSome)
    (settled : Settled api pub sub) (deferred : ttDeadline api sub = Qos.bestAvailable) : ttDeadline api pub = 1 := by
  obtain ⟨before, created⟩ := Option.isSome_iff_exists.mp accepted'
  obtain ⟨-, -, floor⟩ := createSubscription_created created
  have none_ := gatherMatched_nil .topicSubscriber topicName
  have floor' : subContext.leaseFloor ≤ resolvedDuration ⟨1, true, true, true, orDefault 1 Qos.infinite, orDefault 0 Qos.infinite⟩
      (ttLease api sub) (orDefault 0 Qos.infinite) := by
    by_cases own : ttLease api sub = Qos.bestAvailable
    · unfold resolvedDuration bestAvailableDuration at floor ⊢
      rw [if_pos own, if_pos none_] at floor
      rw [if_pos own]
      exact floor
    · rw [resolvedDuration_own own]
      exact floor
  have within := (agrees.shorter accepted accepted' settled 1 0 floor').deadline
  unfold offers requests at within
  dsimp only at within
  have asked : toField (resolvedDuration ⟨1, true, true, true, orDefault 1 Qos.infinite, orDefault 0 Qos.infinite⟩ (ttDeadline api sub)
      (orDefault 1 Qos.infinite)) = 1 := by
    rw [deferred]
    decide
  rw [asked] at within
  obtain ⟨some_, least⟩ := within.resolve_left (by decide)
  rcases @resolvedDuration_nil _ (@durationToTt_cases Time api pub.deadline (some api.deadlineBestAvailable)) _
      (gatherMatched_nil .topicPublisher topicName) (gatherMatched [] .topicPublisher topicName).deadline with unbounded | own
  · exact absurd unbounded some_
  · unfold ttDeadline at *
    omega

theorem VerdictAgrees.lease
    (agrees : VerdictAgrees api pubContext subContext pub sub pubDepth subDepth pubExtensions subExtensions topicName reasonSize)
    (accepted : (createPublisher api pubContext pub pubDepth pubExtensions [] topicName).isSome)
    (accepted' : (createSubscription api subContext sub subDepth subExtensions [] topicName).isSome)
    (settled : Settled api pub sub) (deferred : ttLease api sub = Qos.bestAvailable) :
    offeredLease api pubContext pub ≤ max 1 subContext.leaseFloor := by
  by_contra longer
  have small := subContext.leaseFloor_lt
  have given : orDefault (max 1 subContext.leaseFloor) Qos.infinite = max 1 subContext.leaseFloor := if_pos (by omega)
  have asked : resolvedDuration
      ⟨1, true, true, true, orDefault 0 Qos.infinite, orDefault (max 1 subContext.leaseFloor) Qos.infinite⟩ (ttLease api sub)
      (orDefault (max 1 subContext.leaseFloor) Qos.infinite) = max 1 subContext.leaseFloor := by
    unfold resolvedDuration bestAvailableDuration duration
    rw [if_pos deferred, if_neg Nat.one_ne_zero, given, if_neg (by omega)]
  have within := (agrees.shorter accepted accepted' settled 0 (max 1 subContext.leaseFloor) (by rw [asked]; exact Nat.le_max_right _ _)).lease
  unfold offers requests at within
  dsimp only at within
  have field : toField (max 1 subContext.leaseFloor) = max 1 subContext.leaseFloor := by
    unfold toField Qos.infinite
    rw [if_neg (by omega)]
  rw [asked, field] at within
  obtain ⟨some_, least⟩ := within.resolve_left (by omega)
  rcases @resolvedDuration_nil _ (@offeredLease_cases Time api pubContext pub) _
      (gatherMatched_nil .topicPublisher topicName) (gatherMatched [] .topicPublisher topicName).lease with unbounded | own
  · exact some_ unbounded
  · omega

/-- A publisher whose lease was not named connects where ERROR is said. -/
theorem VerdictAgrees.unnamed
    (agrees : VerdictAgrees api pubContext subContext pub sub pubDepth subDepth pubExtensions subExtensions topicName reasonSize)
    (accepted : (createPublisher api pubContext pub pubDepth pubExtensions [] topicName).isSome)
    (accepted' : (createSubscription api subContext sub subDepth subExtensions [] topicName).isSome)
    (unnamed : leaseUnnamed api pub .publisher = true) (own : ttLease api sub ≠ Qos.bestAvailable)
    (bounded : ttLease api sub ≠ Qos.infinite) (within : offeredLease api pubContext pub ≤ ttLease api sub) :
    ¬ Meetable api pub sub := by
  intro meetable
  obtain ⟨positive, small⟩ := @offeredLease_unnamed Time api pubContext pub unnamed
  have own' : offeredLease api pubContext pub ≠ Qos.bestAvailable := by
    unfold Qos.bestAvailable
    omega
  obtain ⟨before, createdBefore⟩ := Option.isSome_iff_exists.mp accepted
  obtain ⟨before', createdBefore'⟩ := Option.isSome_iff_exists.mp accepted'
  have one : orDefault 1 Qos.infinite = 1 := rfl
  have none_ : orDefault 0 Qos.infinite = Qos.infinite := rfl
  -- a strict subscription with the shortest deadline known to the publisher, a lax publisher to the subscription
  have matched := @gatherMatched_subscriber true 1 0 (by rw [one]; decide) (by rw [none_]) topicName
  have matched' := gatherMatched_publisher false 0 0 topicName
  obtain ⟨pubActual, created⟩ := createPublisher_again [shown .topicSubscriber true 1 0 topicName] accepted (by
    rw [resolvedDuration_own own']
    exact createPublisher_floor createdBefore)
  obtain ⟨subActual, created'⟩ := createSubscription_again [shown .topicPublisher false 0 0 topicName] accepted' (by
    rw [resolvedDuration_own own]
    exact (createSubscription_created createdBefore').2.2)
  obtain ⟨valid, offered⟩ := createPublisher_created created
  obtain ⟨valid', requested, -⟩ := createSubscription_created created'
  have said : (checkCompatible api pub sub reasonSize).1 = .error := by
    apply checkCompatible_error.mpr
    right; right; right; right
    rw [ttLease_unnamed unnamed]
    exact ⟨own, bounded, by decide, .inl rfl⟩
  apply (agrees _ _ _ _ created created').1 said
  unfold Connects
  rw [incompatiblePolicy_invalid, offered, requested, matched, matched', one, none_]
  obtain ⟨-, knownDurability, -⟩ := validateQosProfile_known valid
  obtain ⟨knownReliability, -⟩ := validateQosProfile_known valid'
  have lax : takesStrict .topicSubscriber ⟨1, false, false, false, Qos.infinite, Qos.infinite⟩ false = false := rfl
  refine ⟨?_, ?_, ?_, ?_, ?_⟩
  · have failing := meetable.reliability
    unfold offers requests
    simp only [lax, Bool.or_false, Bool.and_eq_true, decide_eq_true_eq, and_imp]
    intro notWeak notDeferred weak
    apply failing
    refine ⟨weak, ?_⟩
    revert notWeak notDeferred knownReliability
    cases sub.reliability <;> simp
  · have failing := meetable.durability
    unfold offers requests
    simp only [lax, Bool.and_false, Bool.or_false, Bool.or_eq_true, decide_eq_true_eq]
    intro strong
    by_contra weak
    apply failing
    refine ⟨?_, strong⟩
    revert weak knownDurability
    cases pub.durability <;> simp
  · intro _
    unfold leaseUnnamed at unnamed
    simp only [Bool.and_eq_true, decide_eq_true_eq] at unnamed
    simp [offers, unnamed.1.2]
  · have sized := @durationToTt_cases Time api sub.deadline (some api.deadlineBestAvailable)
    change Within (toField (resolvedDuration _ (ttDeadline api pub) _)) (toField (resolvedDuration _ (ttDeadline api sub) _))
    by_cases deferred : ttDeadline api sub = Qos.bestAvailable
    · left
      rw [deferred]
      decide
    · by_cases deferred' : ttDeadline api pub = Qos.bestAvailable
      · have shortest : toField (resolvedDuration ⟨1, true, true, true, 1, Qos.infinite⟩ (ttDeadline api pub) 1) = 1 := by
          rw [deferred']
          decide
        rw [shortest]
        unfold Within
        omega
      · rw [within_fixed deferred' deferred (sized_ne_zero (durationToTt_cases _ _)) (sized_ne_zero sized)]
        have met := meetable.deadline
        unfold Overdue at met
        by_contra late
        rw [not_or, not_and_or, not_not] at late
        exact met ⟨deferred, late.1, deferred', late.2.imp_right Nat.lt_of_not_le⟩
  · change Within (toField (resolvedDuration _ (offeredLease api pubContext pub) _)) (toField (resolvedDuration _ (ttLease api sub) _))
    rw [within_fixed own' own (by omega) (sized_ne_zero (durationToTt_cases _ _))]
    refine .inr ⟨?_, within⟩
    unfold Qos.infinite
    omega

end Agreement

/-! A time of seconds and nanoseconds, as rmw has them. -/

def secondsTotal (time : Nat × Nat) : BitVec 64 := BitVec.ofNat 64 (min (time.1 * 10 ^ 9 + time.2) (2 ^ 63 - 1))

def secondsEqual (left right : Nat × Nat) : Bool := secondsTotal left = secondsTotal right

def reliabilityName : RmwReliability → Option String
  | .systemDefault => some "system_default"
  | .reliable => some "reliable"
  | .bestEffort => some "best_effort"
  | .unknown => none
  | .bestAvailable => some "best_available"

def durabilityName : RmwDurability → Option String
  | .systemDefault => some "system_default"
  | .transientLocal => some "transient_local"
  | .volatile => some "volatile"
  | .unknown => none
  | .bestAvailable => some "best_available"

def livelinessName : RmwLiveliness → Option String
  | .systemDefault => some "system_default"
  | .automatic => some "automatic"
  | .manualByTopic => some "manual_by_topic"
  | .unknown => none
  | .bestAvailable => some "best_available"

theorem zero_not_bestAvailable (time : Nat × Nat) (zero : secondsEqual time (0, 0) = true) :
    secondsEqual time (9223372036, 854775806) = false := by
  unfold secondsEqual at zero ⊢
  rw [of_decide_eq_true zero]
  decide

def secondsApi : RmwApi (Nat × Nat) where
  totalNsec := secondsTotal
  equal := secondsEqual
  unspecified := (0, 0)
  infinite := (9223372036, 854775807)
  deadlineBestAvailable := (9223372036, 854775806)
  leaseBestAvailable := (9223372036, 854775806)
  reliabilityToStr := reliabilityName
  durabilityToStr := durabilityName
  livelinessToStr := livelinessName
  unspecified_not_bestAvailable := zero_not_bestAvailable

theorem second_le_day : 10 ^ 9 ≤ 86400 * 10 ^ 9 := by decide

theorem millisecond_le_day : 10 ^ 6 ≤ 86400 * 10 ^ 9 := by decide

theorem three_le : 3 ≤ 255 := by decide

theorem six_le : 6 ≤ 255 := by decide

/-- A context with the default options. -/
def defaultContext : CreationContext := ⟨qosDefaults, 10 ^ 9, 10 ^ 6, 3, 6, second_le_day, millisecond_le_day, three_le, six_le⟩

def noExtensions : QosExtensions := ⟨10, 0, 0, 0, 0, 0⟩

/-- A RELIABLE VOLATILE profile. -/
def reliableQos (deadline : Nat × Nat) (liveliness : RmwLiveliness) (lease : Nat × Nat) : RmwProfile (Nat × Nat) :=
  ⟨.keepLast, 10, .reliable, .volatile, deadline, (0, 0), liveliness, lease⟩

end Rmw

end Tickle
