import Tickle.Qos.Profile

/-! # A resolved profile resolved again

What an endpoint reports as its actual profile resolves to itself, whatever discovery shows by then. One kind of request misses that: a
BEST_AVAILABLE duration takes what the matched endpoints name as it is, and the number they name can be the one that stands for
BEST_AVAILABLE.
-/

namespace Tickle

namespace Qos

/-! ## The defaults of a context -/

/-- `resolve_qos_options()`. -/
def Defaults.resolve (qos : Defaults) : Defaults where
  depth := if qos.depth = 0 then 10 else qos.depth
  keepAllDepth := if qos.keepAllDepth = 0 then 256 else qos.keepAllDepth
  historyBytes := if qos.historyBytes = 0 then 1024 * 1024 else qos.historyBytes
  keepAllBytes := if qos.keepAllBytes = 0 then 512 * 1024 else qos.keepAllBytes
  maxBlocking := if qos.maxBlocking = 0 then 100 * 10 ^ 6 else qos.maxBlocking

/-- `validate_qos_options()`: the option it rejects, and why. -/
def Defaults.validate (qos : Defaults) : Option (String × String) :=
  if qos.depth > 2 ^ 16 - 1 then some ("qos.depth", "exceeds UINT16_MAX, a profile's history.depth limit")
  else if qos.keepAllDepth > 2 ^ 16 - 1 then
    some ("qos.keep_all_depth", "exceeds UINT16_MAX, a profile's history.depth limit")
  else none

/-- The fields of a request hold what their types can. -/
structure Profile.Typed (requested : Profile) : Prop where
  depth : requested.history.depth < 2 ^ 32
  bytes : requested.history.bytes < 2 ^ 32
  trackingWords : requested.reliability.trackingWords < 2 ^ 16
  reorderSlots : requested.reliability.reorderSlots < 2 ^ 16
  maxBlocking : requested.reliability.maxBlocking < 2 ^ 64
  deadline : requested.deadline < 2 ^ 64
  lifespan : requested.lifespan < 2 ^ 64
  lease : requested.liveliness.lease < 2 ^ 64

variable {defaults : Defaults} {kind : EntityKind} {matched matched' : Matched} {leaseFloor : Nat}

/-! ## Numbers -/

theorem orDefault_again (requested fallback : Nat) : orDefault (orDefault requested fallback) fallback = orDefault requested fallback := by
  unfold orDefault
  split
  · rfl
  · split
    · rfl
    · rfl

theorem orDefault_ne {requested fallback : Nat} (set : fallback ≠ 0) : orDefault requested fallback ≠ 0 := by
  unfold orDefault
  split
  next given => exact given
  · exact set

theorem duration_again (requested : Nat) : duration (duration requested) = duration requested := by
  unfold duration
  split
  · rfl
  · rfl

theorem duration_ne_zero (requested : Nat) : duration requested ≠ 0 := by
  unfold duration
  split
  · decide
  next set => exact set

/-- A deadline or a lease, resolved. -/
def grantedDuration (matched : Matched) (requested value : Nat) : Nat :=
  if requested = bestAvailable then bestAvailableDuration matched value else duration requested

theorem grantedDuration_of_settled (matched : Matched) {requested : Nat} (value : Nat) (settled : requested ≠ 0)
    (own : requested ≠ bestAvailable) : grantedDuration matched requested value = requested := by
  unfold grantedDuration duration
  rw [if_neg own, if_neg settled]

theorem grantedDuration_ne_zero (matched : Matched) (requested value : Nat) : grantedDuration matched requested value ≠ 0 := by
  unfold grantedDuration bestAvailableDuration
  split
  · split
    · decide
    · exact duration_ne_zero value
  · exact duration_ne_zero requested

/-- A resolved duration is BEST_AVAILABLE only where it was left open and that is what the others name. -/
theorem grantedDuration_eq_bestAvailable (requested value : Nat) :
    grantedDuration matched requested value = bestAvailable ↔
      requested = bestAvailable ∧ matched.count ≠ 0 ∧ value = bestAvailable := by
  have distinct : infinite ≠ bestAvailable := by decide
  unfold grantedDuration bestAvailableDuration duration
  constructor
  · intro same
    split at same
    next left =>
      split at same
      · exact absurd same distinct
      next known =>
        split at same
        · exact absurd same distinct
        · exact ⟨left, known, same⟩
    next given =>
      split at same
      · exact absurd same distinct
      · exact absurd same given
  · rintro ⟨left, known, same⟩
    rw [if_pos left, if_neg known, same]
    decide

/-! ## The policies -/

theorem resolveHistory_again {requested out : History} (accepted : defaults.validate = none)
    (resolved : resolveHistory requested defaults = some out) : resolveHistory out defaults = some out := by
  unfold Defaults.validate at accepted
  split at accepted
  · cases accepted
  next shallow =>
  split at accepted
  · cases accepted
  next shallow' =>
  unfold resolveHistory at resolved
  dsimp only at resolved
  split at resolved
  · cases resolved
  next within =>
    cases resolved
    unfold resolveHistory
    dsimp only
    have fits : ¬ orDefault requested.depth
        (if (if requested.kind = .keepAll then HistoryKind.keepAll else .keepLast) = .keepAll then defaults.keepAllDepth
          else defaults.depth) > 2 ^ 16 - 1 := by
      unfold orDefault
      split
      · exact within
      · split
        · exact shallow'
        · exact shallow
    rw [if_neg fits]
    by_cases all : requested.kind = .keepAll
    · simp only [all, if_true, orDefault_again]
    · simp only [all, if_false, orDefault_again, reduceCtorEq]

theorem resolveReliabilityKind_again {requested out : ReliabilityKind}
    (resolved : resolveReliabilityKind requested kind matched = some out) :
    resolveReliabilityKind out kind matched' = some out := by
  unfold resolveReliabilityKind at resolved
  cases requested with
  | systemDefault | reliable | bestEffort =>
    cases resolved
    rfl
  | bestAvailable =>
    dsimp only at resolved
    split at resolved
    · cases resolved
    · split at resolved
      · cases resolved
        rfl
      · cases resolved
        rfl

/-- The slots resolved for a window fit their 16 bits. -/
theorem orDefault_slots_lt {slots words : Nat} (typed : slots < 2 ^ 16) (within : words ≤ bitmapMaxWords) :
    orDefault slots (windowBits words) < 2 ^ 16 := by
  unfold orDefault windowBits bitmapMaxWords at *
  split
  · exact typed
  · omega

theorem resolveReliability_again {requested out : Reliability} (typed : requested.reorderSlots < 2 ^ 16)
    (resolved : resolveReliability requested kind matched defaults = some out) :
    resolveReliability out kind matched' defaults = some out := by
  unfold resolveReliability at resolved
  cases chosen : resolveReliabilityKind requested.kind kind matched with
  | none =>
    rw [chosen] at resolved
    cases resolved
  | some outKind =>
    have again := @resolveReliabilityKind_again kind matched matched' _ _ chosen
    rw [chosen] at resolved
    dsimp only at resolved
    by_cases wide : requested.trackingWords > bitmapMaxWords
    · rw [if_pos wide] at resolved
      cases resolved
    rw [if_neg wide] at resolved
    by_cases subscriber : kind = .topicSubscriber
    · have words : orDefault requested.trackingWords bitmapWords ≤ bitmapMaxWords := by
        unfold orDefault
        split
        · exact not_lt.mp wide
        · decide
      have slots := orDefault_slots_lt typed words
      subst subscriber
      by_cases reliable : outKind = .reliable
      · subst reliable
        simp only [decide_true, if_true, Bool.true_and, Bool.and_true, reduceCtorEq, if_false] at resolved
        split at resolved
        · cases resolved
        next enough =>
          cases resolved
          unfold resolveReliability
          rw [again]
          simp only [decide_true, if_true, Bool.true_and, Bool.and_true, reduceCtorEq, if_false, orDefault_again,
            not_lt.mpr words, Nat.mod_eq_of_lt slots, enough]
      · simp only [decide_true, if_true, Bool.true_and, reliable, decide_false, Bool.false_and, Bool.false_eq_true, if_false,
          reduceCtorEq] at resolved
        cases resolved
        unfold resolveReliability
        rw [again]
        simp only [decide_true, if_true, Bool.true_and, reliable, decide_false, Bool.false_and, Bool.false_eq_true, if_false,
          reduceCtorEq, orDefault_again, not_lt.mpr words]
    · simp only [subscriber, decide_false, Bool.false_and, Bool.false_eq_true, if_false] at resolved
      cases resolved
      have none_ : ¬ 0 > bitmapMaxWords := by decide
      unfold resolveReliability
      rw [again]
      simp only [subscriber, decide_false, Bool.false_and, Bool.false_eq_true, if_false, none_]
      by_cases publisher : kind = .topicPublisher
      · simp only [publisher, if_true, orDefault_again]
      · simp only [publisher, if_false]

theorem resolveDurability_again {requested out : DurabilityKind} (resolved : resolveDurability requested kind matched = some out) :
    resolveDurability out kind matched' = some out := by
  unfold resolveDurability at resolved
  cases requested with
  | systemDefault | volatile =>
    cases resolved
    rfl
  | transientLocal =>
    dsimp only at resolved
    split at resolved
    · cases resolved
    next topic =>
      cases resolved
      exact if_neg topic
  | bestAvailable =>
    dsimp only at resolved
    split at resolved
    · cases resolved
    next topic =>
      split at resolved
      · cases resolved
        exact if_neg topic
      · cases resolved
        rfl

theorem resolveLivelinessKind_again {requested out : LivelinessKind}
    (resolved : resolveLivelinessKind requested kind matched = some out) :
    resolveLivelinessKind out kind matched' = some out := by
  unfold resolveLivelinessKind at resolved
  cases requested with
  | systemDefault | automatic =>
    cases resolved
    rfl
  | manualByTopic =>
    dsimp only at resolved
    split at resolved
    · cases resolved
    next topic =>
      cases resolved
      exact if_neg topic
  | bestAvailable =>
    dsimp only at resolved
    split at resolved
    · cases resolved
    next topic =>
      split at resolved
      · cases resolved
        exact if_neg topic
      · cases resolved
        rfl

theorem resolveLiveliness_some {requested out : Liveliness} :
    resolveLiveliness requested kind matched leaseFloor = some out ↔
      resolveLivelinessKind requested.kind kind matched = some out.kind ∧
        grantedDuration matched requested.lease matched.lease = out.lease ∧ leaseFloor ≤ out.lease := by
  unfold resolveLiveliness
  cases chosen : resolveLivelinessKind requested.kind kind matched with
  | none => simp
  | some outKind =>
    dsimp only
    change (if grantedDuration matched requested.lease matched.lease < leaseFloor then none
      else some ⟨outKind, grantedDuration matched requested.lease matched.lease⟩) = some out ↔ _
    constructor
    · intro resolved
      split at resolved
      · cases resolved
      next kept =>
        cases resolved
        exact ⟨rfl, rfl, not_lt.mp kept⟩
    · rintro ⟨same, lease, kept⟩
      cases same
      rw [lease, if_neg (not_lt.mpr kept)]

/-! ## The profile -/

/-- What a resolution that succeeds gives, policy by policy. -/
theorem profileResolve_some {requested actual : Profile} :
    profileResolve defaults requested kind matched leaseFloor = some actual ↔
      kind ≠ .node ∧ resolveHistory requested.history defaults = some actual.history ∧
        resolveReliability requested.reliability kind matched defaults = some actual.reliability ∧
        resolveDurability requested.durability kind matched = some actual.durability ∧
        resolveLiveliness requested.liveliness kind matched leaseFloor = some actual.liveliness ∧
        grantedDuration matched requested.deadline matched.deadline = actual.deadline ∧
        duration requested.lifespan = actual.lifespan := by
  unfold profileResolve
  by_cases node : kind = .node
  · simp [node]
  · rw [if_neg node]
    simp only [Option.bind_eq_bind, Option.bind_eq_some_iff]
    constructor
    · rintro ⟨history, kept, reliability, reliable, durability, durable, liveliness, lively, same⟩
      cases same
      exact ⟨node, kept, reliable, durable, lively, rfl, rfl⟩
    · rintro ⟨-, kept, reliable, durable, lively, deadline, lifespan⟩
      refine ⟨_, kept, _, reliable, _, durable, _, lively, ?_⟩
      unfold grantedDuration at deadline
      rw [deadline, lifespan]
      rfl

/-- No duration left to the matched endpoints gets from them the number that stands for BEST_AVAILABLE. -/
structure Settles (requested : Profile) (matched : Matched) : Prop where
  deadline : requested.deadline = bestAvailable → matched.count ≠ 0 → matched.deadline ≠ bestAvailable
  lease : requested.liveliness.lease = bestAvailable → matched.count ≠ 0 → matched.lease ≠ bestAvailable

theorem settles_iff {requested : Profile} :
    Settles requested matched ↔ grantedDuration matched requested.deadline matched.deadline ≠ bestAvailable ∧
      grantedDuration matched requested.liveliness.lease matched.lease ≠ bestAvailable := by
  rw [Ne, Ne, grantedDuration_eq_bestAvailable, grantedDuration_eq_bestAvailable]
  constructor
  · rintro ⟨deadline, lease⟩
    exact ⟨fun ⟨left, known, same⟩ => deadline left known same, fun ⟨left, known, same⟩ => lease left known same⟩
  · rintro ⟨deadline, lease⟩
    exact ⟨fun left known same => deadline ⟨left, known, same⟩, fun left known same => lease ⟨left, known, same⟩⟩

/-- With nobody matched a duration left open becomes infinite. -/
theorem grantedDuration_unmatched (none_ : matched.count = 0) (value : Nat) :
    grantedDuration matched bestAvailable value = infinite := by
  unfold grantedDuration bestAvailableDuration
  rw [if_pos rfl, if_pos none_]

/-- A resolved profile resolves to itself, with any endpoints matched, exactly when none of its durations came out as the number that
stands for BEST_AVAILABLE. -/
theorem profileResolve_again_iff (given : Defaults) (accepted : given.resolve.validate = none) (requested : Profile)
    (typed : requested.Typed) (kind : EntityKind) (matched : Matched) (leaseFloor : Nat) (actual : Profile)
    (resolved : profileResolve given.resolve requested kind matched leaseFloor = some actual) :
    (∀ matched', profileResolve given.resolve actual kind matched' leaseFloor = some actual) ↔ Settles requested matched := by
  obtain ⟨topic, history, reliability, durability, liveliness, deadline, lifespan⟩ := profileResolve_some.mp resolved
  obtain ⟨livelinessKind, lease, floor⟩ := resolveLiveliness_some.mp liveliness
  rw [settles_iff, deadline, lease]
  constructor
  · intro again
    have alone := again ⟨0, true, true, true, 0, 0⟩
    obtain ⟨-, -, -, -, lively, alike, -⟩ := profileResolve_some.mp alone
    obtain ⟨-, alike', -⟩ := resolveLiveliness_some.mp lively
    constructor
    · intro same
      rw [same, grantedDuration_unmatched rfl] at alike
      exact absurd alike (by decide)
    · intro same
      rw [same, grantedDuration_unmatched rfl] at alike'
      exact absurd alike' (by decide)
  · rintro ⟨own, own'⟩ matched'
    have set : actual.deadline ≠ 0 := deadline ▸ grantedDuration_ne_zero _ _ _
    have set' : actual.liveliness.lease ≠ 0 := lease ▸ grantedDuration_ne_zero _ _ _
    refine profileResolve_some.mpr ⟨topic, resolveHistory_again accepted history,
      resolveReliability_again typed.reorderSlots reliability, resolveDurability_again durability,
      resolveLiveliness_some.mpr ⟨resolveLivelinessKind_again livelinessKind, ?_, floor⟩, ?_, ?_⟩
    · exact grantedDuration_of_settled matched' _ set' own'
    · exact grantedDuration_of_settled matched' _ set own
    · rw [← lifespan]
      exact duration_again _

/-- A request that leaves everything to the matched endpoints. -/
def leftOpen : Profile :=
  ⟨⟨.systemDefault, 0, 0⟩, ⟨.bestAvailable, 0, 0, 0⟩, .bestAvailable, bestAvailable, 0, ⟨.bestAvailable, bestAvailable⟩⟩

theorem leftOpen_typed : leftOpen.Typed :=
  ⟨by decide, by decide, by decide, by decide, by decide, by decide, by decide, by decide⟩

/-- One Publisher that offers a deadline of a second: what a Subscriber gets for it stays when the Publisher has left. -/
theorem leftOpen_settles :
    profileResolve (Defaults.resolve ⟨0, 0, 0, 0, 0⟩)
        ⟨⟨.keepLast, 10, 1048576⟩, ⟨.reliable, 4, 256, 0⟩, .volatile, 1000000000, infinite, ⟨.automatic, infinite⟩⟩
        .topicSubscriber ⟨0, true, true, true, infinite, infinite⟩ 6000000 =
      some ⟨⟨.keepLast, 10, 1048576⟩, ⟨.reliable, 4, 256, 0⟩, .volatile, 1000000000, infinite, ⟨.automatic, infinite⟩⟩ :=
  (profileResolve_again_iff ⟨0, 0, 0, 0, 0⟩ (by decide) leftOpen leftOpen_typed .topicSubscriber
    ⟨1, true, false, false, 1000000000, infinite⟩ 6000000 _ (by decide)).mpr ⟨by decide, by decide⟩
    ⟨0, true, true, true, infinite, infinite⟩

/-- One Publisher that announces the deadline 2^64 - 2: the Subscriber's profile still says BEST_AVAILABLE, and with nobody matched it
resolves to an infinite deadline. -/
theorem leftOpen_resolves_twice :
    ∃ actual, profileResolve (Defaults.resolve ⟨0, 0, 0, 0, 0⟩) leftOpen .topicSubscriber
        ⟨1, true, true, true, 2 ^ 64 - 2, infinite⟩ 6000000 = some actual ∧
      ¬ ∀ matched', profileResolve (Defaults.resolve ⟨0, 0, 0, 0, 0⟩) actual .topicSubscriber matched' 6000000 =
        some actual := by
  refine ⟨⟨⟨.keepLast, 10, 1048576⟩, ⟨.reliable, 4, 256, 0⟩, .transientLocal, 2 ^ 64 - 2, infinite,
    ⟨.manualByTopic, infinite⟩⟩, by decide, ?_⟩
  intro again
  have alone := again ⟨0, true, true, true, 0, 0⟩
  revert alone
  decide

end Qos

end Tickle
