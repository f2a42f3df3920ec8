import Tickle.Qos.Profile

/-! # BEST_AVAILABLE

An endpoint that leaves its policies to what discovery shows resolves to a profile that meets every endpoint it saw, or is
refused for its lease. One case is missed: a Publisher reads the largest duration a Subscriber can request, 2^64 - 1, as no
request at all, and offers an infinite one.
-/

namespace Tickle

namespace Qos

variable {α : Type} {l : List α} {f : α → Nat} {init : Nat}

/-! ## The bounds gathered -/

theorem bound_cases (takeMax : Bool) (old value : Nat) :
    (bound takeMax old value = old ∨ bound takeMax old value = value) ∧
      (takeMax = true → old ≤ bound takeMax old value ∧ value ≤ bound takeMax old value) ∧
      (takeMax = false → bound takeMax old value ≤ old ∧ bound takeMax old value ≤ value) := by
  unfold bound
  cases takeMax with
  | true =>
    rw [if_pos rfl]
    split
    · exact ⟨.inr rfl, fun _ => by omega, fun no => (by cases no)⟩
    · exact ⟨.inl rfl, fun _ => by omega, fun no => (by cases no)⟩
  | false =>
    rw [if_neg (by decide)]
    split
    · exact ⟨.inr rfl, fun no => (by cases no), fun _ => by omega⟩
    · exact ⟨.inl rfl, fun no => (by cases no), fun _ => by omega⟩

/-- The bound gathered is the first one or one of those met, and the largest or the smallest of them. -/
theorem foldl_bound (takeMax : Bool) (l : List α) (f : α → Nat) (init : Nat) :
    (l.foldl (fun old a => bound takeMax old (f a)) init = init ∨
        ∃ a ∈ l, l.foldl (fun old a => bound takeMax old (f a)) init = f a) ∧
      (takeMax = true → init ≤ l.foldl (fun old a => bound takeMax old (f a)) init ∧
        ∀ a ∈ l, f a ≤ l.foldl (fun old a => bound takeMax old (f a)) init) ∧
      (takeMax = false → l.foldl (fun old a => bound takeMax old (f a)) init ≤ init ∧
        ∀ a ∈ l, l.foldl (fun old a => bound takeMax old (f a)) init ≤ f a) := by
  induction l generalizing init with
  | nil =>
    exact ⟨.inl rfl, fun _ => ⟨Nat.le_refl _, fun a member => absurd member List.not_mem_nil⟩,
      fun _ => ⟨Nat.le_refl _, fun a member => absurd member List.not_mem_nil⟩⟩
  | cons a rest ih =>
    rw [List.foldl_cons]
    obtain ⟨attained, most, least⟩ := ih (bound takeMax init (f a))
    obtain ⟨either, up, down⟩ := bound_cases takeMax init (f a)
    refine ⟨?_, ?_, ?_⟩
    · rcases attained with same | ⟨b, member, same⟩
      · rw [same]
        rcases either with old | new
        · exact .inl old
        · exact .inr ⟨a, List.mem_cons_self, new⟩
      · exact .inr ⟨b, List.mem_cons_of_mem _ member, same⟩
    · intro yes
      obtain ⟨low, all⟩ := most yes
      refine ⟨(up yes).1.trans low, ?_⟩
      intro b member
      rcases List.mem_cons.mp member with same | later
      · rw [same]
        exact (up yes).2.trans low
      · exact all b later
    · intro no
      obtain ⟨low, all⟩ := least no
      refine ⟨low.trans (down no).1, ?_⟩
      intro b member
      rcases List.mem_cons.mp member with same | later
      · rw [same]
        exact low.trans (down no).2
      · exact all b later

/-- What the loop of `qos_gather_matched()` makes of the entities it sees, field by field. -/
theorem foldl_gatherOne (takeMax : Bool) (l : List UpdateEntity) (matched : Matched) :
    l.foldl (gatherOne takeMax) matched =
      { count := matched.count + l.length
        allReliable := matched.allReliable && l.all fun e => e.qos.reliable
        allDurable := matched.allDurable && l.all fun e => e.qos.durable
        allManual := matched.allManual && l.all fun e => e.qos.livelinessManual
        deadline := l.foldl (fun old e => bound takeMax old (orDefault e.deadlineDuration infinite)) matched.deadline
        lease := l.foldl (fun old e => bound takeMax old (orDefault e.livelinessLeaseDuration infinite)) matched.lease } := by
  induction l generalizing matched with
  | nil => simp
  | cons e rest ih =>
    rw [List.foldl_cons, ih]
    unfold gatherOne matchOne
    simp only [List.length_cons, List.all_cons, List.foldl_cons, Bool.and_assoc]
    congr 1
    omega

/-! ## Durations -/

variable {entities : List UpdateEntity} {field : UpdateEntity → Nat}

/-- A Subscriber asks for the loosest duration offered. -/
theorem loosest_within (sized : ∀ e ∈ entities, field e ≤ infinite) {e : UpdateEntity} (member : e ∈ entities) :
    Within (field e)
      (toField (duration (entities.foldl (fun old e => bound true old (orDefault (field e) infinite)) 0))) := by
  obtain ⟨attained, most, _⟩ := foldl_bound true entities (fun e => orDefault (field e) infinite) 0
  have all := (most rfl).2 e member
  generalize entities.foldl (fun old e => bound true old (orDefault (field e) infinite)) 0 = loosest at attained all ⊢
  have small : loosest ≤ infinite := by
    rcases attained with same | ⟨a, here, same⟩
    · omega
    · have := sized a here
      unfold orDefault at same
      split at same
      · omega
      · omega
  unfold orDefault at all
  unfold Within toField duration
  have large : infinite ≠ 0 := by decide
  by_cases offered : field e = 0
  · rw [if_neg (not_not.mpr offered)] at all
    have unbounded : loosest = infinite := by omega
    left
    rw [unbounded, if_neg large, if_pos rfl]
  · rw [if_pos offered] at all
    have some_ : loosest ≠ 0 := by omega
    rw [if_neg some_]
    by_cases unbounded : loosest = infinite
    · left
      exact if_pos unbounded
    · right
      rw [if_neg unbounded]
      exact ⟨offered, all⟩

/-- A Publisher's bound tells the durations apart: none requested is the largest there is, or one is finite and
shorter. -/
def Sparing (entities : List UpdateEntity) (field : UpdateEntity → Nat) : Prop :=
  (∀ e ∈ entities, field e ≠ infinite) ∨ ∃ e ∈ entities, field e ≠ 0 ∧ field e < infinite

instance (entities : List UpdateEntity) (field : UpdateEntity → Nat) : Decidable (Sparing entities field) :=
  inferInstanceAs (Decidable (_ ∨ _))

/-- A Publisher offers the tightest duration requested, if it can tell it from none. -/
theorem tightest_within (sized : ∀ e ∈ entities, field e ≤ infinite) :
    (∀ e ∈ entities, Within
        (toField (duration (entities.foldl (fun old e => bound false old (orDefault (field e) infinite)) infinite)))
        (field e)) ↔
      Sparing entities field := by
  obtain ⟨attained, _, least⟩ := foldl_bound false entities (fun e => orDefault (field e) infinite) infinite
  obtain ⟨small, all⟩ := least rfl
  generalize entities.foldl (fun old e => bound false old (orDefault (field e) infinite)) infinite = tightest at *
  have large : infinite ≠ 0 := by decide
  have some_ : tightest ≠ 0 := by
    rcases attained with same | ⟨a, _, same⟩
    · rw [same]
      exact large
    · rw [same]
      unfold orDefault
      split
      next yes => exact yes
      · exact large
  unfold duration
  rw [if_neg some_]
  unfold toField Within Sparing
  by_cases unbounded : tightest = infinite
  · -- every duration requested is none or the largest, and an infinite one is offered
    rw [if_pos unbounded]
    have none_shorter : ¬ ∃ e ∈ entities, field e ≠ 0 ∧ field e < infinite := by
      rintro ⟨e, member, asked, shorter⟩
      have := all e member
      unfold orDefault at this
      rw [if_pos asked] at this
      omega
    rw [or_iff_left none_shorter]
    constructor
    · intro within e member same
      rcases within e member with none_ | ⟨no, _⟩
      · exact large (same.symm.trans none_)
      · exact no rfl
    · intro spared e member
      left
      by_contra asked
      have := all e member
      unfold orDefault at this
      rw [if_pos asked] at this
      have := sized e member
      exact spared e member (by omega)
  · rw [if_neg unbounded]
    constructor
    · intro _
      right
      rcases attained with same | ⟨a, member, same⟩
      · exact absurd same unbounded
      · unfold orDefault at same
        split at same
        next asked => exact ⟨a, member, asked, by omega⟩
        · exact absurd same unbounded
    · intro _ e member
      by_cases asked : field e = 0
      · exact .inl asked
      · have := all e member
        unfold orDefault at this
        rw [if_pos asked] at this
        exact .inr ⟨some_, this⟩

/-! ## Resolution -/

/-- A request that leaves every policy that can be to what discovery shows; its other fields are ones a creation takes. -/
structure AsksBestAvailable (requested : Profile) : Prop where
  reliability : requested.reliability.kind = .bestAvailable
  durability : requested.durability = .bestAvailable
  deadline : requested.deadline = bestAvailable
  liveliness : requested.liveliness = ⟨.bestAvailable, bestAvailable⟩
  depth : requested.history.depth ≤ 2 ^ 16 - 1
  words : requested.reliability.trackingWords ≤ bitmapMaxWords
  slots : requested.reliability.reorderSlots = 0 ∨ reorderTooNarrow requested.reliability.reorderSlots
    (orDefault requested.reliability.trackingWords bitmapWords) = false

/-- What a BEST_AVAILABLE endpoint requests or offers. -/
def bestAvailableRxo (kind : EntityKind) (matched : Matched) : Rxo where
  reliable := takesStrict kind matched matched.allReliable
  durable := takesStrict kind matched matched.allDurable
  manual := takesStrict kind matched matched.allManual
  deadline := toField (bestAvailableDuration matched matched.deadline)
  lease := toField (bestAvailableDuration matched matched.lease)

variable {defaults : Defaults} {requested : Profile} {kind : EntityKind} {matched : Matched} {leaseFloor : Nat}

theorem window_wide (words : Nat) : reorderTooNarrow (windowBits words) words = false := by
  unfold reorderTooNarrow
  rw [Bool.and_eq_false_iff]
  right
  simp

theorem resolveReliability_bestAvailable (topic : isService kind = false) (asks : AsksBestAvailable requested) :
    ∃ out, resolveReliability requested.reliability kind matched defaults = some out ∧
      decide (out.kind = .reliable) = takesStrict kind matched matched.allReliable := by
  have words := asks.words
  have wide : ∀ reliable : Bool, ¬ ((decide (kind = .topicSubscriber) && reliable && reorderTooNarrow
      (orDefault requested.reliability.reorderSlots (windowBits
        (if decide (kind = .topicSubscriber) = true then orDefault requested.reliability.trackingWords bitmapWords else 0)))
      (if decide (kind = .topicSubscriber) = true then orDefault requested.reliability.trackingWords bitmapWords else 0)) =
        true) := by
    intro reliable
    by_cases subscriber : kind = .topicSubscriber
    · simp only [subscriber, decide_true, if_true, Bool.true_and]
      unfold orDefault
      by_cases none_ : requested.reliability.reorderSlots = 0
      · rw [if_neg (not_not.mpr none_), window_wide]
        simp
      · rw [if_pos none_]
        have narrow := asks.slots.resolve_left none_
        unfold orDefault at narrow
        rw [narrow]
        simp
    · simp [subscriber]
  unfold resolveReliability resolveReliabilityKind
  rw [asks.reliability]
  dsimp only
  rw [if_neg (by rw [topic]; decide)]
  cases strict : takesStrict kind matched matched.allReliable with
  | true =>
    rw [if_pos rfl]
    dsimp only
    rw [if_neg (by omega), if_neg (wide _)]
    exact ⟨_, rfl, rfl⟩
  | false =>
    rw [if_neg (by decide)]
    dsimp only
    rw [if_neg (by omega), if_neg (wide _)]
    exact ⟨_, rfl, rfl⟩

theorem resolveDurability_bestAvailable (topic : isService kind = false) (asks : AsksBestAvailable requested) :
    ∃ out, resolveDurability requested.durability kind matched = some out ∧
      decide (out = .transientLocal) = takesStrict kind matched matched.allDurable := by
  unfold resolveDurability
  rw [asks.durability]
  dsimp only
  rw [if_neg (by rw [topic]; decide)]
  cases takesStrict kind matched matched.allDurable with
  | true => exact ⟨_, rfl, rfl⟩
  | false => exact ⟨_, rfl, rfl⟩

theorem resolveLiveliness_bestAvailable (topic : isService kind = false) (asks : AsksBestAvailable requested)
    (kept : ¬ bestAvailableDuration matched matched.lease < leaseFloor) :
    ∃ out, resolveLiveliness requested.liveliness kind matched leaseFloor = some out ∧
      decide (out.kind = .manualByTopic) = takesStrict kind matched matched.allManual ∧
      out.lease = bestAvailableDuration matched matched.lease := by
  unfold resolveLiveliness resolveLivelinessKind
  rw [asks.liveliness]
  dsimp only
  rw [if_neg (by rw [topic]; decide)]
  cases takesStrict kind matched matched.allManual with
  | true =>
    rw [if_pos rfl]
    dsimp only
    rw [if_pos rfl, if_neg kept]
    exact ⟨_, rfl, rfl, rfl⟩
  | false =>
    rw [if_neg (by decide)]
    dsimp only
    rw [if_pos rfl, if_neg kept]
    exact ⟨_, rfl, rfl, rfl⟩

/-- A BEST_AVAILABLE request is refused for its lease, or resolves to what discovery shows. -/
theorem profileResolve_bestAvailable (topic : isService kind = false) (asks : AsksBestAvailable requested) :
    (bestAvailableDuration matched matched.lease < leaseFloor →
        profileResolve defaults requested kind matched leaseFloor = none) ∧
      (¬ bestAvailableDuration matched matched.lease < leaseFloor →
        ∃ actual, profileResolve defaults requested kind matched leaseFloor = some actual ∧
          rxoOfProfile actual = bestAvailableRxo kind matched) := by
  have notNode : kind ≠ .node := by
    intro node
    rw [node] at topic
    cases topic
  obtain ⟨reliability, resolved, reliable⟩ := @resolveReliability_bestAvailable defaults requested kind matched topic asks
  obtain ⟨durability, resolved', durable⟩ := @resolveDurability_bestAvailable requested kind matched topic asks
  have history : ∃ out, resolveHistory requested.history defaults = some out := by
    have depth := asks.depth
    unfold resolveHistory
    dsimp only
    rw [if_neg (by omega)]
    exact ⟨_, rfl⟩
  obtain ⟨history, resolved''⟩ := history
  unfold profileResolve
  rw [if_neg notNode, resolved'', resolved, resolved']
  dsimp only [Option.bind_eq_bind, Option.bind_some]
  constructor
  · intro low
    have refused : resolveLiveliness requested.liveliness kind matched leaseFloor = none := by
      unfold resolveLiveliness
      rw [asks.liveliness]
      dsimp only
      split
      · rfl
      · rw [if_pos rfl, if_pos low]
    rw [refused]
    rfl
  · intro kept
    obtain ⟨liveliness, resolved₃, manual, lease⟩ :=
      @resolveLiveliness_bestAvailable requested kind matched leaseFloor topic asks kept
    rw [resolved₃]
    refine ⟨_, rfl, ?_⟩
    unfold rxoOfProfile bestAvailableRxo
    dsimp only
    rw [reliable, durable, manual, lease, if_pos asks.deadline]

/-! ## Everything it saw -/

variable {entities : List DiscoveredEntity} {topicName : String}

/-- The endpoint is refused for its lease, or its profile is compatible with every endpoint of the other side that
discovery showed alive on its topic. -/
def MatchesSeen (defaults : Defaults) (requested : Profile) (kind : EntityKind) (entities : List DiscoveredEntity)
    (topicName : String) (leaseFloor : Nat) : Prop :=
  let matched := gatherMatched entities kind topicName
  (profileResolve defaults requested kind matched leaseFloor = none ∧
      bestAvailableDuration matched matched.lease < leaseFloor) ∨
    ∃ actual, profileResolve defaults requested kind matched leaseFloor = some actual ∧
      ∀ e ∈ seen entities kind topicName, judge kind actual e = .invalid

/-- The durations of the table are 64 bits wide. -/
def Sized (entities : List DiscoveredEntity) : Prop :=
  ∀ d ∈ entities, d.announced.deadlineDuration ≤ infinite ∧ d.announced.livelinessLeaseDuration ≤ infinite

theorem sized_seen (sized : Sized entities) : ∀ e ∈ seen entities kind topicName,
    e.deadlineDuration ≤ infinite ∧ e.livelinessLeaseDuration ≤ infinite := by
  intro e member
  obtain ⟨d, here, rfl⟩ := List.mem_map.mp member
  exact sized d (List.mem_filter.mp here).1

theorem not_refused_or (topic : isService kind = false) (asks : AsksBestAvailable requested) :
    MatchesSeen defaults requested kind entities topicName leaseFloor ↔
      bestAvailableDuration (gatherMatched entities kind topicName) (gatherMatched entities kind topicName).lease <
          leaseFloor ∨
        ∀ e ∈ seen entities kind topicName,
          if kind = .topicPublisher then
            Serves (bestAvailableRxo kind (gatherMatched entities kind topicName)) (rxoOfAnnounce e)
          else Serves (rxoOfAnnounce e) (bestAvailableRxo kind (gatherMatched entities kind topicName)) := by
  obtain ⟨refuses, resolves⟩ := @profileResolve_bestAvailable defaults requested kind
    (gatherMatched entities kind topicName) leaseFloor topic asks
  have judged : ∀ actual e, rxoOfProfile actual = bestAvailableRxo kind (gatherMatched entities kind topicName) →
      (judge kind actual e = .invalid ↔
        if kind = .topicPublisher then
          Serves (bestAvailableRxo kind (gatherMatched entities kind topicName)) (rxoOfAnnounce e)
        else Serves (rxoOfAnnounce e) (bestAvailableRxo kind (gatherMatched entities kind topicName))) := by
    intro actual e same
    unfold judge
    rw [same]
    split
    · exact incompatiblePolicy_invalid
    · exact incompatiblePolicy_invalid
  unfold MatchesSeen
  dsimp only
  by_cases low : bestAvailableDuration (gatherMatched entities kind topicName)
      (gatherMatched entities kind topicName).lease < leaseFloor
  · exact ⟨fun _ => .inl low, fun _ => .inl ⟨refuses low, low⟩⟩
  · obtain ⟨actual, resolved, same⟩ := resolves low
    constructor
    · rintro (⟨none_, _⟩ | ⟨other, resolved', all⟩)
      · rw [resolved] at none_
        cases none_
      · rw [resolved] at resolved'
        cases resolved'
        exact .inr fun e member => (judged actual e same).mp (all e member)
    · rintro (yes | all)
      · exact absurd yes low
      · exact .inr ⟨actual, resolved, fun e member => (judged actual e same).mpr (all e member)⟩

theorem subscriber_serves (sized : Sized entities) {e : UpdateEntity} (member : e ∈ seen entities .topicSubscriber topicName) :
    Serves (rxoOfAnnounce e) (bestAvailableRxo .topicSubscriber (gatherMatched entities .topicSubscriber topicName)) := by
  have widths := @sized_seen .topicSubscriber entities topicName sized
  unfold gatherMatched
  rw [if_pos (.inr rfl)]
  dsimp only
  rw [foldl_gatherOne]
  generalize seen entities .topicSubscriber topicName = l at member widths ⊢
  have some_ : 0 + l.length ≠ 0 := by
    have := List.length_pos_of_mem member
    omega
  have strict : ∀ (p : UpdateEntity → Bool) (m : Matched), m.count = 0 + l.length →
      takesStrict .topicSubscriber m (true && l.all p) = true → p e = true := by
    intro p m count yes
    unfold takesStrict at yes
    rw [count] at yes
    have all : l = [] ∨ ∀ a ∈ l, p a = true := by simpa using yes
    rcases all with empty | all
    · rw [empty] at member
      cases member
    · exact all e member
  unfold bestAvailableRxo bestAvailableDuration
  dsimp only
  rw [if_neg some_, if_neg some_]
  exact ⟨strict _ _ rfl, strict _ _ rfl, strict _ _ rfl, loosest_within (fun e here => (widths e here).1) member,
    loosest_within (fun e here => (widths e here).2) member⟩

theorem publisher_serves_iff (sized : Sized entities) :
    (∀ e ∈ seen entities .topicPublisher topicName,
        Serves (bestAvailableRxo .topicPublisher (gatherMatched entities .topicPublisher topicName)) (rxoOfAnnounce e)) ↔
      Sparing (seen entities .topicPublisher topicName) UpdateEntity.deadlineDuration ∧
        Sparing (seen entities .topicPublisher topicName) UpdateEntity.livelinessLeaseDuration := by
  have widths := @sized_seen .topicPublisher entities topicName sized
  unfold gatherMatched
  rw [if_pos (.inl rfl)]
  dsimp only
  rw [foldl_gatherOne]
  generalize seen entities .topicPublisher topicName = l at widths ⊢
  have deadlines := tightest_within (fun e here => (widths e here).1)
  have leases := tightest_within (fun e here => (widths e here).2)
  by_cases empty : l = []
  · subst empty
    constructor
    · intro _
      exact ⟨.inl fun e no => absurd no List.not_mem_nil, .inl fun e no => absurd no List.not_mem_nil⟩
    · intro _ e no
      exact absurd no List.not_mem_nil
  · have some_ : 0 + l.length ≠ 0 := by
      have := List.length_pos_of_ne_nil empty
      omega
    unfold bestAvailableRxo bestAvailableDuration
    dsimp only
    rw [if_neg some_, if_neg some_, ← deadlines, ← leases]
    constructor
    · intro serves
      exact ⟨fun e member => (serves e member).deadline, fun e member => (serves e member).lease⟩
    · rintro ⟨within, within'⟩ e member
      exact ⟨fun _ => rfl, fun _ => rfl, fun _ => rfl, within e member, within' e member⟩

/-- A Publisher's lease is below the floor when a Subscriber seen requests one that is. -/
theorem publisher_refused_iff (floor : leaseFloor ≤ infinite) :
    bestAvailableDuration (gatherMatched entities .topicPublisher topicName)
        (gatherMatched entities .topicPublisher topicName).lease < leaseFloor ↔
      ∃ e ∈ seen entities .topicPublisher topicName,
        e.livelinessLeaseDuration ≠ 0 ∧ e.livelinessLeaseDuration < leaseFloor := by
  unfold gatherMatched
  rw [if_pos (.inl rfl)]
  dsimp only
  rw [foldl_gatherOne]
  generalize seen entities .topicPublisher topicName = l
  obtain ⟨attained, _, least⟩ := foldl_bound false l (fun e => orDefault e.livelinessLeaseDuration infinite) infinite
  obtain ⟨_, all⟩ := least rfl
  have large : infinite ≠ 0 := by decide
  unfold bestAvailableDuration
  dsimp only
  rw [show decide (EntityKind.topicPublisher = EntityKind.topicSubscriber) = false from rfl,
    if_neg (show ¬ false = true by decide)]
  generalize l.foldl (fun old e => bound false old (orDefault e.livelinessLeaseDuration infinite)) infinite = tightest at *
  have some_ : tightest ≠ 0 := by
    rcases attained with same | ⟨a, _, same⟩
    · rw [same]
      exact large
    · rw [same]
      unfold orDefault
      split
      next yes => exact yes
      · exact large
  unfold duration
  rw [if_neg some_]
  constructor
  · intro low
    by_cases empty : 0 + l.length = 0
    · rw [if_pos empty] at low
      omega
    · rw [if_neg empty] at low
      rcases attained with same | ⟨a, member, same⟩
      · omega
      · unfold orDefault at same
        split at same
        next asked => exact ⟨a, member, asked, by omega⟩
        · omega
  · rintro ⟨e, member, asked, low⟩
    have := all e member
    unfold orDefault at this
    rw [if_pos asked] at this
    have := List.length_pos_of_mem member
    rw [if_neg (by omega)]
    omega

/-- BEST_AVAILABLE matches everything it saw: a Subscriber always, a Publisher unless all the durations requested are none
or the largest there is, and one is. -/
theorem bestAvailable_matches_iff (asks : AsksBestAvailable requested)
    (topic : kind = .topicPublisher ∨ kind = .topicSubscriber) (sized : Sized entities) (floor : leaseFloor ≤ infinite) :
    MatchesSeen defaults requested kind entities topicName leaseFloor ↔
      kind = .topicSubscriber ∨
        (∃ e ∈ seen entities kind topicName, e.livelinessLeaseDuration ≠ 0 ∧ e.livelinessLeaseDuration < leaseFloor) ∨
        (Sparing (seen entities kind topicName) UpdateEntity.deadlineDuration ∧
          Sparing (seen entities kind topicName) UpdateEntity.livelinessLeaseDuration) := by
  rcases topic with pub | sub
  · subst pub
    rw [not_refused_or rfl asks, publisher_refused_iff floor]
    simp only [if_true]
    rw [publisher_serves_iff sized]
    simp
  · subst sub
    rw [not_refused_or rfl asks]
    constructor
    · intro _
      exact .inl rfl
    · intro _
      right
      intro e member
      rw [if_neg (by decide)]
      exact subscriber_serves sized member

/-! ## The largest duration -/

/-- A profile with every policy left to discovery. -/
def allBestAvailable : Profile where
  history := ⟨.systemDefault, 0, 0⟩
  reliability := ⟨.bestAvailable, 0, 0, 0⟩
  durability := .bestAvailable
  deadline := bestAvailable
  lifespan := 0
  liveliness := ⟨.bestAvailable, bestAvailable⟩

theorem allBestAvailable_asks : AsksBestAvailable allBestAvailable := ⟨rfl, rfl, rfl, rfl, by decide, by decide, .inl rfl⟩

/-- A Subscriber of the topic with a deadline. -/
def seenSubscriber (deadline : Nat) : DiscoveredEntity :=
  ⟨⟨1, 7, .topicSubscriber, 0, ⟨true, false, false, false⟩, deadline, 0, 0, 0, 4, "T", "topic"⟩, true, 0⟩

def qosDefaults : Defaults := ⟨10, 256, 65536, 524288, 100000000⟩

/-- A Publisher meets a Subscriber with a deadline of a second. -/
theorem second_matched : MatchesSeen qosDefaults allBestAvailable .topicPublisher [seenSubscriber 1000000000] "topic" 6000000 :=
  (bestAvailable_matches_iff allBestAvailable_asks (.inl rfl) (by unfold Sized; decide) (by decide)).mpr
    (.inr (.inr (by decide)))

/-- A Subscriber that requests the largest deadline there is, and the infinite one a Publisher then offers. -/
theorem largest_not_matched :
    ¬ MatchesSeen qosDefaults allBestAvailable .topicPublisher [seenSubscriber infinite] "topic" 6000000 := by
  unfold MatchesSeen
  rintro (⟨refused, _⟩ | ⟨actual, resolved, all⟩)
  · exact absurd refused (by decide)
  · have judged := all (seenSubscriber infinite).announced (by decide)
    have same : some actual = profileResolve qosDefaults allBestAvailable .topicPublisher
      (gatherMatched [seenSubscriber infinite] .topicPublisher "topic") 6000000 := resolved.symm
    have value : profileResolve qosDefaults allBestAvailable .topicPublisher
        (gatherMatched [seenSubscriber infinite] .topicPublisher "topic") 6000000 =
        some ⟨⟨.keepLast, 10, 65536⟩, ⟨.reliable, 0, 0, 100000000⟩, .transientLocal, infinite, infinite,
          ⟨.manualByTopic, infinite⟩⟩ := by decide
    rw [value] at same
    cases same
    exact absurd judged (by decide)

end Qos

end Tickle
