import Tickle.Discovery.Liveliness

/-! # The liveliness check

One timer judges every remote context by its silence and every leased entity by its lease. A run that comes late
against the time it was armed for adds that lateness to the silence it allows a context: once, for itself. The next
run, or the one a deferral arms, is late only by its own lateness, and leases are never extended.
-/

namespace Tickle

/-- `discovery_silence_of()`. -/
def discoverySilenceOf (updateInterval missThreshold : Nat) : Nat := (missThreshold * 2 + 1) * updateInterval / 2

/-- `tt_ContextOptions.discovery`, as resolved. -/
structure DiscoveryTiming where
  updateInterval : Nat
  missThreshold : Nat
  maxLease : Nat
  livelinessDefer : Nat
  livelinessMaxDeferrals : Nat
  deriving DecidableEq, Repr

/-- `discovery_silence_ns()`. -/
def DiscoveryTiming.silence (timing : DiscoveryTiming) : Nat :=
  discoverySilenceOf timing.updateInterval timing.missThreshold

/-- A datagram as discovery sees it. A summary names its sender's update interval and miss threshold. -/
inductive Datagram
  | announce (a : Announce)
  | summary (updateInterval missThreshold : Nat)
  | data (asserts : Option (Nat × Nat))
  | acknack (slot entityId : Nat) (departed : Bool)

def Datagram.event (now : Nat) : Datagram → RemoteContext.Event
  | .announce a => .announce now a
  | .summary _ _ => .summary now
  | .data asserts => .data now asserts
  | .acknack slot entityId departed => .acknack now slot entityId departed

namespace RemoteContext

/-- Heard of: an announce of it came, or a part of one. -/
def tracked (c : RemoteContext) : Bool := c.updateSeen || c.updatePartsAny

/-- `longest_lease_from()`. -/
def longestLeaseFrom (c : RemoteContext) : Nat :=
  c.entities.foldl (fun longest d => max longest d.announced.livelinessLeaseDuration) 0

end RemoteContext

namespace RemoteContext

variable {c s : RemoteContext} {now : Nat}

/-! ## A sign of life -/

theorem reviveLapsedEntities_trafficLastSeen (c : RemoteContext) :
    c.reviveLapsedEntities.trafficLastSeen = c.trafficLastSeen := by
  unfold reviveLapsedEntities
  split
  · rfl
  · rfl

theorem traffic_trafficLastSeen (c : RemoteContext) (now : Nat) : (c.traffic now).trafficLastSeen = now := by
  unfold traffic
  simp only
  split
  · rw [reviveLapsedEntities_trafficLastSeen]
  · rfl

theorem noteManualAssertion_trafficLastSeen (c : RemoteContext) (now endpointId entityId : Nat) :
    (c.noteManualAssertion now endpointId entityId).trafficLastSeen = c.trafficLastSeen := by
  unfold noteManualAssertion
  simp only
  split
  · rfl
  split
  · rfl
  · rfl

theorem claimFromAcknack_trafficLastSeen (c : RemoteContext) (slot entityId : Nat) (departed : Bool) :
    (c.claimFromAcknack slot entityId departed).trafficLastSeen = c.trafficLastSeen := by
  unfold claimFromAcknack
  split
  · rfl
  split
  · rfl
  split
  · rfl
  split
  · rfl
  · rfl

theorem registerPeers_trafficLastSeen (c : RemoteContext) (e : UpdateEntity) :
    (c.registerPeers e).trafficLastSeen = c.trafficLastSeen := by
  unfold registerPeers
  split
  · rfl
  · rfl
  · rfl

theorem absorb_trafficLastSeen (c : RemoteContext) (now : Nat) (a : Announce) :
    (c.absorb now a).trafficLastSeen = c.trafficLastSeen := by
  have taken : ∀ (entities : List UpdateEntity) (c : RemoteContext),
      (entities.foldl (takeEntity now) c).trafficLastSeen = c.trafficLastSeen := by
    intro entities
    induction entities with
    | nil => intro c; rfl
    | cons e entities ih =>
      intro c
      rw [List.foldl_cons, ih]
      exact registerPeers_trafficLastSeen c e
  have begun : (c.beginList a).trafficLastSeen = c.trafficLastSeen := by
    unfold beginList
    split
    · rfl
    · rfl
  change ((c.beginList a).decodeUpdateEntities now a).trafficLastSeen = c.trafficLastSeen
  unfold decodeUpdateEntities
  simp only
  split
  · rw [taken, begun]
  · rw [registerPeers_trafficLastSeen, taken, begun]

theorem processAnnounce_trafficLastSeen (c : RemoteContext) (now : Nat) (a : Announce) :
    (c.processAnnounce now a).trafficLastSeen = c.trafficLastSeen := by
  unfold processAnnounce
  simp only
  split
  · rfl
  split
  · exact absorb_trafficLastSeen _ _ _
  split
  · exact absorb_trafficLastSeen _ _ _
  · exact absorb_trafficLastSeen _ _ _

/-- Any datagram is one, whatever it carries. -/
theorem step_trafficLastSeen (c : RemoteContext) (now : Nat) (datagram : Datagram) :
    (c.step (datagram.event now)).trafficLastSeen = now := by
  cases datagram with
  | announce a => exact (processAnnounce_trafficLastSeen _ _ _).trans (traffic_trafficLastSeen c now)
  | summary updateInterval missThreshold => exact traffic_trafficLastSeen c now
  | data asserts =>
    cases asserts with
    | none => exact traffic_trafficLastSeen c now
    | some asserts => exact (noteManualAssertion_trafficLastSeen _ _ _ _).trans (traffic_trafficLastSeen c now)
  | acknack slot entityId departed =>
    exact (claimFromAcknack_trafficLastSeen _ _ _ _).trans (traffic_trafficLastSeen c now)

/-! ## Leases run out -/

/-- `check_entity_leases()` so far: the entities whose lease has run out may have lapsed, and nothing else has changed
that judges them. -/
structure Lapses (now : Nat) (c s : RemoteContext) : Prop where
  heard : s.sourceLastHeard = c.sourceLastHeard
  tracked : s.tracked = c.tracked
  length : s.entities.length = c.entities.length
  entities : ∀ (i : Nat) (d : DiscoveredEntity), c.entities[i]? = some d →
    s.entities[i]? = some d ∨ c.expired now d = true ∧ s.entities[i]? = some { d with alive := false }

theorem lapseEntity_fields (c : RemoteContext) (slot : Nat) (d : DiscoveredEntity) :
    (c.lapseEntity slot d).refreshLivelinessFlags.entities = c.entities.set slot { d with alive := false } ∧
      (c.lapseEntity slot d).refreshLivelinessFlags.sourceLastHeard = c.sourceLastHeard ∧
      (c.lapseEntity slot d).refreshLivelinessFlags.tracked = c.tracked := by
  unfold lapseEntity
  simp only
  split
  · split
    · exact ⟨rfl, rfl, rfl⟩
    · exact ⟨rfl, rfl, rfl⟩
  · exact ⟨rfl, rfl, rfl⟩

theorem expired_of_heard (heard : s.sourceLastHeard = c.sourceLastHeard) (d : DiscoveredEntity) :
    s.expired now d = c.expired now d := by
  unfold expired entityWithinLease entityLeaseAnchor
  rw [heard]

theorem Lapses.round (h : Lapses now c s) (slot : Nat) : Lapses now c (checkEntityLease now s slot) := by
  unfold checkEntityLease
  cases found : s.entities[slot]? with
  | none => exact h
  | some d =>
    simp only
    split
    · next out =>
      rw [expired_of_heard h.heard] at out
      obtain ⟨entities, heard, tracked⟩ := lapseEntity_fields s slot d
      refine ⟨heard.trans h.heard, tracked.trans h.tracked, ?_, ?_⟩
      · rw [entities, List.length_set]
        exact h.length
      · intro i e here
        rw [entities, List.getElem?_set]
        by_cases same : slot = i
        · subst same
          have inside : slot < s.entities.length := by
            rw [List.getElem?_eq_some_iff] at found
            exact found.1
          rw [if_pos rfl, if_pos inside]
          rcases h.entities slot e here with still | ⟨gone, dead⟩
          · rw [found, Option.some.injEq] at still
            subst still
            exact .inr ⟨out, rfl⟩
          · -- one that has lapsed does not lapse again
            rw [found, Option.some.injEq] at dead
            rw [dead] at out
            simp [expired] at out
        · rw [if_neg same]
          exact h.entities i e here
    · exact h

theorem checkEntityLeases_lapses (c : RemoteContext) (now : Nat) : Lapses now c (c.checkEntityLeases now) := by
  have rounds : ∀ (slots : List Nat) (s : RemoteContext), Lapses now c s →
      Lapses now c (slots.foldl (checkEntityLease now) s) := by
    intro slots
    induction slots with
    | nil => intro s h; exact h
    | cons slot slots ih => intro s h; exact ih _ (h.round slot)
  exact rounds _ c ⟨rfl, rfl, rfl, fun _ _ here => .inl here⟩

/-- No entity of the context is alive, and nothing of it is tracked. -/
def Gone (c : RemoteContext) : Prop := c.tracked = false ∧ ∀ d ∈ c.entities, d.alive = false

theorem presumeNodeDead_gone (c : RemoteContext) : c.presumeNodeDead.Gone := by
  refine ⟨by simp [tracked, presumeNodeDead, updatePartsAny], ?_⟩
  intro d mem
  obtain ⟨e, _, rfl⟩ := List.mem_map.mp mem
  rfl

theorem Gone.checkEntityLeases (h : c.Gone) (now : Nat) : (c.checkEntityLeases now).Gone := by
  have lapses := checkEntityLeases_lapses c now
  refine ⟨lapses.tracked.trans h.1, ?_⟩
  intro d mem
  obtain ⟨i, found⟩ := List.mem_iff_getElem?.mp mem
  obtain ⟨inside, _⟩ := List.getElem?_eq_some_iff.mp found
  rw [lapses.length] at inside
  have was : c.entities[i]? = some (c.entities.get ⟨i, inside⟩) := List.getElem?_eq_getElem inside
  rcases lapses.entities i _ was with still | ⟨_, dead⟩
  · rw [found, Option.some.injEq] at still
    rw [still]
    exact h.2 _ (List.get_mem _ _)
  · rw [found, Option.some.injEq] at dead
    rw [dead]

end RemoteContext

/-- What the check reads and writes: when its one scheduler entry is due (`none` without one), how often in a row it
stood down, and what is kept of each remote context. -/
structure Watch where
  checkNs : Option Nat
  deferrals : Nat
  remotes : BitVec 8 → RemoteContext
  peerSilence : BitVec 8 → Nat

namespace Watch

variable (timing : DiscoveryTiming)

/-- `arm_liveliness_check()`; `room` says the scheduler took the entry. -/
def arm (w : Watch) (due : Nat) (room : Bool) : Watch :=
  if w.checkNs.any (due ≥ ·) then w else { w with checkNs := if room then some due else none }

/-- How late a run at `time` is against the moment it was armed for. -/
def unobserved (w : Watch) (time : Nat) : Nat := w.checkNs.elim 0 (time - ·)

/-- The silence a context is allowed: its own, as its summaries tell it, or ours until one has. -/
def silenceOf (w : Watch) (id : BitVec 8) : Nat :=
  if w.peerSilence id ≠ 0 then w.peerSilence id else timing.silence

/-- The limit `check_node_silence()` puts to a context. -/
def limitOf (w : Watch) (time unobserved : Nat) (id : BitVec 8) : Nat :=
  let last := (w.remotes id).sourceLastHeard
  let limit := w.silenceOf timing id + unobserved
  if time > last ∧ time - last > limit then
    let longest := min (w.remotes id).longestLeaseFrom timing.maxLease
    if longest > limit then longest else limit
  else limit

/-- The context is presumed dead. -/
def silent (w : Watch) (time unobserved : Nat) (id : BitVec 8) : Bool :=
  let last := (w.remotes id).sourceLastHeard
  (w.remotes id).tracked && time > last && time - last > w.limitOf timing time unobserved id

def contextIds : List (BitVec 8) := (List.range 256).map (BitVec.ofNat 8)

/-- `check_node_silence()`: each round reads and writes its own context's rows. -/
def checkNodeSilence (w : Watch) (time unobserved next : Nat) : Watch × Nat :=
  ({ w with
      remotes := fun id =>
        if w.silent timing time unobserved id then (w.remotes id).presumeNodeDead else w.remotes id
      peerSilence := fun id => if w.silent timing time unobserved id then 0 else w.peerSilence id },
    contextIds.foldl (fun next id =>
      if !(w.remotes id).tracked || w.silent timing time unobserved id then next
      else min ((w.remotes id).sourceLastHeard + w.limitOf timing time unobserved id + 1) next) next)

/-- The earliest expiry ahead among a context's leased entities. -/
def nextExpiry (c : RemoteContext) (time next : Nat) : Nat :=
  c.entities.foldl (fun next d =>
    if !d.alive || d.announced.livelinessLeaseDuration = 0 || c.expired time d then next
    else min ((c.entityLeaseAnchor d + d.announced.livelinessLeaseDuration + 1) % 2 ^ 64) next) next

/-- `check_entity_leases()` over the whole table. -/
def checkEntityLeases (w : Watch) (time next : Nat) : Watch × Nat :=
  ({ w with remotes := fun id => (w.remotes id).checkEntityLeases time },
    contextIds.foldl (fun next id => nextExpiry (w.remotes id) time next) next)

/-- `check_liveliness()` run at `time`; `buffered` says datagrams are still unread. -/
def checkLiveliness (w : Watch) (time : Nat) (buffered room : Bool) : Watch :=
  if buffered && w.deferrals < timing.livelinessMaxDeferrals then
    { w with deferrals := w.deferrals + 1, checkNs := none }.arm (time + timing.livelinessDefer) room
  else
    let taken : Watch := { w with deferrals := 0, checkNs := none }
    let nodes := taken.checkNodeSilence timing time (w.unobserved time) (time + timing.updateInterval)
    let leases := nodes.1.checkEntityLeases time nodes.2
    leases.1.arm leases.2 room

/-- A datagram from `id`: its sign of life first, then what it says. -/
def receive (w : Watch) (id : BitVec 8) (now : Nat) (datagram : Datagram) : Watch :=
  { w with
    remotes := Function.update w.remotes id ((w.remotes id).step (datagram.event now))
    peerSilence := match datagram with
      | .summary updateInterval missThreshold =>
        Function.update w.peerSilence id (discoverySilenceOf updateInterval missThreshold)
      | _ => w.peerSilence }

end Watch

/-- What happens to the check: datagrams, its timer armed for the lease of an entity announced or revived, and its own
runs, at any time. -/
inductive Watch.Event
  | receive (id : BitVec 8) (now : Nat) (datagram : Datagram)
  | arm (due : Nat) (room : Bool)
  | check (time : Nat) (buffered room : Bool)

/-- The check, and beside it what really happened: when each context last gave a sign of life, and how late the check's
runs have been since. -/
structure Observed where
  watch : Watch
  lastHeard : BitVec 8 → Nat
  late : BitVec 8 → Nat

namespace Observed

variable (timing : DiscoveryTiming)

/-- `schedule_periodic_tasks()` at `start`. -/
def create (start : Nat) (publishers : List LocalPublisher) (clients : List LocalClient) : Observed where
  watch := ⟨some (start + timing.updateInterval), 0, fun _ => .unknown publishers clients, fun _ => 0⟩
  lastHeard := fun _ => 0
  late := fun _ => 0

def step (o : Observed) : Watch.Event → Observed
  | .receive id now datagram =>
    ⟨o.watch.receive id now datagram, Function.update o.lastHeard id now, Function.update o.late id 0⟩
  | .arm due room => { o with watch := o.watch.arm due room }
  | .check time buffered room =>
    { o with
      watch := o.watch.checkLiveliness timing time buffered room
      late := fun id => o.late id + o.watch.unobserved time }

end Observed

/-! ## A run of the check -/

namespace Watch

variable {timing : DiscoveryTiming} {w : Watch} {time late : Nat} {id : BitVec 8}

@[simp] theorem arm_remotes (w : Watch) (due : Nat) (room : Bool) : (w.arm due room).remotes = w.remotes := by
  unfold arm
  split
  · rfl
  · rfl

/-- A run stands down, or judges every context and then every leased entity of it. -/
theorem checkLiveliness_cases (timing : DiscoveryTiming) (w : Watch) (time : Nat) (buffered room : Bool) :
    (w.checkLiveliness timing time buffered room).remotes = w.remotes ∨
      ∀ id, (w.checkLiveliness timing time buffered room).remotes id =
        (if w.silent timing time (w.unobserved time) id then (w.remotes id).presumeNodeDead
          else w.remotes id).checkEntityLeases time := by
  unfold checkLiveliness
  split
  · left
    rw [arm_remotes]
  · right
    intro id
    simp only [arm_remotes]
    rfl

theorem limitOf_le (timing : DiscoveryTiming) (w : Watch) (time late : Nat) (id : BitVec 8) :
    w.silenceOf timing id + late ≤ w.limitOf timing time late id := by
  unfold limitOf
  simp only
  split
  · split
    · omega
    · exact Nat.le_refl _
  · exact Nat.le_refl _

/-- A context is presumed dead only past its silence, the lateness of this run, and the longest lease of its entities. -/
theorem silent_spec (h : w.silent timing time late id = true) :
    (w.remotes id).sourceLastHeard + w.silenceOf timing id + late < time ∧
      (w.remotes id).sourceLastHeard + min (w.remotes id).longestLeaseFrom timing.maxLease < time := by
  unfold silent at h
  simp only [Bool.and_eq_true, decide_eq_true_eq] at h
  obtain ⟨⟨_, later⟩, over_⟩ := h
  have least := w.limitOf_le timing time late id
  have longest : min (w.remotes id).longestLeaseFrom timing.maxLease ≤ w.limitOf timing time late id := by
    unfold limitOf
    simp only
    rw [if_pos ⟨later, by omega⟩]
    split
    · exact Nat.le_refl _
    · omega
  constructor
  · omega
  · omega

end Watch

/-! ## Runs -/

namespace Observed

variable {timing : DiscoveryTiming} {o : Observed}

/-- What is kept of a context was heard when it last gave a sign of life, or is gone. -/
def Heard (o : Observed) : Prop :=
  ∀ id, o.lastHeard id ≤ (o.watch.remotes id).sourceLastHeard ∨ (o.watch.remotes id).Gone

theorem Heard.step (h : o.Heard) (event : Watch.Event) : (o.step timing event).Heard := by
  intro id
  cases event with
  | receive from_ now datagram =>
    by_cases same : id = from_
    · subst same
      left
      simp only [Observed.step, Watch.receive, Function.update_self]
      have seen := (o.watch.remotes id).step_trafficLastSeen now datagram
      rw [RemoteContext.sourceLastHeard, seen]
      exact le_max_right _ _
    · simp only [Observed.step, Watch.receive, Function.update_of_ne same]
      exact h id
  | arm due room =>
    simp only [Observed.step, Watch.arm_remotes]
    exact h id
  | check time buffered room =>
    simp only [Observed.step]
    rcases o.watch.checkLiveliness_cases timing time buffered room with stood | judged
    · rw [stood]
      exact h id
    · rw [judged id]
      split
      · exact .inr ((o.watch.remotes id).presumeNodeDead_gone.checkEntityLeases time)
      · rcases h id with heard | gone
        · left
          rw [((o.watch.remotes id).checkEntityLeases_lapses time).heard]
          exact heard
        · exact .inr (gone.checkEntityLeases time)

theorem create_heard (timing : DiscoveryTiming) (start : Nat) (publishers : List LocalPublisher)
    (clients : List LocalClient) : (create timing start publishers clients).Heard :=
  fun _ => .inl (Nat.zero_le _)

/-- The context was presumed dead by a step from `w` to `w'`. -/
def PresumedDead (w w' : Watch) (id : BitVec 8) : Prop :=
  (w.remotes id).tracked = true ∧ (w'.remotes id).tracked = false

instance (w w' : Watch) (id : BitVec 8) : Decidable (PresumedDead w w' id) := inferInstanceAs (Decidable (_ ∧ _))

/-- The entity in `slot` lapsed in it, its context not presumed dead. -/
def Lapsed (w w' : Watch) (id : BitVec 8) (slot : Nat) (d : DiscoveredEntity) : Prop :=
  ¬ PresumedDead w w' id ∧ (w.remotes id).entities[slot]? = some d ∧ d.alive = true ∧
    ∀ d' ∈ (w'.remotes id).entities[slot]?, d'.alive = false

/-- An entity's last sign of life: its own, where it asserts its liveliness itself, or any of its context. -/
def lastSign (o : Observed) (id : BitVec 8) (d : DiscoveredEntity) : Nat :=
  if RemoteContext.assertsManually d.announced then d.lastAsserted else o.lastHeard id

/-- A run of the check at `time` that allows `context id` more than a context's silence and `entity id` more than an
entity's lease. -/
structure Judges (timing : DiscoveryTiming) (o : Observed) (time : Nat) (w' : Watch) (context entity : BitVec 8 → Nat) :
    Prop where
  contexts : ∀ id, PresumedDead o.watch w' id → o.lastHeard id + o.watch.silenceOf timing id + context id < time
  entities : ∀ id slot d, Lapsed o.watch w' id slot d →
    o.lastSign id d + d.announced.livelinessLeaseDuration + entity id < time

theorem Heard.judges (h : o.Heard) (time : Nat) (buffered room : Bool) :
    Judges timing o time (o.watch.checkLiveliness timing time buffered room) (fun _ => o.watch.unobserved time)
      (fun _ => 0) ∧
    ∀ id, PresumedDead o.watch (o.watch.checkLiveliness timing time buffered room) id →
      o.lastHeard id + min (o.watch.remotes id).longestLeaseFrom timing.maxLease < time := by
  have dead : ∀ id, PresumedDead o.watch (o.watch.checkLiveliness timing time buffered room) id →
      o.watch.silent timing time (o.watch.unobserved time) id = true ∧
        o.lastHeard id ≤ (o.watch.remotes id).sourceLastHeard := by
    rintro id ⟨before, after⟩
    constructor
    · rcases o.watch.checkLiveliness_cases timing time buffered room with stood | judged
      · rw [stood, before] at after
        cases after
      · by_contra spared
        rw [judged id, if_neg spared, ((o.watch.remotes id).checkEntityLeases_lapses time).tracked, before] at after
        cases after
    · rcases h id with heard | gone
      · exact heard
      · rw [gone.1] at before
        cases before
  refine ⟨⟨?_, ?_⟩, ?_⟩
  · intro id presumed
    obtain ⟨silent, heard⟩ := dead id presumed
    have := (Watch.silent_spec silent).1
    omega
  · rintro id slot d ⟨spared, found, alive, lapsed⟩
    have running : o.lastHeard id ≤ (o.watch.remotes id).sourceLastHeard := by
      rcases h id with heard | gone
      · exact heard
      · rw [gone.2 d (List.mem_of_getElem? found)] at alive
        cases alive
    have out : (o.watch.remotes id).expired time d = true := by
      rcases o.watch.checkLiveliness_cases timing time buffered room with stood | judged
      · have := lapsed d (by rw [stood]; exact found)
        rw [alive] at this
        cases this
      · by_cases silent : o.watch.silent timing time (o.watch.unobserved time) id = true
        · -- then its context was presumed dead
          exfalso
          apply spared
          constructor
          · unfold Watch.silent at silent
            simp only [Bool.and_eq_true] at silent
            exact silent.1.1
          · rw [judged id, if_pos silent]
            exact ((o.watch.remotes id).presumeNodeDead_gone.checkEntityLeases time).1
        · rw [judged id, if_neg silent] at lapsed
          rcases ((o.watch.remotes id).checkEntityLeases_lapses time).entities slot d found with still | ⟨out, _⟩
          · have := lapsed d still
            rw [alive] at this
            cases this
          · exact out
    unfold RemoteContext.expired RemoteContext.entityWithinLease RemoteContext.entityLeaseAnchor at out
    simp only [Bool.and_eq_true, Bool.not_eq_true', Bool.or_eq_false_iff, decide_eq_false_iff_not] at out
    unfold lastSign
    split at out
    · next manual =>
      rw [if_pos manual]
      omega
    · next automatic =>
      rw [if_neg automatic]
      omega
  · intro id presumed
    obtain ⟨silent, heard⟩ := dead id presumed
    have := (Watch.silent_spec silent).2
    omega

/-- A second between checks, and three of them missed. -/
def everySecond : DiscoveryTiming := ⟨1000, 3, 100000, 1, 8⟩

/-- A Subscriber with a lease of two seconds. -/
def leased : UpdateEntity :=
  ⟨7, 9, .topicSubscriber, 0, ⟨true, false, false, false⟩, 0, 2000, 0, 0, 0, "", ""⟩

/-- Context 5 announces itself. -/
def announced (entities : List UpdateEntity) : Watch.Event := .receive 5 10 (.announce ⟨1, 0, 1, 7000, entities, none⟩)

end Observed

end Tickle
