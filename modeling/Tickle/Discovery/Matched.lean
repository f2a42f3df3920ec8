import Tickle.Discovery.Applied

/-! # A live Subscriber stays matched

A lease that runs out takes the context from its Publishers' peers; traffic marks the entity alive
again and leaves the peers to the next announce, which an applied generation never sends again. The
other ways an entity becomes alive register its peer, and a Publisher created later has the list pulled
again, unless it is created between two parts of one.
-/

namespace Tickle

namespace RemoteContext

/-- Every live Subscriber of the context has it as a peer of the Publishers it matches. -/
def Served (c : RemoteContext) : Prop :=
  ∀ d ∈ c.entities, d.alive = true → ∀ pub ∈ c.publishers, pub.Matches d.announced → pub.peer = true

/-- No list counts as applied and none is under way: the next one begins anew. -/
def Awaiting (c : RemoteContext) : Prop :=
  (c.updateSeen = false ∨ c.updateReprocess = true) ∧ c.updatePartsAny = false

/-- Every recorded entity has an entity id, as `add_endpoint_to_node()` gives it one. -/
def Named (c : RemoteContext) : Prop := ∀ d ∈ c.entities, d.announced.entityId ≠ 0

structure Matched (c : RemoteContext) : Prop where
  named : c.Named
  served : c.Served ∨ c.Awaiting

/-- What traffic revives has kept its peers, or gets them with the list that is to come. -/
def RevivesServed (c : RemoteContext) : Prop :=
  c.lapsed = true → c.updateSeen = true → c.Awaiting ∨
    ∀ d ∈ c.entities, revivable d = true → ∀ pub ∈ c.publishers, pub.Matches d.announced →
      pub.peer = true

/-- The steps that keep live Subscribers matched: a datagram revives none that lost its peer, unless
it is an announce that begins its list; a Publisher comes with no list under way, or matches nothing. -/
def MatchSound (c : RemoteContext) : Event → Prop
  | .announce now a => (∀ e ∈ a.entities, e.entityId ≠ 0) ∧
      (c.RevivesServed ∨ (c.ignores now a = false ∧ c.begins a = true))
  | .summary _ | .data _ _ | .acknack .. => c.RevivesServed
  | .createPublisher pub => c.updatePartsAny = false ∨
      ∀ d ∈ c.entities, d.alive = true → ¬ pub.Matches d.announced
  | .checkLeases _ | .presumeDead | .createClient _ | .writerUnknown => True

variable {c c' : RemoteContext}

/-- Fewer live entities, and Publishers with what peers they had. -/
theorem Served.of_fewer (h : c.Served)
    (entities : ∀ d' ∈ c'.entities, d'.alive = true →
      ∃ d ∈ c.entities, d.alive = true ∧ d.announced = d'.announced)
    (publishers : ∀ pub' ∈ c'.publishers, ∃ pub ∈ c.publishers,
      (pub.peer = true → pub'.peer = true) ∧ ∀ e, pub'.Matches e → pub.Matches e) : c'.Served := by
  intro d' hd' alive pub' hpub' matches_
  obtain ⟨d, hd, live, same⟩ := entities d' hd' alive
  obtain ⟨pub, hpub, peer, offers⟩ := publishers pub' hpub'
  exact peer (h d hd live pub hpub (same ▸ offers _ matches_))

theorem mem_upsertDiscoveredEntity {now : Nat} {e : UpdateEntity} {table : List DiscoveredEntity}
    {d : DiscoveredEntity} (h : d ∈ upsertDiscoveredEntity now e table) :
    d.announced = e ∨ d ∈ table := by
  induction table with
  | nil =>
    simp only [upsertDiscoveredEntity, List.mem_singleton] at h
    exact .inl (h ▸ rfl)
  | cons head rest ih =>
    unfold upsertDiscoveredEntity at h
    split at h
    · obtain rfl | h := List.mem_cons.mp h
      · exact .inl rfl
      · exact .inr (List.mem_cons_of_mem _ h)
    · obtain rfl | h := List.mem_cons.mp h
      · exact .inr (List.mem_cons_self ..)
      · obtain h | h := ih h
        · exact .inl h
        · exact .inr (List.mem_cons_of_mem _ h)

theorem Served.registerPeers (h : c.Served) (e : UpdateEntity) : (c.registerPeers e).Served := by
  refine h.of_fewer ?_ ?_
  · intro d hd alive
    rw [registerPeers_entities] at hd
    exact ⟨d, hd, alive, rfl⟩
  · intro pub' hpub'
    obtain ⟨pub, hpub, offers, peer⟩ := registerPeers_publishers hpub'
    exact ⟨pub, hpub, fun had => peer.mpr (.inl had), fun x => (offers x).mp⟩

theorem Served.takeEntity (h : c.Served) (now : Nat) (e : UpdateEntity) :
    (c.takeEntity now e).Served := by
  intro d hd alive pub hpub matches_
  obtain same | old := mem_upsertDiscoveredEntity hd
  · obtain ⟨before, -, offers, peer⟩ := registerPeers_publishers hpub
    exact peer.mpr (.inr ((offers e).mp (same ▸ matches_)))
  · exact h.registerPeers e d old alive pub hpub matches_

theorem Served.takeEntities (h : c.Served) (now : Nat) (es : List UpdateEntity) :
    (es.foldl (RemoteContext.takeEntity now) c).Served := by
  induction es generalizing c with
  | nil => exact h
  | cons e rest ih => exact ih (h.takeEntity now e)

theorem Served.decodeUpdateEntities (h : c.Served) (now : Nat) (a : Announce) :
    (c.decodeUpdateEntities now a).Served := by
  unfold RemoteContext.decodeUpdateEntities
  have taken := h.takeEntities now a.entities
  cases a.broken with
  | none => exact taken
  | some e => exact taken.registerPeers e

/-- An announce acted on leaves live Subscribers served: its list begins, or they were. -/
theorem absorb_served (now : Nat) (a : Announce) (h : c.begins a = false → c.Served) :
    (c.absorb now a).Served := by
  have begun : (c.beginList a).Served := by
    unfold beginList
    split
    · intro d hd
      exact absurd hd (List.not_mem_nil)
    · next more => exact h (Bool.eq_false_iff.mpr more)
  exact begun.decodeUpdateEntities now a

theorem processAnnounce_served {now : Nat} {a : Announce} (acted : c.ignores now a = false)
    (h : c.begins a = false → c.Served) : (c.processAnnounce now a).Served := by
  have absorbed : ((c.heard now).absorb now a).Served := absorb_served now a h
  unfold processAnnounce
  dsimp only
  split
  · next ignored => exact absurd (acted.symm.trans ignored) (by decide)
  · split
    · exact absorbed
    · split
      · refine absorbed.of_fewer (fun d hd alive => ⟨d, hd, alive, rfl⟩) ?_
        intro pub' hpub'
        obtain ⟨pub, hpub, rfl⟩ := List.mem_map.mp hpub'
        refine ⟨pub, hpub, ?_⟩
        split
        · exact ⟨id, fun _ => id⟩
        · exact ⟨id, fun _ => id⟩
      · exact absorbed

/-! ## Leases -/

theorem mem_set_dead {table : List DiscoveredEntity} {slot : Nat} {d x : DiscoveredEntity}
    (h : x ∈ table.set slot { d with alive := false }) (alive : x.alive = true) : x ∈ table := by
  obtain old | rfl := List.mem_or_eq_of_mem_set h
  · exact old
  · simp at alive

/-- A Subscriber lapses. Its context stays a peer while a sibling lives, and no live Subscriber of the
topic is left when it does not. -/
theorem Served.lapseEntity (h : c.Served) (slot : Nat) (d : DiscoveredEntity)
    (named : d.announced.entityId ≠ 0) : (c.lapseEntity slot d).Served := by
  have dead : { c with entities := c.entities.set slot { d with alive := false } }.Served :=
    h.of_fewer (fun x hx alive => ⟨x, mem_set_dead hx alive, alive, rfl⟩)
      fun pub hpub => ⟨pub, hpub, id, fun _ => id⟩
  unfold RemoteContext.lapseEntity
  dsimp only
  split
  · next kind =>
    split
    · refine dead.of_fewer (fun x hx alive => ⟨x, hx, alive, rfl⟩) ?_
      intro pub' hpub'
      obtain ⟨pub, hpub, rfl⟩ := List.mem_map.mp hpub'
      refine ⟨pub, hpub, ?_⟩
      split
      · exact ⟨id, fun _ => id⟩
      · exact ⟨id, fun _ => id⟩
    · next alone =>
      intro x hx alive pub' hpub' matches_
      obtain ⟨pub, hpub, rfl⟩ := List.mem_map.mp hpub'
      by_cases same : pub.endpointId = d.announced.endpointId
      · exfalso
        apply alone
        rw [if_pos same] at matches_
        obtain ⟨xkind, xendpoint, -⟩ := matches_
        have xsame : x.announced.endpointId = d.announced.endpointId := xendpoint.symm.trans same
        simp only [named, ne_eq, not_false_eq_true, decide_true, Bool.true_and, siblingAlive,
          List.any_eq_true]
        exact ⟨x, hx, by simp [alive, xsame, xkind, kind]⟩
      · rw [if_neg same] at matches_ ⊢
        exact dead x hx alive pub hpub matches_
  · exact dead

theorem Named.of_announced (h : c.Named)
    (entities : ∀ d' ∈ c'.entities, ∃ d ∈ c.entities, d.announced = d'.announced) : c'.Named := by
  intro d' hd'
  obtain ⟨d, hd, same⟩ := entities d' hd'
  exact same ▸ h d hd

theorem lapseEntity_named (h : c.Named) {slot : Nat} {d : DiscoveredEntity}
    (found : c.entities[slot]? = some d) : (c.lapseEntity slot d).Named := by
  have entities : (c.lapseEntity slot d).entities =
      c.entities.set slot { d with alive := false } := by
    unfold lapseEntity
    dsimp only
    split
    · split <;> rfl
    · rfl
  apply h.of_announced
  intro d' hd'
  rw [entities] at hd'
  obtain old | rfl := List.mem_or_eq_of_mem_set hd'
  · exact ⟨d', old, rfl⟩
  · exact ⟨d, List.mem_of_getElem? found, rfl⟩

theorem Awaiting.of_sameMarks (h : c.Awaiting) (marks : SameMarks c c') : c'.Awaiting := by
  unfold SameMarks at marks
  unfold Awaiting updatePartsAny at *
  rw [marks]
  exact h

theorem Matched.checkEntityLease (h : c.Matched) (now slot : Nat) :
    (c.checkEntityLease now slot).Matched := by
  have marks := c.checkEntityLease_sameMarks now slot
  refine ⟨?_, ?_⟩
  · unfold RemoteContext.checkEntityLease
    split
    · exact h.named
    · next d found =>
      split
      · exact lapseEntity_named h.named found
      · exact h.named
  · obtain served | awaiting := h.served
    · left
      unfold RemoteContext.checkEntityLease
      split
      · exact served
      · next d found =>
        split
        · exact served.lapseEntity slot d (h.named d (List.mem_of_getElem? found))
        · exact served
    · exact .inr (awaiting.of_sameMarks marks)

theorem Matched.checkEntityLeases (h : c.Matched) (now : Nat) : (c.checkEntityLeases now).Matched := by
  unfold RemoteContext.checkEntityLeases
  generalize List.range c.entities.length = slots
  induction slots generalizing c with
  | nil => exact h
  | cons slot rest ih => exact ih (h.checkEntityLease now slot)

/-! ## Datagrams -/

/-- Traffic changes nothing but who is alive. -/
theorem traffic_shape (c : RemoteContext) (now : Nat) :
    (c.traffic now).publishers = c.publishers ∧
      ∀ d' ∈ (c.traffic now).entities, d' ∈ c.entities ∨
        (c.lapsed = true ∧ c.updateSeen = true ∧
          ∃ d ∈ c.entities, revivable d = true ∧ d' = { d with alive := true }) := by
  unfold traffic
  dsimp only
  split
  · next lapsed =>
    unfold reviveLapsedEntities
    dsimp only
    split
    · exact ⟨rfl, fun d' hd' => .inl hd'⟩
    · next seen =>
      refine ⟨rfl, fun d' hd' => ?_⟩
      obtain ⟨d, hd, rfl⟩ := List.mem_map.mp hd'
      by_cases revived : revivable d = true
      · rw [if_pos revived]
        exact .inr ⟨lapsed, by simpa using seen, d, hd, revived, rfl⟩
      · rw [if_neg revived]
        exact .inl hd
  · exact ⟨rfl, fun d' hd' => .inl hd'⟩

theorem Named.traffic (h : c.Named) (now : Nat) : (c.traffic now).Named := by
  apply h.of_announced
  intro d' hd'
  obtain old | ⟨-, -, d, hd, -, rfl⟩ := (c.traffic_shape now).2 d' hd'
  · exact ⟨d', old, rfl⟩
  · exact ⟨d, hd, rfl⟩

theorem Awaiting.traffic (h : c.Awaiting) (now : Nat) : (c.traffic now).Awaiting := by
  have timed : { c with trafficLastSeen := now }.Awaiting := h
  exact timed.of_sameMarks (c.traffic_sameMarks now)

theorem Matched.traffic (h : c.Matched) (now : Nat) (revives : c.RevivesServed) :
    (c.traffic now).Matched := by
  obtain ⟨publishers, entities⟩ := c.traffic_shape now
  refine ⟨h.named.traffic now, ?_⟩
  obtain served | awaiting := h.served
  · by_cases flagged : c.lapsed = true ∧ c.updateSeen = true
    · obtain awaiting | kept := revives flagged.1 flagged.2
      · exact .inr (awaiting.traffic now)
      · left
        intro d' hd' alive pub hpub matches_
        rw [publishers] at hpub
        obtain old | ⟨-, -, d, hd, revived, rfl⟩ := entities d' hd'
        · exact served d' old alive pub hpub matches_
        · exact kept d hd revived pub hpub matches_
    · left
      intro d' hd' alive pub hpub matches_
      rw [publishers] at hpub
      obtain old | ⟨lapsed, seen, -⟩ := entities d' hd'
      · exact served d' old alive pub hpub matches_
      · exact absurd ⟨lapsed, seen⟩ flagged
  · exact .inr (awaiting.traffic now)

theorem takeEntities_named (h : c.Named) (now : Nat) {es : List UpdateEntity}
    (named : ∀ e ∈ es, e.entityId ≠ 0) : (es.foldl (takeEntity now) c).Named := by
  induction es generalizing c with
  | nil => exact h
  | cons e rest ih =>
    apply ih
    · intro d hd
      simp only [takeEntity, registerPeers_entities] at hd
      obtain rfl | old := mem_upsertDiscoveredEntity hd
      · exact named _ (List.mem_cons_self ..)
      · exact h d old
    · exact fun x hx => named x (List.mem_cons_of_mem _ hx)

theorem Named.processAnnounce (h : c.Named) (now : Nat) {a : Announce}
    (named : ∀ e ∈ a.entities, e.entityId ≠ 0) : (c.processAnnounce now a).Named := by
  have absorbed : ((c.heard now).absorb now a).Named := by
    have begun : ((c.heard now).beginList a).Named := by
      unfold beginList
      split
      · intro d hd
        exact absurd hd List.not_mem_nil
      · exact h
    have taken := takeEntities_named begun now named
    unfold absorb decodeUpdateEntities
    cases a.broken with
    | none => exact taken
    | some e =>
      intro d hd
      simp only [refreshLivelinessFlags, registerPeers_entities] at hd
      exact taken d hd
  unfold RemoteContext.processAnnounce
  dsimp only
  split
  · exact h
  · split
    · exact absorbed
    · split
      · exact absorbed
      · exact absorbed

theorem Matched.processAnnounce (h : c.Matched) (now : Nat) {a : Announce}
    (named : ∀ e ∈ a.entities, e.entityId ≠ 0) : (c.processAnnounce now a).Matched := by
  refine ⟨h.named.processAnnounce now named, ?_⟩
  by_cases acted : c.ignores now a = false
  · left
    apply processAnnounce_served acted
    intro more
    obtain served | awaiting := h.served
    · exact served
    · simp [begins, awaiting.2] at more
  · unfold RemoteContext.processAnnounce
    dsimp only
    have ignored : (c.heard now).ignores now a = true := Bool.not_eq_false _ ▸ acted
    rw [if_pos ignored]
    exact h.served

theorem Matched.noteManualAssertion (h : c.Matched) (now endpointId entityId : Nat) :
    (c.noteManualAssertion now endpointId entityId).Matched := by
  have shape : (c.noteManualAssertion now endpointId entityId).publishers = c.publishers ∧
      ∀ d' ∈ (c.noteManualAssertion now endpointId entityId).entities, d' ∈ c.entities ∨
        ∃ d ∈ c.entities, assertsManually d.announced = true ∧ d.announced = d'.announced := by
    have noted : ∀ (p f : DiscoveredEntity → Bool) (d' : DiscoveredEntity),
        (∀ d, p d = true → assertsManually d.announced = true) →
        d' ∈ c.entities.map (fun d => if p d then { d with lastAsserted := now, alive := f d } else d) →
        d' ∈ c.entities ∨
          ∃ d ∈ c.entities, assertsManually d.announced = true ∧ d.announced = d'.announced := by
      intro p f d' manual hd'
      obtain ⟨d, hd, rfl⟩ := List.mem_map.mp hd'
      split
      · next hp => exact .inr ⟨d, hd, manual d hp, rfl⟩
      · exact .inl hd
    unfold RemoteContext.noteManualAssertion
    split
    · exact ⟨rfl, fun d' hd' => .inl hd'⟩
    · dsimp only
      split
      · exact ⟨rfl, fun d' hd' => noted _ _ d' (fun d hp => by simp_all) hd'⟩
      · exact ⟨rfl, fun d' hd' => noted _ _ d' (fun d hp => by simp_all) hd'⟩
  obtain ⟨publishers, entities⟩ := shape
  refine ⟨h.named.of_announced fun d' hd' => ?_, ?_⟩
  · obtain old | ⟨d, hd, -, same⟩ := entities d' hd'
    · exact ⟨d', old, rfl⟩
    · exact ⟨d, hd, same⟩
  · obtain served | awaiting := h.served
    · left
      intro d' hd' alive pub hpub matches_
      rw [publishers] at hpub
      obtain old | ⟨d, -, manual, same⟩ := entities d' hd'
      · exact served d' old alive pub hpub matches_
      · -- only Publishers assert by hand
        have kind : d.announced.kind = .topicSubscriber := same ▸ matches_.1
        simp [assertsManually, kind] at manual
    · exact .inr (awaiting.of_sameMarks (c.noteManualAssertion_sameMarks now endpointId entityId))

theorem Matched.claimFromAcknack (h : c.Matched) (slot entityId : Nat) (departed : Bool) :
    (c.claimFromAcknack slot entityId departed).Matched := by
  have marks := c.claimFromAcknack_sameMarks slot entityId departed
  have shape : (c.claimFromAcknack slot entityId departed).entities = c.entities ∧
      ∀ pub' ∈ (c.claimFromAcknack slot entityId departed).publishers, ∃ pub ∈ c.publishers,
        (pub.peer = true → pub'.peer = true) ∧ ∀ e, pub'.Matches e → pub.Matches e := by
    have same : ∀ pub' ∈ c.publishers, ∃ pub ∈ c.publishers,
        (pub.peer = true → pub'.peer = true) ∧ ∀ e, pub'.Matches e → pub.Matches e :=
      fun pub hpub => ⟨pub, hpub, id, fun _ => id⟩
    unfold RemoteContext.claimFromAcknack
    split
    · exact ⟨rfl, same⟩
    · next pub found =>
      split
      · exact ⟨rfl, same⟩
      · split
        · exact ⟨rfl, same⟩
        · split
          · exact ⟨rfl, same⟩
          · refine ⟨rfl, fun pub' hpub' => ?_⟩
            obtain old | rfl := List.mem_or_eq_of_mem_set hpub'
            · exact same pub' old
            · exact ⟨pub, List.mem_of_getElem? found, fun _ => rfl, fun _ => id⟩
  obtain ⟨entities, publishers⟩ := shape
  refine ⟨h.named.of_announced fun d hd => ⟨d, entities ▸ hd, rfl⟩, ?_⟩
  obtain served | awaiting := h.served
  · exact .inl (served.of_fewer (fun d hd alive => ⟨d, entities ▸ hd, alive, rfl⟩) publishers)
  · exact .inr (awaiting.of_sameMarks marks)

theorem reprocessKnownAnnounces_awaiting (h : c.updatePartsAny = false) :
    c.reprocessKnownAnnounces.Awaiting := by
  unfold reprocessKnownAnnounces
  split
  · exact ⟨.inr rfl, h⟩
  · next unseen => exact ⟨.inl (by simpa using unseen), h⟩

theorem Matched.reprocessKnownAnnounces (h : c.Matched) : c.reprocessKnownAnnounces.Matched := by
  unfold RemoteContext.reprocessKnownAnnounces
  split
  · refine ⟨h.named, ?_⟩
    obtain served | awaiting := h.served
    · exact .inl served
    · exact .inr ⟨.inr rfl, awaiting.2⟩
  · exact h

theorem Matched.createPublisher (h : c.Matched) {pub : LocalPublisher}
    (sound : c.MatchSound (.createPublisher pub)) : (c.step (.createPublisher pub)).Matched := by
  obtain idle | matchless := sound
  · refine ⟨?_, .inr (reprocessKnownAnnounces_awaiting idle)⟩
    simp only [step, RemoteContext.reprocessKnownAnnounces]
    split
    · exact h.named
    · exact h.named
  · apply Matched.reprocessKnownAnnounces
    refine ⟨h.named, ?_⟩
    obtain served | awaiting := h.served
    · left
      intro d hd alive pub' hpub' matches_
      obtain old | new := List.mem_append.mp hpub'
      · exact served d hd alive pub' old matches_
      · obtain rfl := List.mem_singleton.mp new
        exact absurd matches_ (matchless d hd alive)
    · exact .inr awaiting

theorem Matched.step (h : c.Matched) (event : Event) (sound : c.MatchSound event) :
    (c.step event).Matched := by
  cases event with
  | announce now a =>
    obtain ⟨named, revives | begins⟩ := sound
    · exact (h.traffic now revives).processAnnounce now named
    · refine ⟨(h.named.traffic now).processAnnounce now named, .inl ?_⟩
      have marks := c.traffic_sameMarks now
      unfold SameMarks at marks
      apply processAnnounce_served
      · rw [marks]
        exact begins.1
      · intro more
        rw [marks] at more
        exact absurd (begins.2.symm.trans more) (by decide)
  | summary now =>
    obtain ⟨named, served⟩ := h.traffic now sound
    exact ⟨named, served⟩
  | data now asserts =>
    cases asserts with
    | none => exact h.traffic now sound
    | some writer => exact (h.traffic now sound).noteManualAssertion now _ _
  | acknack now slot entityId departed => exact (h.traffic now sound).claimFromAcknack slot entityId _
  | checkLeases now => exact h.checkEntityLeases now
  | presumeDead =>
    refine ⟨h.named.of_announced fun d' hd' => ?_, .inl fun d' hd' alive => ?_⟩
    · obtain ⟨d, hd, rfl⟩ := List.mem_map.mp hd'
      exact ⟨d, hd, rfl⟩
    · obtain ⟨d, -, rfl⟩ := List.mem_map.mp hd'
      simp at alive
  | createPublisher pub => exact h.createPublisher sound
  | createClient client => exact Matched.reprocessKnownAnnounces ⟨h.named, h.served⟩
  | writerUnknown =>
    refine ⟨h.named, ?_⟩
    obtain served | awaiting := h.served
    · exact .inl served
    · exact .inr ⟨.inr rfl, awaiting.2⟩

/-- In every run of sound steps, a live Subscriber of a context whose list counts as applied has the
context in the peers of every local Publisher it matches. -/
theorem live_subscriber_matched (publishers : List LocalPublisher) (clients : List LocalClient)
    (events : List Event) (sound : Run.Sound step MatchSound (unknown publishers clients) events)
    (generation : Generation)
    (applied : ((unknown publishers clients).run events).discoveryGenerationApplied generation = true) :
    ∀ d ∈ ((unknown publishers clients).run events).entities, d.alive = true →
      ∀ pub ∈ ((unknown publishers clients).run events).publishers, pub.Matches d.announced →
        pub.peer = true := by
  have start : (unknown publishers clients).Matched := by
    refine ⟨fun d hd => absurd hd List.not_mem_nil, .inl fun d hd => absurd hd List.not_mem_nil⟩
  have reached := Run.keeps (fun c event h => h.step event) start sound
  simp only [discoveryGenerationApplied, Bool.and_eq_true, Bool.not_eq_true'] at applied
  obtain served | ⟨unseen | again, -⟩ := reached.served
  · exact served
  · exact absurd (unseen.symm.trans applied.1.1) (by decide)
  · exact absurd (again.symm.trans applied.1.2) (by decide)

/-- A Publisher of topic 1, and a Subscriber of it with a lease of a second. -/
def topicPublisher : LocalPublisher := ⟨1, true, false, false, 0, 500000000, false, []⟩

def leasedSubscriber : UpdateEntity :=
  { RemoteLists.subscriberEntity 2 with livelinessLeaseDuration := 1000000000 }

def leasedList : Announce := ⟨5, 0, 1, 7400, [leasedSubscriber], none⟩

theorem live_subscriber_matched_announced :
    (((unknown [topicPublisher] []).run [.announce 10 leasedList]).publishers.all fun pub =>
      pub.peer) = true := by
  have matched : ∀ pub ∈ ((unknown [topicPublisher] []).run [.announce 10 leasedList]).publishers,
      pub.Matches leasedSubscriber := by
    decide +kernel
  rw [List.all_eq_true]
  intro pub hpub
  refine live_subscriber_matched [topicPublisher] [] [.announce 10 leasedList] ⟨⟨?_, ?_⟩, trivial⟩ 5
    (by decide +kernel) ⟨leasedSubscriber, true, 10⟩ (by decide +kernel) rfl pub hpub (matched pub hpub)
  · decide
  · exact .inr ⟨by decide +kernel, by decide +kernel⟩

/-- The Subscriber's context is silent past its lease, then sends data. It is marked alive, its list
counts as applied, and the Publisher has no peer. -/
theorem revived_subscriber_unmatched :
    let c := (unknown [topicPublisher] []).run
      [.announce 10 leasedList, .checkLeases 2000000000, .data 2000000001 none, .summary 2000000002]
    c.discoveryGenerationApplied 5 = true ∧ ∃ d ∈ c.entities, d.alive = true ∧
      ∃ pub ∈ c.publishers, pub.Matches d.announced ∧ pub.peer = false := by
  decide +kernel

end RemoteContext

end Tickle
