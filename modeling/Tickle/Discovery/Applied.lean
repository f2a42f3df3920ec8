import Tickle.Discovery.Superseded

/-! # An applied generation is the table

Announces of a remote context come whole or in parts, late, twice and in any order. A list that counts
as applied is to be what the discovery table and the peers say. It is, as long as no part of a list of
several datagrams is acted on while another list counts as applied: such a part clears the table at
once and the mark stays.
-/

namespace Tickle

open Serial

/-- The entity is a Server of this Client's service. -/
def LocalClient.Matches (client : LocalClient) (e : UpdateEntity) : Prop :=
  e.kind = .serviceServer ∧ client.endpointId = e.endpointId

instance (client : LocalClient) (e : UpdateEntity) : Decidable (client.Matches e) :=
  inferInstanceAs (Decidable (_ ∧ _))

/-- What a remote context announces under each generation, in the parts it is sent in. -/
structure RemoteLists where
  parts : Generation → List (List UpdateEntity)
  distinct : ∀ g, ∀ e ∈ (parts g).flatten, ∀ e' ∈ (parts g).flatten, e.key = e'.key → e = e'

namespace RemoteContext

/-- The table and the peers are those of the entities in `known`, each recorded once. -/
structure Recorded (c : RemoteContext) (known : UpdateEntity → Prop) : Prop where
  table : ∀ e, e ∈ c.entities.map (·.announced) ↔ known e
  once : (c.entities.map (·.announced.key)).Nodup
  publishers : ∀ pub ∈ c.publishers, pub.peer = true ↔ ∃ e, known e ∧ pub.Matches e
  clients : ∀ client ∈ c.clients, client.peer = true ↔ ∃ e, known e ∧ client.Matches e

theorem Recorded.congr {c : RemoteContext} {known known' : UpdateEntity → Prop}
    (h : c.Recorded known) (same : ∀ e, known e ↔ known' e) : c.Recorded known' := by
  have : known = known' := funext fun e => propext (same e)
  exact this ▸ h

theorem Recorded.moved {c c' : RemoteContext} {known known' : UpdateEntity → Prop}
    (h : c.Recorded known) (entities : c'.entities = c.entities)
    (publishers : c'.publishers = c.publishers) (clients : c'.clients = c.clients)
    (same : ∀ e, known e ↔ known' e) : c'.Recorded known' := by
  apply Recorded.congr _ same
  refine ⟨?_, ?_, ?_, ?_⟩
  · rw [entities]
    exact h.table
  · rw [entities]
    exact h.once
  · rw [publishers]
    exact h.publishers
  · rw [clients]
    exact h.clients

/-- What of a change `Recorded` does not see: liveliness and acknowledgements. -/
theorem Recorded.of_same {c c' : RemoteContext} {known : UpdateEntity → Prop} (h : c.Recorded known)
    (entities : c'.entities.map (·.announced) = c.entities.map (·.announced))
    (publishers : ∀ pub' ∈ c'.publishers, ∃ pub ∈ c.publishers, pub'.peer = pub.peer ∧
      ∀ e, pub'.Matches e ↔ pub.Matches e)
    (clients : c'.clients = c.clients) : c'.Recorded known where
  table e := by
    rw [entities]
    exact h.table e
  once := by
    have keys := congrArg (List.map UpdateEntity.key) entities
    simp only [List.map_map] at keys
    have once := h.once
    simp only [Function.comp_def] at keys
    rwa [keys]
  publishers pub' hpub' := by
    obtain ⟨pub, hpub, peer, matches_⟩ := publishers pub' hpub'
    rw [peer, h.publishers pub hpub]
    simp only [matches_]
  clients := by
    rw [clients]
    exact h.clients

end RemoteContext

/-! ## Taking an entity -/

section Upsert

variable {now : Nat} {e : UpdateEntity} {table : List DiscoveredEntity}

theorem mem_keys_upsert {k : Nat × Nat}
    (h : k ∈ (upsertDiscoveredEntity now e table).map (·.announced.key)) :
    k = e.key ∨ k ∈ table.map (·.announced.key) := by
  induction table with
  | nil =>
    simp only [upsertDiscoveredEntity, List.map_cons, List.map_nil, List.mem_singleton] at h
    exact .inl h
  | cons head rest ih =>
    unfold upsertDiscoveredEntity at h
    split at h
    · simp only [List.map_cons, List.mem_cons] at h ⊢
      tauto
    · simp only [List.map_cons, List.mem_cons] at h ⊢
      obtain h | h := h
      · exact .inr (.inl h)
      · obtain h | h := ih h
        · exact .inl h
        · exact .inr (.inr h)

theorem upsert_once (h : (table.map (·.announced.key)).Nodup) :
    ((upsertDiscoveredEntity now e table).map (·.announced.key)).Nodup := by
  induction table with
  | nil => simp [upsertDiscoveredEntity]
  | cons head rest ih =>
    simp only [List.map_cons, List.nodup_cons] at h
    unfold upsertDiscoveredEntity
    split
    · next same =>
      simp only [List.map_cons, List.nodup_cons]
      rw [← same]
      exact h
    · next other =>
      simp only [List.map_cons, List.nodup_cons]
      refine ⟨fun mem => ?_, ih h.2⟩
      obtain same | old := mem_keys_upsert mem
      · exact other same
      · exact h.1 old

/-- An entity is the only one of its key: it is added to what is there. -/
theorem mem_upsert (only : ∀ d ∈ table, d.announced.key = e.key → d.announced = e) (x : UpdateEntity) :
    x ∈ (upsertDiscoveredEntity now e table).map (·.announced) ↔
      x ∈ table.map (·.announced) ∨ x = e := by
  induction table with
  | nil => simp [upsertDiscoveredEntity]
  | cons head rest ih =>
    unfold upsertDiscoveredEntity
    split
    · next same =>
      have : head.announced = e := only head (List.mem_cons_self ..) same
      simp only [List.map_cons, List.mem_cons, this]
      tauto
    · have := ih fun d hd => only d (List.mem_cons_of_mem _ hd)
      simp only [List.map_cons, List.mem_cons, this]
      tauto

end Upsert

namespace LocalPublisher

variable (pub : LocalPublisher) (e x : UpdateEntity)

theorem registerSubscriberPeer_matches :
    (pub.registerSubscriberPeer e).Matches x ↔ pub.Matches x := by
  unfold registerSubscriberPeer
  split <;> rfl

theorem registerSubscriberPeer_peer :
    (pub.registerSubscriberPeer e).peer = true ↔ pub.peer = true ∨ pub.incompatible e = false := by
  unfold registerSubscriberPeer
  cases pub.incompatible e <;> simp

end LocalPublisher

namespace RemoteContext

@[simp] theorem registerPeers_entities (c : RemoteContext) (e : UpdateEntity) :
    (c.registerPeers e).entities = c.entities := by
  unfold registerPeers
  split <;> rfl

/-- Each Publisher afterwards was one before, with the peer if it matches. -/
theorem registerPeers_publishers {c : RemoteContext} {e : UpdateEntity} {pub' : LocalPublisher}
    (h : pub' ∈ (c.registerPeers e).publishers) :
    ∃ pub ∈ c.publishers, (∀ x, pub'.Matches x ↔ pub.Matches x) ∧
      (pub'.peer = true ↔ pub.peer = true ∨ pub.Matches e) := by
  unfold registerPeers at h
  split at h
  · next kind =>
    obtain ⟨pub, hpub, rfl⟩ := List.mem_map.mp h
    refine ⟨pub, hpub, ?_⟩
    split
    · next same =>
      refine ⟨fun x => pub.registerSubscriberPeer_matches e x, ?_⟩
      rw [pub.registerSubscriberPeer_peer]
      simp [LocalPublisher.Matches, kind, same]
    · next other => simp [LocalPublisher.Matches, other]
  · next kind => exact ⟨pub', h, by simp [LocalPublisher.Matches, kind]⟩
  · next kind _ =>
    have : ¬ e.kind = .topicSubscriber := kind
    exact ⟨pub', h, by simp [LocalPublisher.Matches, this]⟩

theorem registerPeers_clients {c : RemoteContext} {e : UpdateEntity} {client' : LocalClient}
    (h : client' ∈ (c.registerPeers e).clients) :
    ∃ client ∈ c.clients, (∀ x, client'.Matches x ↔ client.Matches x) ∧
      (client'.peer = true ↔ client.peer = true ∨ client.Matches e) := by
  unfold registerPeers at h
  split at h
  · next kind => exact ⟨client', h, by simp [LocalClient.Matches, kind]⟩
  · next kind =>
    obtain ⟨client, hclient, rfl⟩ := List.mem_map.mp h
    refine ⟨client, hclient, ?_⟩
    split
    · next same => simp [LocalClient.Matches, kind, same]
    · next other => simp [LocalClient.Matches, other]
  · next _ kind =>
    have : ¬ e.kind = .serviceServer := kind
    exact ⟨client', h, by simp [LocalClient.Matches, this]⟩

theorem exists_known_or {known : UpdateEntity → Prop} {p : UpdateEntity → Prop} {e : UpdateEntity} :
    (∃ x, (known x ∨ x = e) ∧ p x) ↔ (∃ x, known x ∧ p x) ∨ p e := by
  constructor
  · rintro ⟨x, h | rfl, hp⟩
    · exact .inl ⟨x, h, hp⟩
    · exact .inr hp
  · rintro (⟨x, h, hp⟩ | hp)
    · exact ⟨x, .inl h, hp⟩
    · exact ⟨e, .inr rfl, hp⟩

theorem Recorded.takeEntity {c : RemoteContext} {known : UpdateEntity → Prop} (h : c.Recorded known)
    {e : UpdateEntity} (only : ∀ x, known x → x.key = e.key → x = e) (now : Nat) :
    (c.takeEntity now e).Recorded fun x => known x ∨ x = e where
  table x := by
    simp only [RemoteContext.takeEntity, registerPeers_entities]
    rw [mem_upsert, h.table]
    intro d hd same
    exact only _ ((h.table _).mp (List.mem_map_of_mem hd)) same
  once := by
    simp only [RemoteContext.takeEntity, registerPeers_entities]
    exact upsert_once h.once
  publishers pub' hpub' := by
    obtain ⟨pub, hpub, matches_, peer⟩ := registerPeers_publishers hpub'
    rw [peer, h.publishers pub hpub]
    simp only [matches_]
    exact exists_known_or.symm
  clients client' hclient' := by
    obtain ⟨client, hclient, matches_, peer⟩ := registerPeers_clients hclient'
    rw [peer, h.clients client hclient]
    simp only [matches_]
    exact exists_known_or.symm

theorem Recorded.takeEntities {c : RemoteContext} {known : UpdateEntity → Prop} {es : List UpdateEntity}
    (h : c.Recorded known) (only : ∀ x y, known x ∨ x ∈ es → y ∈ es → x.key = y.key → x = y)
    (now : Nat) :
    (es.foldl (RemoteContext.takeEntity now) c).Recorded fun x => known x ∨ x ∈ es := by
  induction es generalizing c known with
  | nil => exact h.congr fun e => by simp
  | cons e rest ih =>
    have taken := h.takeEntity (fun x hx => only x e (.inl hx) (List.mem_cons_self ..)) now
    have done := ih taken fun x y hx hy => by
      refine only x y ?_ (List.mem_cons_of_mem _ hy)
      obtain (hx | rfl) | hx := hx
      · exact .inl hx
      · exact .inr (List.mem_cons_self ..)
      · exact .inr (List.mem_cons_of_mem _ hx)
    exact done.congr fun x => by simp only [List.mem_cons]; tauto

/-- Nothing is recorded of what a new list supersedes. -/
theorem forget_recorded (c : RemoteContext) :
    (c.forgetPeersFromSource true).forgetDiscoveredEntities.Recorded fun _ => False where
  table e := by simp [forgetDiscoveredEntities, refreshLivelinessFlags]
  once := List.nodup_nil
  publishers pub hpub := by
    obtain ⟨old, -, rfl⟩ := List.mem_map.mp hpub
    simp [LocalPublisher.forgetPeer]
  clients client hclient := by
    obtain ⟨old, -, rfl⟩ := List.mem_map.mp hclient
    simp

theorem finish_recorded {c : RemoteContext} {known : UpdateEntity → Prop} (h : c.Recorded known)
    (now : Nat) (a : Announce) : (c.finish now a).Recorded known := by
  refine h.of_same rfl ?_ rfl
  intro pub' hpub'
  obtain ⟨pub, hpub, rfl⟩ := List.mem_map.mp hpub'
  refine ⟨pub, hpub, ?_⟩
  split
  · exact ⟨rfl, fun _ => Iff.rfl⟩
  · exact ⟨rfl, fun _ => Iff.rfl⟩

end RemoteContext

/-! ## Runs -/

namespace RemoteLists

/-- The datagram is a part of one of the context's lists. -/
structure Sent (lists : RemoteLists) (a : Announce) : Prop where
  count : a.fragCount = (lists.parts a.generation).length
  part : (lists.parts a.generation)[a.fragIndex]? = some a.entities
  whole : a.broken = none

/-- What has come of the list under way. -/
def Received (lists : RemoteLists) (c : RemoteContext) (e : UpdateEntity) : Prop :=
  ∃ i ∈ c.updatePartReceived, ∃ part, (lists.parts c.updatePartGeneration)[i]? = some part ∧ e ∈ part

/-- An applied list is what is recorded, with no part under way; with parts under way they are what is
recorded. -/
structure Faithful (lists : RemoteLists) (c : RemoteContext) : Prop where
  applied : c.updateSeen = true → c.updateReprocess = false →
    c.Recorded (· ∈ (lists.parts c.updateGeneration).flatten) ∧ c.updatePartsAny = false
  underWay : c.updatePartsAny = true → c.Recorded (lists.Received c) ∧
    c.updatePartCount = (lists.parts c.updatePartGeneration).length ∧
    c.updatePartReceived ⊆ Finset.range c.updatePartCount

/-- The events that leave what is applied what is recorded: of the announces, a part of several acted
on only while no list counts as applied; a local endpoint created with no list under way. Leases and
ACKNACKs, which change the peers too, are another matter. -/
def TableSound (lists : RemoteLists) (c : RemoteContext) : RemoteContext.Event → Prop
  | .announce now a => lists.Sent a ∧
      (c.ignores now a = false → a.fragCount = 1 ∨ c.updateSeen = false ∨ c.updateReprocess = true)
  | .summary _ | .data _ _ | .presumeDead | .writerUnknown => True
  | .createPublisher _ | .createClient _ => c.updatePartsAny = false
  | .acknack .. | .checkLeases _ => False

section Announce

variable {lists : RemoteLists} {c : RemoteContext} {a : Announce} {now : Nat}

/-- The parts of the announce's list that have come are what is recorded. -/
structure Gathers (lists : RemoteLists) (c : RemoteContext) (a : Announce) : Prop where
  recorded : c.Recorded (lists.Received c)
  generation : c.updatePartGeneration = a.generation
  count : c.updatePartCount = a.fragCount
  received : c.updatePartReceived ⊆ Finset.range a.fragCount

theorem begun_gathers (begins : c.begins a = true) : lists.Gathers (c.beginList a) a := by
  unfold RemoteContext.beginList
  rw [if_pos begins]
  refine ⟨?_, rfl, rfl, Finset.empty_subset _⟩
  have forgotten := c.forget_recorded
  refine forgotten.moved rfl rfl rfl ?_
  simp [Received]

/-- A part finds nothing, or the parts of its own list so far. -/
theorem Faithful.beginList (h : lists.Faithful c) : lists.Gathers (c.beginList a) a := by
  by_cases more : c.begins a = true
  · exact begun_gathers more
  · unfold RemoteContext.beginList
    rw [if_neg more]
    simp only [RemoteContext.begins, Bool.or_eq_true, decide_eq_true_eq, Bool.not_eq_true', not_or,
      Bool.not_eq_false, ne_eq, Decidable.not_not] at more
    obtain ⟨⟨⟨-, any⟩, generation⟩, count⟩ := more
    obtain ⟨recorded, -, received⟩ := h.underWay any
    exact ⟨recorded, generation, count, count ▸ received⟩

theorem received_mem_flatten (gathers : lists.Gathers c a) {e : UpdateEntity}
    (h : lists.Received c e) : e ∈ (lists.parts a.generation).flatten := by
  obtain ⟨i, -, part, found, mem⟩ := h
  rw [gathers.generation] at found
  exact List.mem_flatten.mpr ⟨part, List.mem_of_getElem? found, mem⟩

theorem Gathers.receive (begun : lists.Gathers (c.beginList a) a) (sent : lists.Sent a) :
    lists.Gathers (c.receive now a) a := by
  have marks := c.absorb_sameMarks now a
  have own : ∀ e ∈ a.entities, e ∈ (lists.parts a.generation).flatten := fun e he =>
    List.mem_flatten.mpr ⟨a.entities, List.mem_of_getElem? sent.part, he⟩
  have only : ∀ x y, lists.Received (c.beginList a) x ∨ x ∈ a.entities → y ∈ a.entities →
      x.key = y.key → x = y := by
    rintro x y (hx | hx) hy same
    · exact lists.distinct _ x (received_mem_flatten begun hx) y (own y hy) same
    · exact lists.distinct _ x (own x hx) y (own y hy) same
  have absorbed : (c.absorb now a).Recorded fun e =>
      lists.Received (c.beginList a) e ∨ e ∈ a.entities := by
    unfold RemoteContext.absorb RemoteContext.decodeUpdateEntities
    rw [sent.whole]
    exact (begun.recorded.takeEntities only now).of_same rfl
      (fun pub hpub => ⟨pub, hpub, rfl, fun _ => Iff.rfl⟩) rfl
  have generation : (c.absorb now a).updatePartGeneration = a.generation := by
    rw [marks]
    exact begun.generation
  have received : (c.absorb now a).updatePartReceived = (c.beginList a).updatePartReceived := by
    rw [marks]
  refine ⟨?_, generation, ?_, ?_⟩
  · refine absorbed.moved rfl rfl rfl ?_
    intro e
    simp only [Received, RemoteContext.receive, Finset.mem_insert, generation, received,
      begun.generation]
    constructor
    · rintro (⟨i, hi, part, found, mem⟩ | mem)
      · exact ⟨i, .inr hi, part, found, mem⟩
      · exact ⟨a.fragIndex, .inl rfl, a.entities, sent.part, mem⟩
    · rintro ⟨i, rfl | hi, part, found, mem⟩
      · rw [sent.part] at found
        cases found
        exact .inr mem
      · exact .inl ⟨i, hi, part, found, mem⟩
  · simp only [RemoteContext.receive]
    rw [marks]
    exact begun.count
  · simp only [RemoteContext.receive, received]
    apply Finset.insert_subset _ begun.received
    rw [Finset.mem_range, sent.count]
    exact (List.getElem?_eq_some_iff.mp sent.part).1

theorem Faithful.receive (h : lists.Faithful c) (sent : lists.Sent a) : lists.Gathers (c.receive now a) a :=
  h.beginList.receive sent

/-- With every part there, what has come is the list. -/
theorem received_all (gathers : lists.Gathers c a) (sent : lists.Sent a)
    (all : c.updatePartsComplete a.fragCount = true) (e : UpdateEntity) :
    lists.Received c e ↔ e ∈ (lists.parts a.generation).flatten := by
  constructor
  · exact received_mem_flatten gathers
  · intro mem
    obtain ⟨part, hpart, he⟩ := List.mem_flatten.mp mem
    obtain ⟨i, hi, rfl⟩ := List.getElem_of_mem hpart
    simp only [RemoteContext.updatePartsComplete, decide_eq_true_eq] at all
    refine ⟨i, ?_, _, ?_, he⟩
    · rw [all, Finset.mem_range, sent.count]
      exact hi
    · rw [gathers.generation]
      exact List.getElem?_eq_getElem hi

theorem Faithful.of_same {c' : RemoteContext} (h : lists.Faithful c)
    (seen : c'.updateSeen = c.updateSeen) (reprocess : c'.updateReprocess = c.updateReprocess)
    (generation : c'.updateGeneration = c.updateGeneration)
    (partGeneration : c'.updatePartGeneration = c.updatePartGeneration)
    (partCount : c'.updatePartCount = c.updatePartCount)
    (partReceived : c'.updatePartReceived = c.updatePartReceived)
    (recorded : ∀ {known}, c.Recorded known → c'.Recorded known) : lists.Faithful c' where
  applied hseen hreprocess := by
    obtain ⟨table, none_⟩ := h.applied (seen ▸ hseen) (reprocess ▸ hreprocess)
    refine ⟨generation ▸ recorded table, ?_⟩
    unfold RemoteContext.updatePartsAny at none_ ⊢
    rw [partCount, partReceived]
    exact none_
  underWay any := by
    unfold RemoteContext.updatePartsAny at any
    rw [partCount, partReceived] at any
    obtain ⟨table, count, received⟩ := h.underWay any
    refine ⟨?_, by rw [partCount, partGeneration, count], by rw [partReceived, partCount]; exact received⟩
    apply (recorded table).congr
    intro e
    rw [Received, Received, partReceived, partGeneration]

theorem Faithful.heard (h : lists.Faithful c) (now : Nat) : lists.Faithful (c.heard now) :=
  h.of_same rfl rfl rfl rfl rfl rfl fun table => table.moved rfl rfl rfl fun _ => Iff.rfl

theorem traffic_recorded {known : UpdateEntity → Prop} (h : c.Recorded known) (now : Nat) :
    (c.traffic now).Recorded known := by
  have same : ∀ table : List DiscoveredEntity,
      (table.map fun d => if RemoteContext.revivable d then { d with alive := true } else d).map
        (·.announced) = table.map (·.announced) := by
    intro table
    rw [List.map_map]
    apply List.map_congr_left
    intro d _
    simp only [Function.comp_apply]
    split <;> rfl
  unfold RemoteContext.traffic RemoteContext.reviveLapsedEntities
  dsimp only
  split
  · split
    · exact h.moved rfl rfl rfl fun _ => Iff.rfl
    · exact h.of_same (same _) (fun pub hpub => ⟨pub, hpub, rfl, fun _ => Iff.rfl⟩) rfl
  · exact h.moved rfl rfl rfl fun _ => Iff.rfl

/-- A change of the table and the peers only, with the same entities recorded and the same peers. -/
theorem Faithful.of_sameMarks {c' : RemoteContext} (h : lists.Faithful c) (marks : c.SameMarks c')
    (recorded : ∀ {known}, c.Recorded known → c'.Recorded known) : lists.Faithful c' := by
  unfold RemoteContext.SameMarks at marks
  apply h.of_same _ _ _ _ _ _ recorded
  all_goals rw [marks]

theorem Faithful.traffic (h : lists.Faithful c) (now : Nat) : lists.Faithful (c.traffic now) := by
  have timed : lists.Faithful { c with trafficLastSeen := now } :=
    h.of_same rfl rfl rfl rfl rfl rfl fun table => table.moved rfl rfl rfl fun _ => Iff.rfl
  exact timed.of_sameMarks (c.traffic_sameMarks now) fun table => traffic_recorded
    (table.moved rfl rfl rfl fun _ => Iff.rfl) now

theorem receive_marks (c : RemoteContext) (now : Nat) (a : Announce) :
    (c.receive now a).updateSeen = c.updateSeen ∧
      (c.receive now a).updateReprocess = c.updateReprocess := by
  have marks := c.absorb_sameMarks now a
  have begun : (c.beginList a).updateSeen = c.updateSeen ∧
      (c.beginList a).updateReprocess = c.updateReprocess := by
    unfold RemoteContext.beginList
    split
    · exact ⟨rfl, rfl⟩
    · exact ⟨rfl, rfl⟩
  simp only [RemoteContext.receive]
  rw [marks]
  exact begun

/-- The one part of a whole list completes it. -/
theorem Gathers.single (gathers : lists.Gathers (c.receive now a) a) (single : a.fragCount = 1)
    (part : a.fragIndex < a.fragCount) : (c.receive now a).updatePartsComplete a.fragCount = true := by
  have received := gathers.received
  have zero : a.fragIndex = 0 := by omega
  simp only [RemoteContext.updatePartsComplete, decide_eq_true_eq]
  apply Finset.Subset.antisymm received
  rw [single, Finset.range_one, Finset.singleton_subset_iff, ← zero]
  exact Finset.mem_insert_self ..

theorem Faithful.processAnnounce (h : lists.Faithful c) (sent : lists.Sent a)
    (sound : c.ignores now a = false →
      a.fragCount = 1 ∨ c.updateSeen = false ∨ c.updateReprocess = true) :
    lists.Faithful (c.processAnnounce now a) := by
  have heard := h.heard now
  have gathers : lists.Gathers ((c.heard now).receive now a) a := heard.receive sent
  have index : a.fragIndex < a.fragCount := by
    rw [sent.count]
    exact (List.getElem?_eq_some_iff.mp sent.part).1
  unfold RemoteContext.processAnnounce
  dsimp only
  split
  · exact heard
  · next taken =>
    have acted : c.ignores now a = false := Bool.eq_false_iff.mpr taken
    rw [if_neg (by simp [sent.whole])]
    split
    · next done =>
      have all := received_all gathers sent done
      refine ⟨fun _ _ => ⟨?_, ?_⟩, fun any => ?_⟩
      · exact (RemoteContext.finish_recorded gathers.recorded now a).congr all
      · simp [RemoteContext.updatePartsAny, RemoteContext.finish]
      · simp [RemoteContext.updatePartsAny, RemoteContext.finish] at any
    · next more =>
      refine ⟨fun seen reprocess => ?_, fun _ => ⟨gathers.recorded, ?_, ?_⟩⟩
      · obtain ⟨hseen, hreprocess⟩ := receive_marks (c.heard now) now a
        rw [hseen] at seen
        rw [hreprocess] at reprocess
        obtain single | unseen | again := sound acted
        · exact absurd (gathers.single single index) more
        · exact absurd (unseen.symm.trans seen) (by decide)
        · exact absurd (again.symm.trans reprocess) (by decide)
      · rw [gathers.count, gathers.generation, sent.count]
      · rw [gathers.count]
        exact gathers.received

end Announce

variable {lists : RemoteLists} {c : RemoteContext}

theorem noteManualAssertion_recorded {known : UpdateEntity → Prop} (h : c.Recorded known)
    (now endpointId entityId : Nat) :
    (c.noteManualAssertion now endpointId entityId).Recorded known := by
  unfold RemoteContext.noteManualAssertion
  split
  · exact h
  · dsimp only
    have same : ∀ (p : DiscoveredEntity → Bool) (f : DiscoveredEntity → Bool),
        (c.entities.map fun d => if p d then { d with lastAsserted := now, alive := f d } else d).map
          (·.announced) = c.entities.map (·.announced) := by
      intro p f
      rw [List.map_map]
      apply List.map_congr_left
      intro d _
      simp only [Function.comp_apply]
      split <;> rfl
    split
    · exact h.of_same (same _ _) (fun pub hpub => ⟨pub, hpub, rfl, fun _ => Iff.rfl⟩) rfl
    · exact h.of_same (same _ _) (fun pub hpub => ⟨pub, hpub, rfl, fun _ => Iff.rfl⟩) rfl

/-- A local endpoint is created with no list under way: what counted as applied is to come again. -/
theorem Faithful.created {publishers : List LocalPublisher} {clients : List LocalClient}
    (none_ : c.updatePartsAny = false) :
    lists.Faithful { c with publishers := publishers, clients := clients }.reprocessKnownAnnounces := by
  unfold RemoteContext.reprocessKnownAnnounces
  split
  · refine ⟨fun _ again => ?_, fun any => ?_⟩
    · simp at again
    · exact absurd (none_.symm.trans any) (by decide)
  · next unseen =>
    refine ⟨fun seen _ => absurd seen unseen, fun any => ?_⟩
    exact absurd (none_.symm.trans any) (by decide)

theorem Faithful.step (h : lists.Faithful c) (event : RemoteContext.Event)
    (sound : lists.TableSound c event) : lists.Faithful (c.step event) := by
  cases event with
  | announce now a =>
    have acted := c.traffic_sameMarks now
    unfold RemoteContext.SameMarks at acted
    refine (h.traffic now).processAnnounce sound.1 ?_
    rw [acted]
    exact sound.2
  | summary now => exact (h.traffic now).heard now
  | data now asserts =>
    cases asserts with
    | none => exact h.traffic now
    | some writer =>
      exact (h.traffic now).of_sameMarks (RemoteContext.noteManualAssertion_sameMarks _ now _ _)
        fun table => noteManualAssertion_recorded table now _ _
  | acknack now slot entityId departed => exact sound.elim
  | checkLeases now => exact sound.elim
  | presumeDead =>
    refine ⟨fun seen => ?_, fun any => ?_⟩
    · simp [RemoteContext.step, RemoteContext.presumeNodeDead] at seen
    · simp [RemoteContext.step, RemoteContext.presumeNodeDead, RemoteContext.updatePartsAny] at any
  | createPublisher pub => exact Faithful.created sound
  | createClient client => exact Faithful.created sound
  | writerUnknown =>
    refine ⟨fun _ again => ?_, fun any => ?_⟩
    · simp [RemoteContext.step] at again
    · obtain ⟨table, count, received⟩ := h.underWay any
      exact ⟨table.moved rfl rfl rfl fun _ => Iff.rfl, count, received⟩

theorem unknown_faithful (publishers : List LocalPublisher) (clients : List LocalClient) :
    lists.Faithful (.unknown publishers clients) := by
  refine ⟨fun seen => ?_, fun any => ?_⟩
  · simp [RemoteContext.unknown] at seen
  · simp [RemoteContext.unknown, RemoteContext.updatePartsAny] at any

/-- In every run of sound steps, a generation that counts as applied is what the table and the peers
record: the entities of the list of that generation, no more and no fewer. -/
theorem applied_is_recorded (lists : RemoteLists) (publishers : List LocalPublisher)
    (clients : List LocalClient) (events : List RemoteContext.Event)
    (sound : Run.Sound RemoteContext.step lists.TableSound (.unknown publishers clients) events)
    (generation : Generation)
    (applied : (RemoteContext.run (.unknown publishers clients) events).discoveryGenerationApplied
      generation = true) :
    (RemoteContext.run (.unknown publishers clients) events).Recorded
      (· ∈ (lists.parts generation).flatten) := by
  have faithful : lists.Faithful (RemoteContext.run (.unknown publishers clients) events) :=
    Run.keeps (fun c event h => h.step event) (unknown_faithful publishers clients) sound
  simp only [RemoteContext.discoveryGenerationApplied, Bool.and_eq_true, Bool.not_eq_true',
    decide_eq_true_eq] at applied
  obtain ⟨⟨seen, again⟩, rfl⟩ := applied
  exact (faithful.applied seen again).1

/-- A Subscriber of topic 1, without leases. -/
def subscriberEntity (entityId : Nat) : UpdateEntity where
  endpointId := 1
  entityId := entityId
  kind := .topicSubscriber
  nodeIndex := 0
  qos := ⟨true, false, false, false⟩
  deadlineDuration := 0
  livelinessLeaseDuration := 0
  lifespanDuration := 0
  historyDepth := 1
  trackingWords := 4
  type := "std_msgs/String"
  name := "chatter"

/-- Two Subscribers announced in two datagrams under generation 3, then one in one under generation 5. -/
def shrinking : RemoteLists where
  parts g := if g = 5 then [[subscriberEntity 2]]
    else if g = 3 then [[subscriberEntity 1], [subscriberEntity 2]] else []
  distinct := by
    intro g e he e' he' same
    have entityId : e.entityId = e'.entityId := congrArg Prod.snd same
    have all : ∀ x ∈ (if g = 5 then [[subscriberEntity 2]]
        else if g = 3 then [[subscriberEntity 1], [subscriberEntity 2]] else []).flatten,
        x = subscriberEntity x.entityId := by
      intro x hx
      split at hx
      · simp only [List.flatten_cons, List.flatten_nil, List.append_nil, List.mem_singleton] at hx
        rw [hx]
        rfl
      · split at hx
        · simp only [List.flatten_cons, List.flatten_nil, List.append_nil, List.cons_append,
            List.nil_append, List.mem_cons, List.not_mem_nil, or_false] at hx
          obtain rfl | rfl := hx <;> rfl
        · simp at hx
    rw [all e he, all e' he', entityId]

/-- The list of generation 5, and the first datagram of generation 3. -/
def shrunk : Announce := ⟨5, 0, 1, 7400, [subscriberEntity 2], none⟩

def firstOfTwo : Announce := ⟨3, 0, 2, 7400, [subscriberEntity 1], none⟩

theorem shrinking_sent : shrinking.Sent shrunk ∧ shrinking.Sent firstOfTwo :=
  ⟨⟨rfl, rfl, rfl⟩, ⟨rfl, rfl, rfl⟩⟩

theorem applied_is_recorded_shrunk :
    (RemoteContext.run (.unknown [] []) [.announce 10 shrunk]).Recorded
      (· ∈ (shrinking.parts 5).flatten) :=
  applied_is_recorded shrinking [] [] [.announce 10 shrunk]
    ⟨⟨shrinking_sent.1, fun _ => .inl rfl⟩, trivial⟩ 5 (by decide +kernel)

/-- The first datagram of the older list comes two seconds after the newer list was applied. The newer
one counts as applied still, and what is recorded is a part of the older. -/
theorem applied_is_not_recorded :
    let c := RemoteContext.run (.unknown [] [])
      [.announce 10 shrunk, .announce 2000000010 firstOfTwo]
    shrinking.Sent shrunk ∧ shrinking.Sent firstOfTwo ∧ c.discoveryGenerationApplied 5 = true ∧
      ¬ c.Recorded (· ∈ (shrinking.parts 5).flatten) := by
  refine ⟨shrinking_sent.1, shrinking_sent.2, by decide +kernel, fun recorded => ?_⟩
  have known := (recorded.table (subscriberEntity 1)).mp (by decide +kernel)
  revert known
  decide

end RemoteLists

end Tickle
