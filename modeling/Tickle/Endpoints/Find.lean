import Tickle.Endpoints.Walk

/-! # Looking an endpoint up

Several endpoints may have one kind and one id. A lookup walks the index from the home of the id on, and as a rebuild places the
endpoints oldest first, it comes by those of one id in the order of the list.
-/

namespace Tickle

namespace Endpoints

open Probing
open Walking (isMatch defaultLimits)

namespace Node

variable (limits : Limits)

/-! ## The lookups -/

/-- The loop of `find_endpoint()`, in so many rounds at most: nothing when they are not enough. -/
def findFrom (index : Nat → Option Endpoint) (mask : Nat) (kind : UInt8) (endpointId : Nat) :
    (rounds : Nat) → (slot : Nat) → Option (Option Endpoint)
  | 0, _ => none
  | rounds + 1, slot =>
    match index slot with
    | none => some none
    | some endpoint =>
      if endpoint.kind = kind ∧ endpoint.id = endpointId then some (some endpoint)
      else findFrom index mask kind endpointId rounds ((slot + 1) &&& mask)

/-- `find_endpoint()`, in as many rounds as there are slots in use. -/
def findEndpoint (node : Node) (kind : UInt8) (endpointId : Nat) : Option (Option Endpoint) :=
  let ready := node.endpointIndexReady limits
  findFrom ready.index ready.mask kind endpointId (ready.mask + 1) (endpointId &&& ready.mask)

/-- The loop of `find_endpoint_by_entity()`. -/
def findByEntityFrom (index : Nat → Option Endpoint) (mask : Nat) (kind : UInt8) (endpointId : Nat) (entityId : BitVec 32) :
    (rounds : Nat) → (slot : Nat) → (firstMatch : Option Endpoint) → Option (Option Endpoint)
  | 0, _, _ => none
  | rounds + 1, slot, firstMatch =>
    match index slot with
    | none => some firstMatch
    | some endpoint =>
      if endpoint.kind = kind ∧ endpoint.id = endpointId then
        if entityId ≠ 0 ∧ endpoint.entityId = entityId then some (some endpoint)
        else
          findByEntityFrom index mask kind endpointId entityId rounds ((slot + 1) &&& mask)
            (if firstMatch.isNone then some endpoint else firstMatch)
      else findByEntityFrom index mask kind endpointId entityId rounds ((slot + 1) &&& mask) firstMatch

/-- `find_endpoint_by_entity()`, in as many rounds as there are slots in use. -/
def findEndpointByEntity (node : Node) (kind : UInt8) (endpointId : Nat) (entityId : BitVec 32) : Option (Option Endpoint) :=
  let ready := node.endpointIndexReady limits
  findByEntityFrom ready.index ready.mask kind endpointId entityId (ready.mask + 1) (endpointId &&& ready.mask) none

/-- `node_entry_init()`: a node of the context takes an entity id of the endpoints' sequence. -/
def nodeEntryInit (node : Node) : Node :=
  { node with
    nextEntityId :=
      if node.entityIdBase + node.nextEntityId = discoveryEntityId then node.nextEntityId + 2 else node.nextEntityId + 1 }

/-- What happens to the endpoints of a context: one is created or destroyed, one is looked up, or a node comes into use. -/
inductive Event
  | change (change : Change)
  | nodeCreated
  deriving DecidableEq, Repr

def event (node : Node) : Event → Node
  | .change change => node.change limits change
  | .nodeCreated => node.nodeEntryInit

def events (node : Node) (list : List Event) : Node := list.foldl (event limits) node

/-! ## What is looked for -/

/-- The oldest endpoint of a kind and an id. -/
def oldest (node : Node) (kind : UInt8) (endpointId : Nat) : Option Endpoint := node.endpoints.find? (isMatch kind endpointId)

/-- The oldest of them that has the entity id. -/
def withEntity (node : Node) (kind : UInt8) (endpointId : Nat) (entityId : BitVec 32) : Option Endpoint :=
  node.endpoints.find? fun endpoint => isMatch kind endpointId endpoint ∧ endpoint.entityId = entityId

/-! ## The walks are probes -/

theorem findFrom_eq (index : Nat → Option Endpoint) (log : Nat) (kind : UInt8) (endpointId rounds slot : Nat) :
    findFrom index (2 ^ log - 1) kind endpointId rounds slot =
      probe index (2 ^ log) (isMatch kind endpointId) rounds slot := by
  induction rounds generalizing slot with
  | zero => rfl
  | succ rounds ih =>
    unfold findFrom probe
    cases index slot with
    | none => rfl
    | some endpoint =>
      dsimp only
      rw [Nat.and_two_pow_sub_one_eq_mod, ih]
      unfold isMatch
      simp only [decide_eq_true_eq]

/-- What `find_endpoint_by_entity()` stops at. -/
def isNamed (kind : UInt8) (endpointId : Nat) (entityId : BitVec 32) (endpoint : Endpoint) : Bool :=
  isMatch kind endpointId endpoint ∧ entityId ≠ 0 ∧ endpoint.entityId = entityId

/-- A walk that comes by no endpoint with the entity id gives the match it has, or else the first one on its way. -/
theorem findByEntityFrom_missed {index : Nat → Option Endpoint} {log : Nat} {kind : UInt8} {endpointId : Nat}
    {entityId : BitVec 32} {rounds slot : Nat} {firstMatch first : Option Endpoint}
    (missed : probe index (2 ^ log) (isNamed kind endpointId entityId) rounds slot = some none)
    (found : probe index (2 ^ log) (isMatch kind endpointId) rounds slot = some first) :
    findByEntityFrom index (2 ^ log - 1) kind endpointId entityId rounds slot firstMatch = some (firstMatch.or first) := by
  induction rounds generalizing slot firstMatch first with
  | zero => exact absurd missed (by simp [probe])
  | succ rounds ih =>
    unfold findByEntityFrom
    cases there : index slot with
    | none =>
      rw [probe_free there, Option.some.injEq] at found
      rw [← found, Option.or_none]
    | some endpoint =>
      have other : isNamed kind endpointId entityId endpoint = false := by
        by_contra named
        rw [Bool.not_eq_false] at named
        rw [probe_hit there named] at missed
        exact absurd missed (by simp)
      rw [probe_next there other] at missed
      dsimp only
      rw [Nat.and_two_pow_sub_one_eq_mod]
      by_cases match_ : isMatch kind endpointId endpoint = true
      · rw [probe_hit there match_, Option.some.injEq] at found
        subst found
        have differs : ¬ (entityId ≠ 0 ∧ endpoint.entityId = entityId) := by
          intro named
          exact Bool.false_ne_true (other.symm.trans (decide_eq_true ⟨match_, named⟩))
        obtain ⟨rest, going⟩ := probe_less (q := isNamed kind endpointId entityId) (p := isMatch kind endpointId)
          (fun x named => (of_decide_eq_true named).1) missed
        rw [if_pos (of_decide_eq_true match_), if_neg differs, ih missed going]
        cases firstMatch with
        | none => rfl
        | some held => rfl
      · rw [probe_next there (Bool.eq_false_iff.mpr match_)] at found
        rw [if_neg (fun both => match_ (decide_eq_true both)), ih missed found]

/-- A walk that comes by an endpoint with the entity id gives it. -/
theorem findByEntityFrom_named {index : Nat → Option Endpoint} {log : Nat} {kind : UInt8} {endpointId : Nat}
    {entityId : BitVec 32} {rounds slot : Nat} {firstMatch : Option Endpoint} {named : Endpoint}
    (hit : probe index (2 ^ log) (isNamed kind endpointId entityId) rounds slot = some (some named)) :
    findByEntityFrom index (2 ^ log - 1) kind endpointId entityId rounds slot firstMatch = some (some named) := by
  induction rounds generalizing slot firstMatch with
  | zero => exact absurd hit (by simp [probe])
  | succ rounds ih =>
    unfold findByEntityFrom
    cases there : index slot with
    | none =>
      rw [probe_free there] at hit
      exact absurd hit (by simp)
    | some endpoint =>
      dsimp only
      rw [Nat.and_two_pow_sub_one_eq_mod]
      by_cases match_ : isNamed kind endpointId entityId endpoint = true
      · rw [probe_hit there match_] at hit
        obtain ⟨of, named_⟩ := of_decide_eq_true match_
        rw [if_pos (of_decide_eq_true of), if_pos named_]
        exact hit
      · rw [probe_next there (Bool.eq_false_iff.mpr match_)] at hit
        split
        · next of =>
          rw [if_neg (fun named_ => match_ (decide_eq_true ⟨decide_eq_true of, named_⟩)), ih hit]
        · exact ih hit

/-! ## The index has the endpoints of an id oldest first -/

variable {limits} {node : Node}

/-- Unless it is stale, the index has the endpoints of an id in the order of the list. -/
def Ordered (node : Node) : Prop :=
  node.mask ≠ 0 → InOrder (node.mask + 1) (fun endpoint : Endpoint => endpoint.id) node.index node.endpoints

theorem Sound.rebuild_ordered (sound : Sound limits node) : Ordered (node.rebuildEndpointIndex limits) := by
  intro _
  obtain ⟨log, slots, two, size, room⟩ := limits.endpointIndexSlots_spec sound.fits
  have some_ := Nat.two_pow_pos log
  have whole : 2 ^ log - 1 + 1 = 2 ^ log := by omega
  unfold rebuildEndpointIndex
  dsimp only
  rw [slots, whole, placeEndpoint_eq]
  have empty := @holds_empty Endpoint (2 ^ log) (fun endpoint => endpoint.id)
    (fun slot => if slot ≤ 2 ^ log - 1 then none else node.index slot)
    (fun slot within => if_pos (by omega))
  exact InOrder.placeAll empty List.Pairwise.nil (by rw [List.length_nil, Nat.zero_add]; exact room) sound.nodup

theorem Ordered.ready (ordered : Ordered node) (sound : Sound limits node) : Ordered (node.endpointIndexReady limits) := by
  unfold endpointIndexReady
  split
  · exact sound.rebuild_ordered
  · exact ordered

theorem Ordered.change (ordered : Ordered node) (sound : Sound limits node) (change : Change) :
    Ordered (node.change limits change) := by
  cases change with
  | add ref kind id hasOwner =>
    unfold Node.change addEndpoint
    dsimp only
    split
    · exact ordered
    · exact fun ready => absurd rfl ready
  | remove ref =>
    unfold Node.change removeEndpoint
    dsimp only
    split
    · exact fun ready => absurd rfl ready
    · exact ordered
  | look => exact ordered.ready sound

theorem Sound.event (sound : Sound limits node) (ordered : Ordered node) (event : Event) :
    Sound limits (node.event limits event) ∧ Ordered (node.event limits event) := by
  cases event with
  | change change => exact ⟨sound.change change, ordered.change sound change⟩
  | nodeCreated =>
    refine ⟨⟨sound.distinct, sound.fits, ?_⟩, ordered⟩
    intro ready
    obtain ⟨log, mask, two, size, room, holds⟩ := sound.indexed ready
    exact ⟨log, mask, two, size, room, holds⟩

theorem Sound.events (sound : Sound limits node) (ordered : Ordered node) (list : List Event) :
    Sound limits (node.events limits list) ∧ Ordered (node.events limits list) := by
  induction list generalizing node with
  | nil => exact ⟨sound, ordered⟩
  | cons first rest ih =>
    obtain ⟨next, nextOrdered⟩ := sound.event ordered first
    exact ih next nextOrdered

/-! ## What a lookup finds -/

/-- A walk over the index, made ready, finds what the list has first. -/
theorem Sound.probe_ready (sound : Sound limits node) (ordered : Ordered node) {p : Endpoint → Bool} {a : Nat}
    (homed : ∀ endpoint, p endpoint = true → endpoint.id = a) :
    ∃ log, (node.endpointIndexReady limits).mask = 2 ^ log - 1 ∧
      probe (node.endpointIndexReady limits).index (2 ^ log) p (2 ^ log) (a % 2 ^ log) =
        some (node.endpoints.find? p) := by
  obtain ⟨-, same, log, indexed⟩ := sound.ready
  refine ⟨log, indexed.mask, ?_⟩
  have two : 2 ^ 1 ≤ 2 ^ log := Nat.pow_le_pow_right (by decide) indexed.two
  have inOrder := ordered.ready sound (by rw [indexed.mask]; omega)
  rw [indexed.mask, show 2 ^ log - 1 + 1 = 2 ^ log by omega] at inOrder
  rw [← same]
  exact indexed.holds.probe_eq inOrder indexed.room (fun x _ hit => homed x hit) (Nat.le_refl _)

theorem Sound.findEndpoint (sound : Sound limits node) (ordered : Ordered node) (kind : UInt8) (endpointId : Nat) :
    node.findEndpoint limits kind endpointId = some (node.oldest kind endpointId) := by
  obtain ⟨log, mask, found⟩ := sound.probe_ready ordered (p := isMatch kind endpointId) (a := endpointId)
    fun endpoint hit => (of_decide_eq_true hit).2
  have some_ := Nat.two_pow_pos log
  unfold Node.findEndpoint oldest
  dsimp only
  rw [mask, show 2 ^ log - 1 + 1 = 2 ^ log by omega, Nat.and_two_pow_sub_one_eq_mod, findFrom_eq, found]

theorem Sound.findEndpointByEntity (sound : Sound limits node) (ordered : Ordered node) (kind : UInt8) (endpointId : Nat)
    (entityId : BitVec 32) :
    node.findEndpointByEntity limits kind endpointId entityId =
      some ((node.endpoints.find? (isNamed kind endpointId entityId)).or (node.oldest kind endpointId)) := by
  obtain ⟨log, mask, found⟩ := sound.probe_ready ordered (p := isMatch kind endpointId) (a := endpointId)
    fun endpoint hit => (of_decide_eq_true hit).2
  obtain ⟨log', mask', named⟩ := sound.probe_ready ordered (p := isNamed kind endpointId entityId) (a := endpointId)
    fun endpoint hit => (of_decide_eq_true (of_decide_eq_true hit).1).2
  have some_ := Nat.two_pow_pos log
  have some_' := Nat.two_pow_pos log'
  have same : 2 ^ log' = 2 ^ log := by omega
  rw [same] at named
  unfold Node.findEndpointByEntity oldest
  dsimp only
  rw [mask, show 2 ^ log - 1 + 1 = 2 ^ log by omega, Nat.and_two_pow_sub_one_eq_mod]
  cases sought : node.endpoints.find? (isNamed kind endpointId entityId) with
  | none =>
    rw [sought] at named
    rw [findByEntityFrom_missed named found, Option.none_or]
  | some endpoint =>
    rw [sought] at named
    rw [findByEntityFrom_named named, Option.some_or]

/-- An entity id other than 0 is looked for, and 0 is unknown. -/
theorem find_isNamed (kind : UInt8) (endpointId : Nat) (entityId : BitVec 32) :
    node.endpoints.find? (isNamed kind endpointId entityId) =
      if entityId = 0 then none else node.withEntity kind endpointId entityId := by
  split
  · next unknown =>
    rw [List.find?_eq_none]
    intro endpoint _ named
    exact (of_decide_eq_true named).2.1 unknown
  · next known =>
    unfold withEntity
    congr 1
    funext endpoint
    unfold isNamed
    rw [decide_eq_decide]
    exact ⟨fun named => ⟨named.1, named.2.2⟩, fun named => ⟨named.1, known, named.2⟩⟩

theorem withEntity_oldest {kind : UInt8} {endpointId : Nat} {entityId : BitVec 32}
    (nobody : node.oldest kind endpointId = none) : node.withEntity kind endpointId entityId = none := by
  unfold oldest at nobody
  unfold withEntity
  rw [List.find?_eq_none] at nobody ⊢
  intro endpoint mem named
  exact nobody endpoint mem (of_decide_eq_true named).1

theorem oldest_none {kind : UInt8} {endpointId : Nat} :
    node.oldest kind endpointId = none ↔
      ∀ endpoint ∈ node.endpoints, ¬ (endpoint.kind = kind ∧ endpoint.id = endpointId) := by
  unfold oldest
  rw [List.find?_eq_none]
  simp [isMatch]

/-- After any events a lookup ends within the slots in use, at the oldest endpoint of the kind and the id, or at the oldest that has
the entity id when one is asked for and has it, and finds none only where the list has none. An entity id of 0 asks for none. -/
theorem lookups_find_oldest (limits : Limits) (entityIdBase : BitVec 32) (list : List Event) (kind : UInt8) (endpointId : Nat)
    (entityId : BitVec 32) :
    let node := (start entityIdBase).events limits list
    node.findEndpoint limits kind endpointId = some (node.oldest kind endpointId) ∧
      node.findEndpointByEntity limits kind endpointId entityId =
        some (if entityId = 0 then node.oldest kind endpointId
          else (node.withEntity kind endpointId entityId).or (node.oldest kind endpointId)) ∧
      (node.findEndpoint limits kind endpointId = some none ↔
        ∀ endpoint ∈ node.endpoints, ¬ (endpoint.kind = kind ∧ endpoint.id = endpointId)) ∧
      (node.findEndpointByEntity limits kind endpointId entityId = some none ↔
        ∀ endpoint ∈ node.endpoints, ¬ (endpoint.kind = kind ∧ endpoint.id = endpointId)) := by
  intro node
  obtain ⟨sound, ordered⟩ := (@sound_start limits entityIdBase).events (fun ready => absurd rfl ready) list
  have first := sound.findEndpoint ordered kind endpointId
  have named := sound.findEndpointByEntity ordered kind endpointId entityId
  rw [find_isNamed] at named
  have byEntity : node.findEndpointByEntity limits kind endpointId entityId =
      some (if entityId = 0 then node.oldest kind endpointId
        else (node.withEntity kind endpointId entityId).or (node.oldest kind endpointId)) := by
    rw [named]
    by_cases unknown : entityId = 0
    · rw [if_pos unknown, if_pos unknown, Option.none_or]
    · rw [if_neg unknown, if_neg unknown]
  refine ⟨first, byEntity, ?_, ?_⟩
  · rw [first, Option.some.injEq]
    exact oldest_none
  · rw [byEntity, Option.some.injEq, ← oldest_none]
    split
    · rfl
    · rw [Option.or_eq_none_iff]
      exact ⟨fun both => both.2, fun nobody => ⟨withEntity_oldest nobody, nobody⟩⟩

/-- A context whose base lies next to the reserved entity id: its second endpoint has the entity id 0. -/
def aboutToWrap : List Event := [.change (.add 1 33 7 true), .change (.add 2 33 7 true)]

/-- The second endpoint has the entity id asked for, and the first is found. -/
theorem aboutToWrap_finds_first :
    ((start 0xFFFFFFFE#32).events defaultLimits aboutToWrap).withEntity 33 7 0 = some ⟨2, 33, 7, 0⟩ ∧
      ((start 0xFFFFFFFE#32).events defaultLimits aboutToWrap).findEndpointByEntity defaultLimits 33 7 0 =
        some (some ⟨1, 33, 7, 0xFFFFFFFE#32⟩) := by
  decide +kernel

end Node

end Endpoints

end Tickle
