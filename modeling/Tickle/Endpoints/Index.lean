import Tickle.Loop
import Tickle.Probing

/-! # The endpoints of a context and their index

The endpoints are kept in a list, oldest first, and found through an open-addressed index that any change of the list makes stale. The
next lookup rebuilds it, with as many slots as the endpoints there are then want.
-/

namespace Tickle

namespace Endpoints

/-- `struct tt_Endpoint`: `ref` is its address. -/
structure Endpoint where
  ref : Nat
  kind : UInt8
  id : Nat
  entityId : BitVec 32
  deriving DecidableEq, Repr

/-- What the context is built with: `tt_MAX_ENDPOINT_COUNT`, `tt_ENDPOINT_INDEX_MIN_SLOTS` and `tt_ENDPOINT_INDEX_SIZE`, with the
asserts on them. -/
structure Limits where
  maxEndpointCount : Nat
  minSlotsLog : Nat
  indexSizeLog : Nat
  minSlots_le : minSlotsLog ≤ indexSizeLog
  minSlots_two : 1 ≤ minSlotsLog
  indexSize_lt : maxEndpointCount < 2 ^ indexSizeLog

namespace Limits

variable (limits : Limits)

def minSlots : Nat := 2 ^ limits.minSlotsLog

def indexSize : Nat := 2 ^ limits.indexSizeLog

/-- `endpoint_index_slots()`. A round doubles the slots, so there are never more rounds than the index has slots. -/
def endpointIndexSlots (count : Nat) : Nat :=
  let slots := Loop.whileN (fun slots => slots < limits.indexSize ∧ slots < 2 * count) (fun slots => slots * 2)
    limits.indexSize limits.minSlots
  if slots < limits.indexSize then slots else limits.indexSize

end Limits

/-- The endpoints of `struct tt_Context`. A mask of 0 says that the index is stale. -/
structure Node where
  endpoints : List Endpoint
  index : Nat → Option Endpoint
  mask : Nat
  entityIdBase : BitVec 32
  nextEntityId : BitVec 32

/-- `tt_DISCOVERY_ENTITY_ID`. -/
def discoveryEntityId : BitVec 32 := 0xFFFFFFFF#32

namespace Node

variable (limits : Limits)

/-! ## The index -/

/-- The probe of `rebuild_endpoint_index()` for a free slot. -/
def freeSlot (index : Nat → Option Endpoint) (mask : Nat) : (rounds : Nat) → (slot : Nat) → Nat
  | 0, slot => slot
  | rounds + 1, slot => if (index slot).isNone then slot else freeSlot index mask rounds ((slot + 1) &&& mask)

/-- An endpoint's round of `rebuild_endpoint_index()`. -/
def placeEndpoint (mask : Nat) (index : Nat → Option Endpoint) (endpoint : Endpoint) : Nat → Option Endpoint :=
  fun slot => if slot = freeSlot index mask (mask + 1) (endpoint.id &&& mask) then some endpoint else index slot

/-- `rebuild_endpoint_index()`. -/
def rebuildEndpointIndex (node : Node) : Node :=
  let mask := limits.endpointIndexSlots node.endpoints.length - 1
  let cleared : Nat → Option Endpoint := fun slot => if slot ≤ mask then none else node.index slot
  { node with index := node.endpoints.foldl (placeEndpoint mask) cleared, mask }

/-- `endpoint_index_ready()`. -/
def endpointIndexReady (node : Node) : Node := if node.mask = 0 then node.rebuildEndpointIndex limits else node

/-! ## Changes -/

/-- `add_endpoint_to_node()` of an endpoint not in the list: `hasOwner` is false when no owner is given and there is no default node. -/
def addEndpoint (node : Node) (ref : Nat) (kind : UInt8) (id : Nat) (hasOwner : Bool) : Node :=
  if limits.maxEndpointCount ≤ node.endpoints.length ∨ (node.endpoints.any fun endpoint => endpoint.ref = ref) ∨
      hasOwner = false then node
  else
    let first := node.entityIdBase + node.nextEntityId
    let skips := first = discoveryEntityId
    { node with
      endpoints := node.endpoints ++ [⟨ref, kind, id, if skips then node.entityIdBase + (node.nextEntityId + 1) else first⟩]
      mask := 0
      nextEntityId := if skips then node.nextEntityId + 2 else node.nextEntityId + 1 }

/-- `remove_endpoint_from_node()`. -/
def removeEndpoint (node : Node) (ref : Nat) : Node :=
  if node.endpoints.any fun endpoint => endpoint.ref = ref then
    { node with endpoints := node.endpoints.eraseP fun endpoint => endpoint.ref = ref, mask := 0 }
  else node

/-- What a callback can do to the endpoints: create one, destroy one, or look one up. -/
inductive Change
  | add (ref : Nat) (kind : UInt8) (id : Nat) (hasOwner : Bool)
  | remove (ref : Nat)
  | look
  deriving DecidableEq, Repr

def change (node : Node) : Change → Node
  | .add ref kind id hasOwner => node.addEndpoint limits ref kind id hasOwner
  | .remove ref => node.removeEndpoint ref
  | .look => node.endpointIndexReady limits

def changes (node : Node) (list : List Change) : Node := list.foldl (change limits) node

/-- A context just created. -/
def start (entityIdBase : BitVec 32) : Node := ⟨[], fun _ => none, 0, entityIdBase, 0⟩

end Node

/-! ## As many slots as are wanted -/

theorem whileN_double {size : Nat} {wanted log fuel : Nat} :
    ∃ log', Loop.whileN (fun slots => slots < size ∧ slots < wanted) (fun slots => slots * 2) fuel (2 ^ log) = 2 ^ log' ∧
      log ≤ log' := by
  apply Loop.whileN_invariant (P := fun slots => ∃ log', slots = 2 ^ log' ∧ log ≤ log')
  · rintro slots - ⟨log', rfl, le⟩
    exact ⟨log' + 1, (Nat.pow_succ ..).symm, by omega⟩
  · exact ⟨log, rfl, Nat.le_refl _⟩

namespace Limits

variable (limits : Limits)

/-- A power of two, two at least, and more than the endpoints. -/
theorem endpointIndexSlots_spec {count : Nat} (fits : count ≤ limits.maxEndpointCount) :
    ∃ log, limits.endpointIndexSlots count = 2 ^ log ∧ 1 ≤ log ∧ log ≤ limits.indexSizeLog ∧ count < 2 ^ log := by
  unfold endpointIndexSlots
  obtain ⟨log, same, more⟩ := @whileN_double limits.indexSize (2 * count) limits.minSlotsLog limits.indexSize
  have exit := @Loop.whileN_exit Nat (fun slots => decide (slots < limits.indexSize ∧ slots < 2 * count))
    (fun slots => slots * 2) (fun slots => 0 < slots) (fun slots => limits.indexSize - slots)
    (by intro slots _ some_; omega)
    (by
      intro slots going some_
      rw [decide_eq_true_eq] at going
      omega)
    limits.indexSize limits.minSlots (Nat.two_pow_pos _) (Nat.sub_le _ _)
  change Loop.whileN _ _ _ (2 ^ limits.minSlotsLog) = _ at same
  unfold minSlots at exit ⊢
  rw [same] at exit ⊢
  dsimp only
  have two := limits.minSlots_two
  have room := limits.indexSize_lt
  by_cases below : 2 ^ log < limits.indexSize
  · rw [if_pos below]
    refine ⟨log, rfl, by omega, ?_, ?_⟩
    · exact (Nat.pow_lt_pow_iff_right (by decide)).mp below |>.le
    · rw [decide_eq_false_iff_not] at exit
      have := Nat.two_pow_pos log
      omega
  · rw [if_neg below]
    refine ⟨limits.indexSizeLog, rfl, two.trans limits.minSlots_le, Nat.le_refl _, ?_⟩
    omega

end Limits

namespace Node

variable {limits : Limits} {node : Node}

/-! ## The index holds the endpoints -/

theorem freeSlot_eq (index : Nat → Option Endpoint) (log rounds slot : Nat) :
    freeSlot index (2 ^ log - 1) rounds slot = Probing.seek index (2 ^ log) rounds slot := by
  induction rounds generalizing slot with
  | zero => rfl
  | succ rounds ih =>
    unfold freeSlot Probing.seek
    rw [Nat.and_two_pow_sub_one_eq_mod, ih]

theorem placeEndpoint_eq (log : Nat) :
    placeEndpoint (2 ^ log - 1) = Probing.place (2 ^ log) fun endpoint : Endpoint => endpoint.id := by
  funext index endpoint slot
  have some_ := Nat.two_pow_pos log
  have whole : 2 ^ log - 1 + 1 = 2 ^ log := by omega
  unfold placeEndpoint Probing.place
  rw [freeSlot_eq, whole, Nat.and_two_pow_sub_one_eq_mod]

/-- The index is up to date: a power of two of slots, more than there are endpoints, that hold them. -/
structure Indexed (limits : Limits) (node : Node) (log : Nat) : Prop where
  mask : node.mask = 2 ^ log - 1
  two : 1 ≤ log
  size : log ≤ limits.indexSizeLog
  room : node.endpoints.length < 2 ^ log
  holds : Probing.Holds (2 ^ log) (fun endpoint : Endpoint => endpoint.id) node.index node.endpoints

/-- No endpoint is registered twice, there are no more than the limit, and an index that is not stale is up to date. -/
structure Sound (limits : Limits) (node : Node) : Prop where
  distinct : (node.endpoints.map Endpoint.ref).Nodup
  fits : node.endpoints.length ≤ limits.maxEndpointCount
  indexed : node.mask ≠ 0 → ∃ log, Indexed limits node log

theorem Sound.nodup (sound : Sound limits node) : node.endpoints.Nodup := sound.distinct.of_map

theorem Sound.rebuild (sound : Sound limits node) : ∃ log, Indexed limits (node.rebuildEndpointIndex limits) log := by
  obtain ⟨log, slots, two, size, room⟩ := limits.endpointIndexSlots_spec sound.fits
  refine ⟨log, ?_, two, size, room, ?_⟩
  · unfold rebuildEndpointIndex
    rw [slots]
  · unfold rebuildEndpointIndex
    dsimp only
    rw [slots, placeEndpoint_eq]
    have some_ := Nat.two_pow_pos log
    have empty := @Probing.holds_empty Endpoint (2 ^ log) (fun endpoint => endpoint.id)
      (fun slot => if slot ≤ 2 ^ log - 1 then none else node.index slot)
      (fun slot within => if_pos (by omega))
    exact empty.placeAll (by rw [List.length_nil, Nat.zero_add]; exact room) sound.nodup

theorem Sound.ready (sound : Sound limits node) :
    Sound limits (node.endpointIndexReady limits) ∧ (node.endpointIndexReady limits).endpoints = node.endpoints ∧
      ∃ log, Indexed limits (node.endpointIndexReady limits) log := by
  unfold endpointIndexReady
  by_cases stale : node.mask = 0
  · rw [if_pos stale]
    exact ⟨⟨sound.distinct, sound.fits, fun _ => sound.rebuild⟩, rfl, sound.rebuild⟩
  · rw [if_neg stale]
    exact ⟨sound, rfl, sound.indexed stale⟩

theorem sound_start (entityIdBase : BitVec 32) : Sound limits (start entityIdBase) :=
  ⟨List.nodup_nil, Nat.zero_le _, fun ready => absurd rfl ready⟩

theorem Sound.change (sound : Sound limits node) (change : Change) : Sound limits (node.change limits change) := by
  cases change with
  | add ref kind id hasOwner =>
    unfold Node.change addEndpoint
    dsimp only
    split
    · exact sound
    · next allowed =>
      rw [not_or, not_or, not_le] at allowed
      obtain ⟨room, unknown, -⟩ := allowed
      refine ⟨?_, ?_, fun ready => absurd rfl ready⟩
      · rw [List.map_append, List.map_cons, List.map_nil]
        apply List.Nodup.append sound.distinct (List.nodup_singleton _)
        intro ref' old new
        rw [List.mem_singleton] at new
        obtain ⟨endpoint, mem, same⟩ := List.mem_map.mp old
        apply unknown
        rw [List.any_eq_true]
        exact ⟨endpoint, mem, decide_eq_true (same.trans new)⟩
      · rw [List.length_append, List.length_singleton]
        exact room
  | remove ref =>
    unfold Node.change removeEndpoint
    dsimp only
    split
    · refine ⟨?_, ?_, fun ready => absurd rfl ready⟩
      · exact sound.distinct.sublist (List.eraseP_sublist.map _)
      · exact List.length_eraseP_le.trans sound.fits
    · exact sound
  | look => exact sound.ready.1

theorem Sound.changes (sound : Sound limits node) (list : List Change) : Sound limits (node.changes limits list) := by
  induction list generalizing node with
  | nil => exact sound
  | cons first rest ih => exact ih (sound.change first)

/-- An endpoint that no change destroys stays. -/
theorem mem_change {endpoint : Endpoint} (mem : endpoint ∈ node.endpoints) {change : Change}
    (kept : change ≠ .remove endpoint.ref) : endpoint ∈ (node.change limits change).endpoints := by
  cases change with
  | add ref kind id hasOwner =>
    unfold Node.change addEndpoint
    dsimp only
    split
    · exact mem
    · exact List.mem_append_left _ mem
  | remove ref =>
    have differ : endpoint.ref ≠ ref := fun same => kept (same ▸ rfl)
    unfold Node.change removeEndpoint
    dsimp only
    split
    · exact (List.mem_eraseP_of_neg (by simpa using differ)).mpr mem
    · exact mem
  | look =>
    unfold Node.change endpointIndexReady
    dsimp only
    split
    · exact mem
    · exact mem

theorem mem_changes {endpoint : Endpoint} (mem : endpoint ∈ node.endpoints) {list : List Change}
    (kept : Change.remove endpoint.ref ∉ list) : endpoint ∈ (node.changes limits list).endpoints := by
  induction list generalizing node with
  | nil => exact mem
  | cons first rest ih =>
    rw [List.mem_cons, not_or] at kept
    exact ih (mem_change mem (Ne.symm kept.1)) kept.2

end Node

end Endpoints

end Tickle
