import Tickle.Run
import Tickle.Probing

/-! # The discovery table and its index

The entities other contexts announce are kept in a table, and a build with a large one finds them through an open-addressed index of
slot numbers. Nothing is deleted from the index: where a key leaves the table, the index is built again.
-/

namespace Tickle

namespace DiscoveryTable

open Probing

/-- What the table is built with: `tt_MAX_DISCOVERED_ENTITIES` and `tt_DISCOVERY_INDEX_SIZE`, a table large enough to have an index and
the assert on the two. -/
structure Sizes where
  maxDiscoveredEntities : Nat
  indexSizeLog : Nat
  indexed : 64 < maxDiscoveredEntities
  twice : 2 * maxDiscoveredEntities ≤ 2 ^ indexSizeLog
  narrow : maxDiscoveredEntities < 65535

/-- `tt_DISCOVERY_INDEX_SIZE`. -/
def Sizes.indexSize (sizes : Sizes) : Nat := 2 ^ sizes.indexSizeLog

/-- `struct tt_DiscoveredEntity`, its key and what a slot is chosen by. -/
structure Entity where
  contextId : UInt8
  endpointId : BitVec 32
  entityId : BitVec 32
  kind : UInt8
  alive : Bool
  deriving DecidableEq, Repr

/-- `tt_CONTEXT_ID_INVALID`: the context id of an empty slot. -/
def contextIdInvalid : UInt8 := 0

/-- `struct tt_Discovery`. An index entry is a slot number plus one, and 0 where there is none. -/
structure Discovery where
  entities : Nat → Entity
  index : Nat → Nat
  freeCursor : Nat

/-- `struct discovery_key`: which of the entities of an endpoint is wanted. -/
structure Key where
  matchEntity : Bool
  entityId : BitVec 32
  matchKind : Bool
  kind : UInt8
  deriving DecidableEq, Repr

namespace Discovery

variable (sizes : Sizes)

/-- `discovery_hash()`. -/
def discoveryHash (contextId : UInt8) (endpointId : BitVec 32) : Nat :=
  let spread := endpointId ^^^ (BitVec.ofNat 32 contextId.toNat * 0x9E3779B1#32)
  let mixed := (spread ^^^ (spread >>> 16)) * 0x85EBCA6B#32
  (mixed ^^^ (mixed >>> 13)).toNat &&& (sizes.indexSize - 1)

/-! ## Lookups -/

/-- What `discovery_probe()` compares of an entity. -/
def isWanted (contextId : UInt8) (endpointId : BitVec 32) (key : Key) (entity : Entity) : Bool :=
  entity.contextId = contextId ∧ entity.endpointId = endpointId ∧ (key.matchEntity = false ∨ entity.entityId = key.entityId) ∧
    (key.matchKind = false ∨ entity.kind = key.kind)

/-- The loop of `discovery_probe()`. -/
def probeFrom (discovery : Discovery) (contextId : UInt8) (endpointId : BitVec 32) (key : Key) :
    (rounds : Nat) → (position : Nat) → Option Nat
  | 0, _ => none
  | rounds + 1, position =>
    let entry := discovery.index position
    if entry = 0 then none
    else if isWanted contextId endpointId key (discovery.entities (entry - 1)) then some (entry - 1)
    else probeFrom discovery contextId endpointId key rounds ((position + 1) &&& (sizes.indexSize - 1))

/-- `discovery_probe()`: a slot, or none for -1. -/
def discoveryProbe (discovery : Discovery) (contextId : UInt8) (endpointId : BitVec 32) (key : Key) : Option Nat :=
  discovery.probeFrom sizes contextId endpointId key sizes.indexSize (discoveryHash sizes contextId endpointId)

/-- `discovery_entity_slot_of()`. -/
def discoveryEntitySlotOf (discovery : Discovery) (contextId : UInt8) (endpointId entityId : BitVec 32) : Option Nat :=
  discovery.discoveryProbe sizes contextId endpointId ⟨true, entityId, false, 0⟩

/-- The scan that `tt_Discovery_find_entity()` makes in a build without an index: the first slot with the key. -/
def scan (discovery : Discovery) (contextId : UInt8) (endpointId entityId : BitVec 32) : Option Nat :=
  (List.range sizes.maxDiscoveredEntities).find? fun slot =>
    (discovery.entities slot).contextId = contextId ∧ (discovery.entities slot).endpointId = endpointId ∧
      (discovery.entities slot).entityId = entityId

/-! ## Changes -/

/-- The loop of `discovery_index_add()`: a full index stays as it is. -/
def addFrom (index : Nat → Nat) (slot : Nat) : (rounds : Nat) → (position : Nat) → Nat → Nat
  | 0, _ => index
  | rounds + 1, position =>
    if index position = 0 then Function.update index position (slot + 1)
    else addFrom index slot rounds ((position + 1) &&& (sizes.indexSize - 1))

/-- `discovery_index_add()`. -/
def discoveryIndexAdd (discovery : Discovery) (slot : Nat) : Discovery :=
  let entity := discovery.entities slot
  { discovery with
    index := addFrom sizes discovery.index slot sizes.indexSize (discoveryHash sizes entity.contextId entity.endpointId) }

/-- `tt_Discovery_reindex()`. -/
def reindex (discovery : Discovery) : Discovery :=
  let indexed := (List.range sizes.maxDiscoveredEntities).foldl
    (fun discovery slot =>
      if (discovery.entities slot).contextId ≠ contextIdInvalid then discovery.discoveryIndexAdd sizes slot else discovery)
    { discovery with index := fun _ => 0 }
  { indexed with freeCursor := 0 }

/-- The first empty slot from the cursor on. -/
def emptySlot (discovery : Discovery) : Option Nat :=
  ((List.range sizes.maxDiscoveredEntities).map fun step => (discovery.freeCursor + step) % sizes.maxDiscoveredEntities).find?
    fun slot => (discovery.entities slot).contextId = contextIdInvalid

/-- The first tombstoned slot. -/
def tombstonedSlot (discovery : Discovery) : Option Nat :=
  (List.range sizes.maxDiscoveredEntities).find? fun slot => (discovery.entities slot).alive = false

/-- A slot's entity, as `upsert_discovered_entity()` writes it. -/
def write (discovery : Discovery) (slot : Nat) (entity : Entity) : Discovery :=
  { discovery with entities := Function.update discovery.entities slot entity }

/-- `upsert_discovered_entity()` with `discovery_free_slot()`: the entity goes to its slot, to an empty one, or to a tombstoned one,
whose key leaves the index; a full table drops it. -/
def upsertDiscoveredEntity (discovery : Discovery) (contextId : UInt8) (endpointId entityId : BitVec 32) (kind : UInt8) :
    Discovery :=
  let entity : Entity := ⟨contextId, endpointId, entityId, kind, true⟩
  match discovery.discoveryEntitySlotOf sizes contextId endpointId entityId with
  | some slot => discovery.write slot entity
  | none =>
    match discovery.emptySlot sizes with
    | some slot =>
      ({ discovery with freeCursor := (slot + 1) % sizes.maxDiscoveredEntities }.write slot entity).discoveryIndexAdd sizes slot
    | none =>
      match discovery.tombstonedSlot sizes with
      | some slot => (discovery.write slot entity).reindex sizes
      | none => discovery

/-- `forget_discovered_entities_from_source()`. -/
def forgetDiscoveredEntitiesFromSource (discovery : Discovery) (contextId : UInt8) : Discovery :=
  { discovery with
    entities := fun slot =>
      if (discovery.entities slot).contextId = contextId then { discovery.entities slot with contextId := contextIdInvalid }
      else discovery.entities slot }.reindex sizes

/-- `tombstone_discovered_entities_from_source()`. -/
def tombstoneDiscoveredEntitiesFromSource (discovery : Discovery) (contextId : UInt8) : Discovery :=
  { discovery with
    entities := fun slot =>
      if (discovery.entities slot).contextId = contextId then { discovery.entities slot with alive := false }
      else discovery.entities slot }

/-- What happens to the table: an entity is announced, a context's are forgotten or tombstoned, one's lease lapses or it is asserted
again, or the index is built again. -/
inductive Event
  | upsert (contextId : UInt8) (endpointId entityId : BitVec 32) (kind : UInt8)
  | forget (contextId : UInt8)
  | tombstone (contextId : UInt8)
  | setAlive (slot : Nat) (alive : Bool)
  | reindex
  deriving DecidableEq, Repr

def step (discovery : Discovery) : Event → Discovery
  | .upsert contextId endpointId entityId kind => discovery.upsertDiscoveredEntity sizes contextId endpointId entityId kind
  | .forget contextId => discovery.forgetDiscoveredEntitiesFromSource sizes contextId
  | .tombstone contextId => discovery.tombstoneDiscoveredEntitiesFromSource contextId
  | .setAlive slot alive => discovery.write slot { discovery.entities slot with alive }
  | .reindex => discovery.reindex sizes

/-- A zeroed struct: an empty table. -/
def empty : Discovery := ⟨fun _ => ⟨0, 0, 0, 0, false⟩, fun _ => 0, 0⟩

/-! ## The index as a table of slots -/

/-- The slot an index entry names. -/
def slots (index : Nat → Nat) (position : Nat) : Option Nat := if index position = 0 then none else some (index position - 1)

theorem slots_none {index : Nat → Nat} {position : Nat} : slots index position = none ↔ index position = 0 := by
  unfold slots
  split <;> simp_all

theorem slots_some {index : Nat → Nat} {position slot : Nat} : slots index position = some slot ↔ index position = slot + 1 := by
  unfold slots
  split
  · simp_all
  · rw [Option.some.injEq]
    omega

/-- Where a walk for the entity of a slot starts. -/
def home (discovery : Discovery) (slot : Nat) : Nat :=
  discoveryHash sizes (discovery.entities slot).contextId (discovery.entities slot).endpointId

theorem next_position (position : Nat) : (position + 1) &&& (sizes.indexSize - 1) = (position + 1) % sizes.indexSize :=
  Nat.and_two_pow_sub_one_eq_mod _ _

theorem discoveryHash_mod (contextId : UInt8) (endpointId : BitVec 32) :
    discoveryHash sizes contextId endpointId % sizes.indexSize = discoveryHash sizes contextId endpointId := by
  unfold discoveryHash Sizes.indexSize
  dsimp only
  rw [Nat.and_two_pow_sub_one_eq_mod, Nat.mod_mod]

theorem indexSize_pos : 0 < sizes.indexSize := Nat.two_pow_pos _

theorem max_lt_indexSize : sizes.maxDiscoveredEntities < sizes.indexSize := by
  have := sizes.twice
  have := sizes.indexed
  unfold Sizes.indexSize
  omega

theorem probeFrom_eq (discovery : Discovery) (contextId : UInt8) (endpointId : BitVec 32) (key : Key) (rounds position : Nat) :
    discovery.probeFrom sizes contextId endpointId key rounds position =
      (probe (slots discovery.index) sizes.indexSize
        (fun slot => isWanted contextId endpointId key (discovery.entities slot)) rounds position).join := by
  induction rounds generalizing position with
  | zero => rfl
  | succ rounds ih =>
    unfold probeFrom
    dsimp only
    by_cases nothing : discovery.index position = 0
    · rw [if_pos nothing, probe_free (slots_none.mpr nothing)]
      rfl
    · have there : slots discovery.index position = some (discovery.index position - 1) := if_neg nothing
      rw [if_neg nothing]
      by_cases wanted : isWanted contextId endpointId key (discovery.entities (discovery.index position - 1)) = true
      · rw [if_pos wanted, probe_hit there wanted]
        rfl
      · rw [if_neg wanted, probe_next there (Bool.eq_false_iff.mpr wanted), next_position, ih]

theorem addFrom_eq (index : Nat → Nat) (slot rounds position : Nat) :
    slots (addFrom sizes index slot rounds position) = put (slots index) sizes.indexSize slot rounds position := by
  induction rounds generalizing position with
  | zero => rfl
  | succ rounds ih =>
    unfold addFrom put
    by_cases nothing : index position = 0
    · have free : (slots index position).isNone = true := by
        rw [slots_none.mpr nothing]
        rfl
      rw [if_pos nothing, if_pos free]
      funext here
      unfold slots
      rw [Function.update_apply, Function.update_apply]
      split
      · rw [if_neg (Nat.succ_ne_zero _), Nat.add_sub_cancel]
      · rfl
    · have taken : ¬ (slots index position).isNone = true := by
        rw [Option.isNone_iff_eq_none, slots_none]
        exact nothing
      rw [if_neg nothing, if_neg taken, next_position, ih]

theorem indexAdd_slots (discovery : Discovery) (slot : Nat) :
    slots (discovery.discoveryIndexAdd sizes slot).index =
      put (slots discovery.index) sizes.indexSize slot sizes.indexSize (discovery.home sizes slot % sizes.indexSize) := by
  unfold discoveryIndexAdd home
  dsimp only
  rw [addFrom_eq, discoveryHash_mod]

/-! ## Building the index again -/

/-- The slots that are not empty. -/
def liveSlots (discovery : Discovery) : List Nat :=
  (List.range sizes.maxDiscoveredEntities).filter fun slot => (discovery.entities slot).contextId ≠ contextIdInvalid

theorem mem_liveSlots {discovery : Discovery} {slot : Nat} :
    slot ∈ discovery.liveSlots sizes ↔
      slot < sizes.maxDiscoveredEntities ∧ (discovery.entities slot).contextId ≠ contextIdInvalid := by
  unfold liveSlots
  rw [List.mem_filter, List.mem_range, decide_eq_true_eq]

/-- The rounds of `tt_Discovery_reindex()`. -/
theorem indexAll_slots (list : List Nat) (discovery : Discovery) :
    let indexed := list.foldl
      (fun discovery slot =>
        if (discovery.entities slot).contextId ≠ contextIdInvalid then discovery.discoveryIndexAdd sizes slot else discovery)
      discovery
    indexed.entities = discovery.entities ∧
      slots indexed.index =
        (list.filter fun slot => (discovery.entities slot).contextId ≠ contextIdInvalid).foldl
          (fun built slot => put built sizes.indexSize slot sizes.indexSize (discovery.home sizes slot % sizes.indexSize))
          (slots discovery.index) := by
  induction list generalizing discovery with
  | nil => exact ⟨rfl, rfl⟩
  | cons slot rest ih =>
    dsimp only
    rw [List.foldl_cons]
    by_cases live : (discovery.entities slot).contextId ≠ contextIdInvalid
    · rw [if_pos live, List.filter_cons_of_pos (by simpa using live), List.foldl_cons, ← indexAdd_slots]
      exact ih (discovery.discoveryIndexAdd sizes slot)
    · rw [if_neg live, List.filter_cons_of_neg (by simpa using live)]
      exact ih discovery

theorem reindex_entities (discovery : Discovery) : (discovery.reindex sizes).entities = discovery.entities :=
  (indexAll_slots sizes (List.range sizes.maxDiscoveredEntities) { discovery with index := fun _ => 0 }).1

theorem reindex_holds (discovery : Discovery) :
    Holds sizes.indexSize (discovery.home sizes) (slots (discovery.reindex sizes).index) (discovery.liveSlots sizes) := by
  have built := (indexAll_slots sizes (List.range sizes.maxDiscoveredEntities) { discovery with index := fun _ => 0 }).2
  have nothing : Holds sizes.indexSize (discovery.home sizes) (slots fun _ => 0) [] := holds_empty fun slot _ => rfl
  have few : (discovery.liveSlots sizes).length ≤ sizes.maxDiscoveredEntities := by
    have shorter := List.length_filter_le (fun slot => decide ((discovery.entities slot).contextId ≠ contextIdInvalid))
      (List.range sizes.maxDiscoveredEntities)
    rw [List.length_range] at shorter
    exact shorter
  have fewer : ([] : List Nat).length + (discovery.liveSlots sizes).length < sizes.indexSize := by
    have := max_lt_indexSize sizes
    rw [List.length_nil]
    omega
  have distinct : ([] ++ discovery.liveSlots sizes).Nodup := List.nodup_range.filter _
  have all := nothing.placeAll fewer distinct
  rw [← nothing.putAll fewer distinct] at all
  unfold reindex
  dsimp only
  rw [built]
  exact all

/-! ## The invariant -/

variable {sizes} {discovery : Discovery}

def Entered (sizes : Sizes) (discovery : Discovery) (slot : Nat) : Prop :=
  ∃ position < sizes.indexSize, slots discovery.index position = some slot

/-- No two slots that are not empty have one key. -/
def Unique (sizes : Sizes) (discovery : Discovery) : Prop :=
  ∀ slot ∈ discovery.liveSlots sizes, ∀ slot' ∈ discovery.liveSlots sizes,
    (discovery.entities slot).contextId = (discovery.entities slot').contextId →
    (discovery.entities slot).endpointId = (discovery.entities slot').endpointId →
    (discovery.entities slot).entityId = (discovery.entities slot').entityId → slot = slot'

/-- The empty slots have not all been used since the index was built: an entry each for the others, and none for those ahead of the
cursor. -/
structure Fresh (sizes : Sizes) (discovery : Discovery) : Prop where
  once : ∀ position < sizes.indexSize, ∀ position' < sizes.indexSize, ∀ slot,
    slots discovery.index position = some slot → slots discovery.index position' = some slot → position = position'
  missing : ∀ slot < sizes.maxDiscoveredEntities, ¬ Entered sizes discovery slot ↔
    (discovery.entities slot).contextId = contextIdInvalid ∧ discovery.freeCursor ≤ slot

/-- An entity of context 0 leaves its slot empty, and yet has an entry: its slot is used again, and the index may fill with entries of
the same slots. By then every slot has one. -/
structure Sound (sizes : Sizes) (discovery : Discovery) : Prop where
  entries : ∀ position < sizes.indexSize, ∀ slot, slots discovery.index position = some slot → slot < sizes.maxDiscoveredEntities
  cursor : discovery.freeCursor < sizes.maxDiscoveredEntities
  reached : ∀ slot ∈ discovery.liveSlots sizes, Reached sizes.indexSize (discovery.home sizes) (slots discovery.index) slot
  unique : Unique sizes discovery
  filled : (∀ slot < sizes.maxDiscoveredEntities, Entered sizes discovery slot) ∨ Fresh sizes discovery

theorem sound_reindex (unique : Unique sizes discovery) : Sound sizes (discovery.reindex sizes) := by
  have same := reindex_entities sizes discovery
  have holds := reindex_holds sizes discovery
  have homes : (discovery.reindex sizes).home sizes = discovery.home sizes := by
    funext slot
    unfold home
    rw [same]
  have live : (discovery.reindex sizes).liveSlots sizes = discovery.liveSlots sizes := by
    unfold liveSlots
    rw [same]
  constructor
  · intro position within slot there
    exact ((mem_liveSlots sizes).mp (holds.mem position within slot there)).1
  · exact Nat.zero_lt_of_lt sizes.indexed
  · intro slot mem
    rw [live] at mem
    rw [homes]
    exact holds.reached mem
  · unfold Unique at unique ⊢
    rw [live, same]
    exact unique
  · refine .inr ⟨holds.once, ?_⟩
    intro slot within
    rw [same]
    have entered : Entered sizes (discovery.reindex sizes) slot ↔ slot ∈ discovery.liveSlots sizes :=
      ⟨fun ⟨position, near, there⟩ => holds.mem position near slot there, fun mem => holds.there slot mem⟩
    rw [entered, mem_liveSlots, not_and, not_ne_iff]
    exact ⟨fun empty => ⟨empty within, Nat.zero_le _⟩, fun both _ => both.1⟩

theorem sound_empty : Sound sizes empty := by
  have nothing : ∀ slot, ¬ Entered sizes empty slot := by
    rintro slot ⟨position, -, there⟩
    exact absurd there (by simp [slots, empty])
  have nobody : ∀ slot, slot ∉ empty.liveSlots sizes := fun slot mem => ((mem_liveSlots sizes).mp mem).2 rfl
  constructor
  · intro position _ slot there
    exact absurd there (by simp [slots, empty])
  · exact Nat.zero_lt_of_lt sizes.indexed
  · exact fun slot mem => absurd mem (nobody slot)
  · exact fun slot mem => absurd mem (nobody slot)
  · refine .inr ⟨?_, fun slot _ => ⟨fun _ => ⟨rfl, Nat.zero_le _⟩, fun _ => nothing slot⟩⟩
    intro position _ _ _ slot there
    exact absurd there (by simp [slots, empty])

/-- An index that is fresh has room: it has an entry for a slot at most. -/
theorem Sound.room (sound : Sound sizes discovery) (fresh : Fresh sizes discovery) :
    ∃ position < sizes.indexSize, slots discovery.index position = none := by
  by_contra full
  push Not at full
  have named : ∀ position ∈ Finset.range sizes.indexSize,
      discovery.index position - 1 ∈ Finset.range sizes.maxDiscoveredEntities := by
    intro position within
    rw [Finset.mem_range] at within ⊢
    apply sound.entries position within
    exact if_neg (slots_none.not.mp (full position within))
  have injective : Set.InjOn (fun position => discovery.index position - 1) (Finset.range sizes.indexSize) := by
    intro position within position' within' same
    rw [Finset.coe_range, Set.mem_Iio] at within within'
    have there : slots discovery.index position = some (discovery.index position - 1) :=
      if_neg (slots_none.not.mp (full position within))
    have there' : slots discovery.index position' = some (discovery.index position' - 1) :=
      if_neg (slots_none.not.mp (full position' within'))
    have named_ : discovery.index position - 1 = discovery.index position' - 1 := same
    rw [named_] at there
    exact fresh.once position within position' within' _ there there'
  have few := Finset.card_le_card_of_injOn _ named injective
  rw [Finset.card_range, Finset.card_range] at few
  have := max_lt_indexSize sizes
  omega

/-! ## Lookups find what the scan finds -/

theorem isWanted_entity {contextId : UInt8} {endpointId entityId : BitVec 32} {entity : Entity} :
    isWanted contextId endpointId ⟨true, entityId, false, 0⟩ entity = true ↔
      entity.contextId = contextId ∧ entity.endpointId = endpointId ∧ entity.entityId = entityId := by
  simp [isWanted]

theorem entitySlotOf_eq (contextId : UInt8) (endpointId entityId : BitVec 32) :
    discovery.discoveryEntitySlotOf sizes contextId endpointId entityId =
      (probe (slots discovery.index) sizes.indexSize
        (fun slot => isWanted contextId endpointId ⟨true, entityId, false, 0⟩ (discovery.entities slot)) sizes.indexSize
        (discoveryHash sizes contextId endpointId % sizes.indexSize)).join := by
  unfold discoveryEntitySlotOf discoveryProbe
  rw [probeFrom_eq, discoveryHash_mod]

/-- A slot found has the key. -/
theorem entitySlotOf_some {contextId : UInt8} {endpointId entityId : BitVec 32} {slot : Nat}
    (found : discovery.discoveryEntitySlotOf sizes contextId endpointId entityId = some slot) :
    ((discovery.entities slot).contextId = contextId ∧ (discovery.entities slot).endpointId = endpointId ∧
      (discovery.entities slot).entityId = entityId) ∧ Entered sizes discovery slot := by
  rw [entitySlotOf_eq, Option.join_eq_some_iff] at found
  obtain ⟨wanted, entered⟩ := probe_found (indexSize_pos sizes) (Nat.mod_lt _ (indexSize_pos sizes)) found
  exact ⟨isWanted_entity.mp wanted, entered⟩

theorem Sound.entitySlotOf (sound : Sound sizes discovery) {contextId : UInt8} (valid : contextId ≠ contextIdInvalid)
    (endpointId entityId : BitVec 32) :
    discovery.discoveryEntitySlotOf sizes contextId endpointId entityId = discovery.scan sizes contextId endpointId entityId := by
  rw [entitySlotOf_eq]
  cases scanned : discovery.scan sizes contextId endpointId entityId with
  | none =>
    unfold scan at scanned
    rw [List.find?_eq_none] at scanned
    apply probe_nothing (indexSize_pos sizes) _ (Nat.mod_lt _ (indexSize_pos sizes))
    intro position within slot there
    rw [Bool.eq_false_iff]
    intro wanted
    exact scanned slot (List.mem_range.mpr (sound.entries position within slot there))
      (decide_eq_true (isWanted_entity.mp wanted))
  | some slot =>
    unfold scan at scanned
    have within : slot < sizes.maxDiscoveredEntities := List.mem_range.mp (List.mem_of_find?_eq_some scanned)
    have has := List.find?_some scanned
    rw [decide_eq_true_eq] at has
    obtain ⟨context, endpoint, entity⟩ := has
    have live : slot ∈ discovery.liveSlots sizes := by
      rw [mem_liveSlots, context]
      exact ⟨within, valid⟩
    have homed : discoveryHash sizes contextId endpointId = discovery.home sizes slot := by
      unfold home
      rw [context, endpoint]
    rw [homed, (sound.reached slot live).probe_eq (isWanted_entity.mpr ⟨context, endpoint, entity⟩)]
    · rfl
    · intro position near other there wanted
      obtain ⟨context', endpoint', entity'⟩ := isWanted_entity.mp wanted
      have live' : other ∈ discovery.liveSlots sizes := by
        rw [mem_liveSlots, context']
        exact ⟨sound.entries position near other there, valid⟩
      exact sound.unique other live' slot live (context'.trans context.symm) (endpoint'.trans endpoint.symm)
        (entity'.trans entity.symm)

/-! ## What a change keeps -/

/-- What changes no key and no entry keeps everything. -/
theorem Sound.sameKeys (sound : Sound sizes discovery) {entities : Nat → Entity}
    (same : ∀ slot, (entities slot).contextId = (discovery.entities slot).contextId ∧
      (entities slot).endpointId = (discovery.entities slot).endpointId ∧
      (entities slot).entityId = (discovery.entities slot).entityId) :
    Sound sizes { discovery with entities } := by
  have homes : { discovery with entities }.home sizes = discovery.home sizes := by
    funext slot
    unfold home
    rw [(same slot).1, (same slot).2.1]
  have live : { discovery with entities }.liveSlots sizes = discovery.liveSlots sizes := by
    unfold liveSlots
    congr 1
    funext slot
    rw [(same slot).1]
  refine ⟨sound.entries, sound.cursor, ?_, ?_, ?_⟩
  · intro slot mem
    rw [live] at mem
    rw [homes]
    exact sound.reached slot mem
  · intro slot mem slot' mem' context endpoint entity
    rw [live] at mem mem'
    dsimp only at context endpoint entity
    rw [(same slot).1, (same slot').1] at context
    rw [(same slot).2.1, (same slot').2.1] at endpoint
    rw [(same slot).2.2, (same slot').2.2] at entity
    exact sound.unique slot mem slot' mem' context endpoint entity
  · refine sound.filled.imp id fun fresh => ⟨fresh.once, ?_⟩
    intro slot within
    dsimp only
    rw [(same slot).1]
    exact fresh.missing slot within

/-- A new key in a slot leaves the keys unique. -/
theorem Unique.write (unique : Unique sizes discovery) {slot : Nat} {entity : Entity}
    (new : ∀ other ∈ discovery.liveSlots sizes, ¬ ((discovery.entities other).contextId = entity.contextId ∧
      (discovery.entities other).endpointId = entity.endpointId ∧ (discovery.entities other).entityId = entity.entityId)) :
    Unique sizes (discovery.write slot entity) := by
  have kept : ∀ other, other ≠ slot → (discovery.write slot entity).entities other = discovery.entities other :=
    fun other differ => Function.update_of_ne differ ..
  have written : (discovery.write slot entity).entities slot = entity := Function.update_self ..
  have old : ∀ other, other ≠ slot → other ∈ (discovery.write slot entity).liveSlots sizes →
      other ∈ discovery.liveSlots sizes := by
    intro other differ mem
    rw [mem_liveSlots, kept other differ] at mem
    exact (mem_liveSlots sizes).mpr mem
  intro first mem second mem' context endpoint entityId
  by_cases atFirst : first = slot
  · by_cases atSecond : second = slot
    · rw [atFirst, atSecond]
    · rw [atFirst, written, kept second atSecond] at context endpoint entityId
      exact absurd ⟨context.symm, endpoint.symm, entityId.symm⟩ (new second (old second atSecond mem'))
  · by_cases atSecond : second = slot
    · rw [atSecond, written, kept first atFirst] at context endpoint entityId
      exact absurd ⟨context, endpoint, entityId⟩ (new first (old first atFirst mem))
    · rw [kept first atFirst, kept second atSecond] at context endpoint entityId
      exact unique first (old first atFirst mem) second (old second atSecond mem') context endpoint entityId

theorem unique_forget (unique : Unique sizes discovery) (contextId : UInt8) :
    Unique sizes { discovery with
      entities := fun slot =>
        if (discovery.entities slot).contextId = contextId then { discovery.entities slot with contextId := contextIdInvalid }
        else discovery.entities slot } := by
  intro slot mem slot' mem' context endpoint entity
  rw [mem_liveSlots] at mem mem'
  dsimp only at mem mem' context endpoint entity
  split at mem
  · exact absurd rfl mem.2
  · next kept =>
    split at mem'
    · exact absurd rfl mem'.2
    · next kept' =>
      rw [if_neg kept, if_neg kept'] at context endpoint entity
      exact unique slot ((mem_liveSlots sizes).mpr mem) slot' ((mem_liveSlots sizes).mpr mem') context endpoint entity

/-- What the search for an empty slot finds: the first one from the cursor on. -/
theorem emptySlot_some {slot : Nat} (found : discovery.emptySlot sizes = some slot) :
    ∃ step < sizes.maxDiscoveredEntities, slot = (discovery.freeCursor + step) % sizes.maxDiscoveredEntities ∧
      (discovery.entities slot).contextId = contextIdInvalid ∧
      ∀ earlier < step, (discovery.entities ((discovery.freeCursor + earlier) % sizes.maxDiscoveredEntities)).contextId ≠
        contextIdInvalid := by
  unfold emptySlot at found
  rw [List.find?_map, Option.map_eq_some_iff] at found
  obtain ⟨step, first, rfl⟩ := found
  rw [List.find?_range_eq_some] at first
  obtain ⟨empty, within, before⟩ := first
  refine ⟨step, List.mem_range.mp within, rfl, by simpa using empty, ?_⟩
  intro earlier near
  simpa using before earlier near

/-- The table with a new entity in an empty slot. -/
def added (sizes : Sizes) (discovery : Discovery) (slot : Nat) (entity : Entity) : Discovery :=
  ({ discovery with freeCursor := (slot + 1) % sizes.maxDiscoveredEntities }.write slot entity).discoveryIndexAdd sizes slot

theorem added_slots (slot : Nat) (entity : Entity) :
    slots (discovery.added sizes slot entity).index = put (slots discovery.index) sizes.indexSize slot sizes.indexSize
      ((discovery.added sizes slot entity).home sizes slot % sizes.indexSize) :=
  indexAdd_slots sizes _ slot

/-- While an empty slot has no entry, the search finds such a one. -/
theorem Fresh.takes (fresh : Fresh sizes discovery) {slot missed : Nat} (found : discovery.emptySlot sizes = some slot)
    (within : missed < sizes.maxDiscoveredEntities) (without : ¬ Entered sizes discovery missed) :
    discovery.freeCursor ≤ slot ∧ slot ≤ missed ∧ ¬ Entered sizes discovery slot ∧
      ∀ other, discovery.freeCursor ≤ other → other < slot → (discovery.entities other).contextId ≠ contextIdInvalid := by
  obtain ⟨step, short, rfl, empty, before⟩ := emptySlot_some found
  obtain ⟨emptyMissed, ahead_⟩ := (fresh.missing missed within).mp without
  have near : step ≤ missed - discovery.freeCursor := by
    by_contra far
    have passed := before (missed - discovery.freeCursor) (by omega)
    rw [Nat.add_sub_cancel' ahead_, Nat.mod_eq_of_lt within] at passed
    exact passed emptyMissed
  have small : (discovery.freeCursor + step) % sizes.maxDiscoveredEntities = discovery.freeCursor + step :=
    Nat.mod_eq_of_lt (by omega)
  rw [small] at empty ⊢
  refine ⟨Nat.le_add_right _ _, by omega, ?_, ?_⟩
  · exact (fresh.missing _ (by omega)).mpr ⟨empty, Nat.le_add_right _ _⟩
  · intro other from_ before_
    have passed := before (other - discovery.freeCursor) (by omega)
    rwa [Nat.add_sub_cancel' from_, Nat.mod_eq_of_lt (by omega)] at passed

theorem added_kept {slot other : Nat} {entity : Entity} (differ : other ≠ slot) :
    (discovery.added sizes slot entity).entities other = discovery.entities other := Function.update_of_ne differ ..

theorem Entered.added {slot other : Nat} {entity : Entity} (entered : Entered sizes discovery other) :
    Entered sizes (discovery.added sizes slot entity) other := by
  obtain ⟨position, within, there⟩ := entered
  refine ⟨position, within, ?_⟩
  rw [added_slots]
  exact put_kept there

/-- A slot used for the first time gets an entry, the last of them with every slot. -/
theorem Sound.filled_added (sound : Sound sizes discovery) {slot : Nat} (found : discovery.emptySlot sizes = some slot)
    (entity : Entity) :
    (∀ other < sizes.maxDiscoveredEntities, Entered sizes (discovery.added sizes slot entity) other) ∨
      Fresh sizes (discovery.added sizes slot entity) := by
  by_cases all : ∀ other < sizes.maxDiscoveredEntities, Entered sizes discovery other
  · exact .inl fun other within => (all other within).added
  · push Not at all
    obtain ⟨missed, within, without⟩ := all
    have fresh := sound.filled.resolve_left fun all => without (all missed within)
    obtain ⟨from_, near, unused, before⟩ := fresh.takes found within without
    obtain ⟨position, inside, free⟩ := sound.room fresh
    obtain ⟨d, short, none_, taken⟩ := exists_free inside free ((discovery.added sizes slot entity).home sizes slot)
    have walked := @put_eq Nat sizes.indexSize (slots discovery.index) slot sizes.indexSize
      ((discovery.added sizes slot entity).home sizes slot) 0 d (fun i _ => taken i) none_ (Nat.zero_le _) (by omega)
    rw [Nat.add_zero, ← added_slots] at walked
    obtain ⟨place_, placeDef⟩ : ∃ place_, place_ = ((discovery.added sizes slot entity).home sizes slot + d) % sizes.indexSize :=
      ⟨_, rfl⟩
    rw [← placeDef] at walked none_
    have insidePlace : place_ < sizes.indexSize := placeDef ▸ Nat.mod_lt _ (indexSize_pos sizes)
    have entered : ∀ other, Entered sizes (discovery.added sizes slot entity) other ↔
        Entered sizes discovery other ∨ other = slot := by
      intro other
      constructor
      · rintro ⟨position', within', there⟩
        rw [added_slots] at there
        exact (put_new there).imp (fun old => ⟨position', within', old⟩) id
      · rintro (old | rfl)
        · exact old.added
        · exact ⟨place_, insidePlace, by rw [walked, Function.update_self]⟩
    have missing : ∀ other < sizes.maxDiscoveredEntities, ¬ Entered sizes (discovery.added sizes slot entity) other ↔
        ((discovery.added sizes slot entity).entities other).contextId = contextIdInvalid ∧ slot + 1 ≤ other := by
      intro other withinOther
      rw [entered, not_or, fresh.missing other withinOther]
      constructor
      · rintro ⟨⟨empty, ahead_⟩, differ⟩
        have notBefore : ¬ other < slot := fun earlier => before other ahead_ earlier empty
        exact ⟨by rw [added_kept differ]; exact empty, by omega⟩
      · rintro ⟨empty, ahead_⟩
        have differ : other ≠ slot := by omega
        rw [added_kept differ] at empty
        exact ⟨⟨empty, by omega⟩, differ⟩
    by_cases last : slot + 1 = sizes.maxDiscoveredEntities
    · left
      intro other withinOther
      by_contra out
      have := ((missing other withinOther).mp out).2
      omega
    · right
      refine ⟨?_, ?_⟩
      · intro first inFirst second inSecond other there there'
        rw [walked] at there there'
        by_cases atFirst : first = place_
        · by_cases atSecond : second = place_
          · rw [atFirst, atSecond]
          · rw [atFirst, Function.update_self, Option.some.injEq] at there
            rw [Function.update_of_ne atSecond, ← there] at there'
            exact absurd ⟨second, inSecond, there'⟩ unused
        · rw [Function.update_of_ne atFirst] at there
          by_cases atSecond : second = place_
          · rw [atSecond, Function.update_self, Option.some.injEq] at there'
            rw [← there'] at there
            exact absurd ⟨first, inFirst, there⟩ unused
          · rw [Function.update_of_ne atSecond] at there'
            exact fresh.once first inFirst second inSecond other there there'
      · have cursor : (discovery.added sizes slot entity).freeCursor = slot + 1 := Nat.mod_eq_of_lt (by omega)
        rw [cursor]
        exact missing

theorem Sound.added (sound : Sound sizes discovery) {slot : Nat} (found : discovery.emptySlot sizes = some slot)
    {entity : Entity}
    (new : ∀ other ∈ discovery.liveSlots sizes, ¬ ((discovery.entities other).contextId = entity.contextId ∧
      (discovery.entities other).endpointId = entity.endpointId ∧ (discovery.entities other).entityId = entity.entityId)) :
    Sound sizes (discovery.added sizes slot entity) := by
  have some_ : 0 < sizes.maxDiscoveredEntities := Nat.zero_lt_of_lt sizes.indexed
  obtain ⟨step, -, place_, -, -⟩ := emptySlot_some found
  have within : slot < sizes.maxDiscoveredEntities := place_ ▸ Nat.mod_lt _ some_
  refine ⟨?_, Nat.mod_lt _ some_, ?_, sound.unique.write new, sound.filled_added found entity⟩
  · intro position inside other there
    rw [added_slots] at there
    rcases put_new there with old | rfl
    · exact sound.entries position inside other old
    · exact within
  · intro other mem
    rw [added_slots]
    by_cases here : other = slot
    · subst here
      apply reached_put (indexSize_pos sizes)
      rcases sound.filled with all | fresh
      · exact .inr (all other within)
      · exact .inl (sound.room fresh)
    · have live : other ∈ discovery.liveSlots sizes := by
        rw [mem_liveSlots, added_kept here] at mem
        exact (mem_liveSlots sizes).mpr mem
      have homes : (discovery.added sizes slot entity).home sizes other = discovery.home sizes other := by
        unfold home
        rw [added_kept here]
      obtain ⟨d, short, there, before⟩ := (sound.reached other live).grows
        fun position slot' at_ => @put_kept Nat sizes.indexSize _ slot sizes.indexSize
          ((discovery.added sizes slot entity).home sizes slot % sizes.indexSize) position slot' at_
      rw [← homes] at there before
      exact ⟨d, short, there, before⟩

theorem Sound.upsert (sound : Sound sizes discovery) (contextId : UInt8) (endpointId entityId : BitVec 32) (kind : UInt8) :
    Sound sizes (discovery.upsertDiscoveredEntity sizes contextId endpointId entityId kind) := by
  unfold upsertDiscoveredEntity
  dsimp only
  cases found : discovery.discoveryEntitySlotOf sizes contextId endpointId entityId with
  | some slot =>
    obtain ⟨⟨context, endpoint, entity⟩, -⟩ := entitySlotOf_some found
    apply sound.sameKeys
    intro other
    by_cases here : other = slot
    · subst here
      rw [Function.update_self]
      exact ⟨context.symm, endpoint.symm, entity.symm⟩
    · rw [Function.update_of_ne here]
      exact ⟨rfl, rfl, rfl⟩
  | none =>
    -- no slot that is not empty has the key: the scan, which finds what the lookup finds, would have come by it
    have new : ∀ other ∈ discovery.liveSlots sizes, ¬ ((discovery.entities other).contextId = contextId ∧
        (discovery.entities other).endpointId = endpointId ∧ (discovery.entities other).entityId = entityId) := by
      intro other mem same
      obtain ⟨within, live⟩ := (mem_liveSlots sizes).mp mem
      rw [same.1] at live
      rw [sound.entitySlotOf live] at found
      unfold scan at found
      rw [List.find?_eq_none] at found
      exact found other (List.mem_range.mpr within) (decide_eq_true same)
    dsimp only
    cases free : discovery.emptySlot sizes with
    | some slot => exact sound.added free new
    | none =>
      dsimp only
      cases discovery.tombstonedSlot sizes with
      | some slot => exact sound_reindex (sound.unique.write new)
      | none => exact sound

theorem Sound.step (sound : Sound sizes discovery) (event : Event) : Sound sizes (discovery.step sizes event) := by
  cases event with
  | upsert contextId endpointId entityId kind => exact sound.upsert contextId endpointId entityId kind
  | forget contextId => exact sound_reindex (unique_forget sound.unique contextId)
  | tombstone contextId =>
    apply sound.sameKeys
    intro slot
    split
    · exact ⟨rfl, rfl, rfl⟩
    · exact ⟨rfl, rfl, rfl⟩
  | setAlive slot alive =>
    apply sound.sameKeys
    intro other
    by_cases here : other = slot
    · subst here
      rw [Function.update_self]
      exact ⟨rfl, rfl, rfl⟩
    · rw [Function.update_of_ne here]
      exact ⟨rfl, rfl, rfl⟩
  | reindex => exact sound_reindex sound.unique

/-- After any changes a lookup of an entity of a context finds what a scan of the table would. -/
theorem lookup_finds_scanned (sizes : Sizes) (events : List Event) (contextId : UInt8) (valid : contextId ≠ contextIdInvalid)
    (endpointId entityId : BitVec 32) :
    (Run.after (step sizes) empty events).discoveryEntitySlotOf sizes contextId endpointId entityId =
      (Run.after (step sizes) empty events).scan sizes contextId endpointId entityId := by
  have sound : Sound sizes (Run.after (step sizes) empty events) :=
    Run.always (fun _ event sound => sound.step event) sound_empty events
  exact sound.entitySlotOf valid endpointId entityId

theorem smallSizes_indexed : 64 < 65 := by decide

theorem smallSizes_twice : 2 * 65 ≤ 2 ^ 9 := by decide

theorem smallSizes_narrow : 65 < 65535 := by decide

/-- The smallest table that has an index. -/
def smallSizes : Sizes := ⟨65, 9, smallSizes_indexed, smallSizes_twice, smallSizes_narrow⟩

/-- Two Publishers of a topic, and one of another that leaves. -/
theorem two_publishers_found :
    (Run.after (step smallSizes) empty
      [.upsert 9 5 3 33, .upsert 7 5 1 33, .upsert 7 5 2 33, .tombstone 7, .forget 9]).discoveryEntitySlotOf smallSizes 7 5 2 =
        (Run.after (step smallSizes) empty
          [.upsert 9 5 3 33, .upsert 7 5 1 33, .upsert 7 5 2 33, .tombstone 7, .forget 9]).scan smallSizes 7 5 2 :=
  lookup_finds_scanned smallSizes _ 7 (by decide) 5 2

/-- An empty slot has the context id 0: the scan takes it for an entity of that id, and the lookup does not, be the table empty or the
slot one that such an entity was written to before the index was built again. -/
theorem empty_slot_scanned :
    empty.scan smallSizes 0 0 0 = some 0 ∧ empty.discoveryEntitySlotOf smallSizes 0 0 0 = none ∧
      (Run.after (step smallSizes) empty [.upsert 0 5 1 33, .reindex]).scan smallSizes 0 5 1 = some 0 ∧
      (Run.after (step smallSizes) empty [.upsert 0 5 1 33, .reindex]).discoveryEntitySlotOf smallSizes 0 5 1 = none := by
  decide +kernel

end Discovery

end DiscoveryTable

end Tickle
