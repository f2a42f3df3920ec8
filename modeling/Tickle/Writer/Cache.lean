import Tickle.Loop
import Tickle.Writer.Record

/-! # The retained cache of a reliable Publisher

`struct tt_ReliableCache`: a ring of `depth` index entries over a byte arena. A retained record's
entry is found by its seq_no alone, in slot `(seq_no - slot_origin) % depth`; its bytes lie in the
arena at the entry's offset. Eviction drops whole samples, oldest first, by the count bound of the
ring or by the byte bound of the arena.
-/

namespace Tickle

open Serial Loop

/-- `struct tt_ReliableCacheIndex`. `len` 0 is a tombstone: a record evicted, or never cached. -/
structure CacheIndex where
  timestamp : Nat
  seqNo : SeqNo
  offset : Nat
  len : Nat
  retry : Nat
  resentAt : Nat
  deriving DecidableEq, Repr

/-- The arena, by the offsets at which records begin. -/
abbrev Arena := Nat → Option Record

/-- `memcpy` of a record to `offset`: what began in the bytes it takes is gone. -/
def Arena.write (arena : Arena) (offset : Nat) (record : Record) : Arena := fun o =>
  if o = offset then some record
  else (arena o).filter fun old => o + old.length ≤ offset || offset + record.length ≤ o

/-- `slotOrigin` 0 marks a cache that retains nothing. `evicted` is a history variable, the records
eviction has taken, newest first; no operation reads it. -/
structure ReliableCache where
  capacity : Nat
  depth : Nat
  index : Nat → CacheIndex
  arena : Arena
  arenaSize : Nat
  arenaLimit : Nat
  sampleDepth : Nat
  retainedSamples : Nat
  depthShortfalls : Nat
  oldestSeqNo : SeqNo
  slotOrigin : SeqNo
  newestSeqNo : SeqNo
  tail : Nat
  depthAssuredDatagrams : Nat
  depthAssuredLen : Nat
  evicted : List Record
  /-- `capacity` is a `uint16_t`. -/
  capacity_lt : capacity < 65536

namespace ReliableCache

/-- `tt_ReliableCache_init()`. -/
def init (capacity arenaSize : Nat) (h : capacity < 65536) : ReliableCache where
  capacity := capacity
  depth := capacity
  index := fun _ => ⟨0, 0, 0, 0, 0, 0⟩
  arena := fun _ => none
  arenaSize := arenaSize
  arenaLimit := 0
  sampleDepth := 0
  retainedSamples := 0
  depthShortfalls := 0
  oldestSeqNo := 0
  slotOrigin := 0
  newestSeqNo := 0
  tail := 0
  depthAssuredDatagrams := 0
  depthAssuredLen := 0
  evicted := []
  capacity_lt := h

/-- `reliable_cache_depth()`: the ring in use, or 0 when the cache is not set up. -/
def ringDepth (cache : ReliableCache) : Nat :=
  if cache.capacity = 0 ∨ cache.arenaSize = 0 then 0
  else if 0 < cache.depth ∧ cache.depth ≤ cache.capacity then cache.depth
  else cache.capacity

theorem ringDepth_lt (cache : ReliableCache) : cache.ringDepth < 65536 := by
  have := cache.capacity_lt
  unfold ringDepth
  split
  · omega
  · split <;> omega

/-- The position of `seqNo`'s entry in the index. -/
def slotIndex (cache : ReliableCache) (depth : Nat) (seqNo : SeqNo) : Nat :=
  steps cache.slotOrigin seqNo % depth

/-- `reliable_cache_slot()`. -/
def slot (cache : ReliableCache) (depth : Nat) (seqNo : SeqNo) : CacheIndex :=
  cache.index (cache.slotIndex depth seqNo)

/-- `reliable_cache_retains()`. -/
def retains (cache : ReliableCache) : Bool := cache.slotOrigin ≠ 0

/-- `reliable_cache_slot_live()`. -/
def slotLive (cache : ReliableCache) (depth : Nat) (seqNo : SeqNo) : Bool :=
  let entry := cache.slot depth seqNo
  entry.len ≠ 0 && entry.seqNo = seqNo

/-- The record's type read through the entry: is it a `FRAG_CONT`? -/
def entryContinues (cache : ReliableCache) (entry : CacheIndex) : Bool :=
  (cache.arena entry.offset).any Record.continues

/-- `reliable_cache_record_continues()`. -/
def recordContinues (cache : ReliableCache) (depth : Nat) (seqNo : SeqNo) : Bool :=
  if !cache.retains || seqDelta seqNo cache.oldestSeqNo < 0 ||
      seqDelta cache.newestSeqNo seqNo < 0 then false
  else cache.slotLive depth seqNo && cache.entryContinues (cache.slot depth seqNo)

/-- `reliable_cache_oldest_continues()`. -/
def oldestContinues (cache : ReliableCache) (depth : Nat) : Bool :=
  cache.retains && cache.slotLive depth cache.oldestSeqNo &&
    cache.entryContinues (cache.slot depth cache.oldestSeqNo)

/-- `reliable_cache_record_starts_sample()`. -/
def recordStartsSample (cache : ReliableCache) (entry : CacheIndex) : Bool :=
  entry.len ≠ 0 && !cache.entryContinues entry

/-- Nothing retained any more; `newestSeqNo` stays. -/
def emptied (cache : ReliableCache) : ReliableCache :=
  { cache with slotOrigin := 0, tail := 0, retainedSamples := 0 }

/-- `reliable_cache_drop_leading_tombstones()`. -/
def dropLeadingTombstones (cache : ReliableCache) (depth : Nat) : ReliableCache :=
  whileN (fun c => c.retains && !c.slotLive depth c.oldestSeqNo)
    (fun c => if c.oldestSeqNo = c.newestSeqNo then c.emptied
      else { c with oldestSeqNo := c.oldestSeqNo + 1 })
    (steps cache.oldestSeqNo cache.newestSeqNo + 1) cache

/-- The oldest entry made a tombstone, its record into the history. -/
def buryOldest (cache : ReliableCache) (depth : Nat) : ReliableCache :=
  let entry := cache.slot depth cache.oldestSeqNo
  if entry.seqNo = cache.oldestSeqNo then
    { cache with
      retainedSamples :=
        if cache.recordStartsSample entry && 0 < cache.retainedSamples then cache.retainedSamples - 1
        else cache.retainedSamples
      index := Function.update cache.index (cache.slotIndex depth cache.oldestSeqNo)
        { entry with len := 0 }
      evicted := (if entry.len = 0 then [] else (cache.arena entry.offset).toList) ++ cache.evicted }
  else cache

/-- `reliable_cache_evict_one()`. -/
def evictOne (cache : ReliableCache) (depth : Nat) : ReliableCache :=
  if !cache.retains then cache
  else if cache.oldestSeqNo = cache.newestSeqNo then (cache.buryOldest depth).emptied
  else
    dropLeadingTombstones { cache.buryOldest depth with oldestSeqNo := cache.oldestSeqNo + 1 } depth

/-- `reliable_cache_evict_oldest()`: every datagram of the oldest sample. -/
def evictOldest (cache : ReliableCache) (depth : Nat) : ReliableCache :=
  whileN (fun c => c.oldestContinues depth) (fun c => c.evictOne depth)
    (steps cache.oldestSeqNo cache.newestSeqNo + 1) (cache.evictOne depth)

/-- `reliable_cache_offset_in()`: where a record goes in an arena whose live records occupy
`[head, tail)`; `none` is `UINT32_MAX`, something has to be evicted first. -/
def offsetIn (arenaSize : Nat) (empty : Bool) (head tail length : Nat) : Option Nat :=
  if empty then some 0
  else if tail = head then none
  else if tail > head then
    if length ≤ arenaSize - tail then some tail
    else if length ≤ head then some 0 else none
  else if length ≤ head - tail then some tail else none

/-- `reliable_cache_write_offset()`. -/
def writeOffset (cache : ReliableCache) (depth length : Nat) : Option Nat :=
  let empty := !cache.retains
  let head := if empty then 0 else (cache.slot depth cache.oldestSeqNo).offset
  offsetIn cache.arenaSize empty head cache.tail length

/-- The walk of `reliable_cache_admits()` past tombstones: `retained` and `oldest`. -/
def admitsSkip (cache : ReliableCache) (depth : Nat) (oldest : SeqNo) : Bool × SeqNo :=
  whileN (fun s => s.1 && !cache.slotLive depth s.2)
    (fun s => if s.2 = cache.newestSeqNo then (false, s.2) else (true, s.2 + 1))
    (steps oldest cache.newestSeqNo + 1) (true, oldest)

/-- The loop of `reliable_cache_admits()`; a round evicts one record of the copied state. -/
def admitsWalk (cache : ReliableCache) (depth length : Nat) (ackedThrough : SeqNo) :
    Nat → Bool → SeqNo → Nat → Bool
  | 0, _, _, _ => false
  | fuel + 1, retained, oldest, tail =>
    if !retained then true
    else if (offsetIn cache.arenaSize false (cache.slot depth oldest).offset tail length).isSome then
      true
    else if seqDelta ackedThrough oldest < 0 then false
    else if oldest = cache.newestSeqNo then cache.admitsWalk depth length ackedThrough fuel false oldest 0
    else
      let next := cache.admitsSkip depth (oldest + 1)
      cache.admitsWalk depth length ackedThrough fuel next.1 next.2 (if next.1 then tail else 0)

/-- `reliable_cache_admits()`: can `length` bytes be cached without evicting a sample nobody has
acknowledged? -/
def admits (cache : ReliableCache) (depth length : Nat) (ackedThrough : SeqNo) : Bool :=
  if length > cache.arenaSize then true
  else if !cache.retains then true
  else cache.admitsWalk depth length ackedThrough
    (steps cache.oldestSeqNo cache.newestSeqNo + 2) true cache.oldestSeqNo cache.tail

/-- `reliable_cache_place_origin()`. -/
def placeOrigin (origin : SeqNo) (depth : Nat) (seqNo : SeqNo) : SeqNo :=
  let origin := if origin = 0 then 1 else origin
  let position := steps origin seqNo
  if position ≥ 0x80000000 then
    let moved := plus origin ((position - 0x40000000) / depth * depth)
    if moved = 0 then BitVec.ofNat 32 depth else moved
  else origin

/-- The count bound of `reliable_cache_reserve()`: room in the index for `seqNo`. -/
def reserveIndexRoom (cache : ReliableCache) (depth : Nat) (seqNo : SeqNo) : ReliableCache :=
  whileN (fun c => c.retains && (seqNo - c.oldestSeqNo + 1).toNat > depth)
    (fun c => c.evictOldest depth) (steps cache.oldestSeqNo cache.newestSeqNo + 1) cache

/-- The origin `reliable_cache_reserve()` divides `seqNo`'s position by. -/
def reserveOrigin (cache : ReliableCache) (depth : Nat) (seqNo : SeqNo) : SeqNo :=
  if cache.slotOrigin = 0 ∨ seqDelta seqNo cache.slotOrigin < 0 then
    placeOrigin cache.slotOrigin depth seqNo
  else cache.slotOrigin

/-- `seqNo`'s entry made a tombstone until its bytes land. -/
def reserveEntry (cache : ReliableCache) (depth : Nat) (seqNo : SeqNo) (now : Nat) : ReliableCache :=
  let origin := cache.reserveOrigin depth seqNo
  { cache with
    slotOrigin := if cache.retains then origin else cache.slotOrigin
    index := Function.update cache.index (steps origin seqNo % depth)
      { timestamp := now, seqNo := seqNo, offset := 0, len := 0, retry := 0, resentAt := 0 }
    newestSeqNo := seqNo }

/-- The byte bound of `reliable_cache_reserve()`: contiguous room for `footprint` bytes. -/
def reserveByteRoom (cache : ReliableCache) (depth footprint : Nat) : ReliableCache :=
  whileN (fun c => (c.writeOffset depth footprint).isNone) (fun c => c.evictOldest depth)
    (steps cache.oldestSeqNo cache.newestSeqNo + 1) cache

/-- The record's place taken: its entry, the tail, and the range of a cache that was empty. -/
def reservePlace (cache : ReliableCache) (position : Nat) (origin seqNo : SeqNo)
    (length offset : Nat) : ReliableCache :=
  { cache with
    index := Function.update cache.index position
      { cache.index position with offset := offset, len := length }
    tail := offset + roundup length
    oldestSeqNo := if cache.retains then cache.oldestSeqNo else seqNo
    slotOrigin := if cache.retains then cache.slotOrigin else origin }

/-- `reliable_cache_reserve()`: room for one record of `length` bytes under `seqNo`, and its offset;
`length` 0 asks for the tombstone outright. -/
def reserve (cache : ReliableCache) (seqNo : SeqNo) (length now : Nat) :
    ReliableCache × Option Nat :=
  let depth := cache.ringDepth
  if depth = 0 then (cache, none)
  else
    let roomy := cache.reserveIndexRoom depth seqNo
    let origin := roomy.reserveOrigin depth seqNo
    let entered := roomy.reserveEntry depth seqNo now
    if length = 0 ∨ roundup length > cache.arenaSize then
      (entered.dropLeadingTombstones depth, none)
    else
      let free := entered.reserveByteRoom depth (roundup length)
      match free.writeOffset depth (roundup length) with
      | none => (free, none)
      | some offset =>
        (free.reservePlace (steps origin seqNo % depth) origin seqNo length offset, some offset)

/-- `reliable_cache_admit_sample()`: KEEP_LAST's bound in samples. -/
def admitSample (cache : ReliableCache) : ReliableCache :=
  if cache.sampleDepth = 0 ∨ cache.depthAssuredDatagrams ≠ 0 then cache
  else
    let depth := cache.ringDepth
    whileN (fun c => depth ≠ 0 && c.retains && c.retainedSamples ≥ c.sampleDepth)
      (fun c => c.evictOldest depth) (steps cache.oldestSeqNo cache.newestSeqNo + 1) cache

/-- `reliable_cache_count_sample()`. -/
def countSample (cache : ReliableCache) (first : Option Nat) : ReliableCache :=
  if first.isSome then { cache with retainedSamples := cache.retainedSamples + 1 } else cache

/-- The caller's copy into the place `reserve` gave it. -/
def writeRecord (cache : ReliableCache) (place : Option Nat) (record : Record) : ReliableCache :=
  match place with
  | none => cache
  | some offset => { cache with arena := cache.arena.write offset record }

/-- `reserve` and the copy behind it. -/
def cacheRecord (cache : ReliableCache) (seqNo : SeqNo) (length now : Nat) (record : Record) :
    ReliableCache × Option Nat :=
  let reserved := cache.reserve seqNo length now
  (reserved.1.writeRecord reserved.2 record, reserved.2)

/-- `cache_reliable_sample()`: the whole DATA under its first seq_no. -/
def cacheReliableSample (cache : ReliableCache) (seqNo : SeqNo) (cdr : List UInt8) (now : Nat) :
    ReliableCache :=
  let cached := cache.admitSample.cacheRecord seqNo (recordLengthChecked cdr) now
    (.data seqNo (padCdr cdr))
  cached.1.countSample cached.2

/-- One round of `cache_sample_fragments()`. -/
def cacheFragment (node : Context) (seqNo : SeqNo) (cdr : List UInt8) (count now : Nat)
    (keep : Bool) (cache : ReliableCache) (index : Nat) : ReliableCache :=
  let length := fragHeaderLength index + node.fragPayloadLength index (sampleCdrLength cdr)
  let cached := cache.cacheRecord (plus seqNo index) (if keep then length else 0) now
    (fragRecord node seqNo cdr count index)
  if index = 0 then cached.1.countSample cached.2 else cached.1

/-- `cache_sample_fragments()`: one record per datagram, or tombstones for a sample that has more
fragments than the ring or more bytes than the arena. -/
def cacheSampleFragments (cache : ReliableCache) (node : Context) (cdr : List UInt8)
    (wholeLimit : Nat) (firstSeqNo : SeqNo) (count now : Nat) : ReliableCache :=
  if cache.ringDepth = 0 then cache
  else
    let keep := decide (count ≤ cache.ringDepth ∧
      sampleCacheFootprint node cdr wholeLimit ≤ cache.arenaSize)
    (List.range count).foldl (cacheFragment node firstSeqNo cdr count now keep) cache.admitSample

/-- The walk of `reliable_cache_keeps_depth()` past the oldest sample; `none` when nothing is left. -/
def keepsDepthSkip (cache : ReliableCache) (depth : Nat) : Nat → SeqNo → Option SeqNo
  | 0, _ => none
  | fuel + 1, oldest =>
    if oldest = cache.newestSeqNo then none
    else if cache.slotLive depth (oldest + 1) &&
        cache.recordStartsSample (cache.slot depth (oldest + 1)) then some (oldest + 1)
    else cache.keepsDepthSkip depth fuel (oldest + 1)

/-- `reliable_cache_keeps_depth()`: does caching `footprint` bytes keep the samples of the depth? -/
def keepsDepth (cache : ReliableCache) (footprint : Nat) : Bool :=
  if cache.sampleDepth = 0 then true
  else if footprint > cache.arenaSize then false
  else
    let depth := cache.ringDepth
    let left :=
      if !cache.retains then none
      else if cache.retainedSamples ≥ cache.sampleDepth then
        cache.keepsDepthSkip depth (steps cache.oldestSeqNo cache.newestSeqNo + 1) cache.oldestSeqNo
      else some cache.oldestSeqNo
    match left with
    | none => true
    | some oldest =>
      (offsetIn cache.arenaSize false (cache.slot depth oldest).offset cache.tail footprint).isSome

/-- One round of `tt_ReliableCache_grow()`'s repacking: the new arena, the index and the offset. -/
def growStep (cache : ReliableCache) (depth : Nat)
    (packed : Arena × (Nat → CacheIndex) × Nat) (seqNo : SeqNo) :
    Arena × (Nat → CacheIndex) × Nat :=
  let position := cache.slotIndex depth seqNo
  let entry := packed.2.1 position
  if entry.len = 0 ∨ entry.seqNo ≠ seqNo then packed
  else
    (fun o => if o = packed.2.2 then cache.arena entry.offset else packed.1 o,
      Function.update packed.2.1 position { entry with offset := packed.2.2 },
      packed.2.2 + entry.len)

/-- `tt_ReliableCache_grow()`: the live records repacked in sequence order into a larger arena; `none`
when the size is refused. -/
def grow (cache : ReliableCache) (newArenaSize : Nat) : Option ReliableCache :=
  if newArenaSize < cache.arenaSize then none
  else if cache.arenaLimit ≠ 0 ∧ newArenaSize > cache.arenaLimit then none
  else
    let depth := cache.ringDepth
    if depth = 0 then some { cache with arenaSize := newArenaSize, arena := fun _ => none }
    else
      let positions := if cache.retains then
        (List.range (steps cache.oldestSeqNo cache.newestSeqNo + 1)).map (plus cache.oldestSeqNo)
        else []
      let packed := positions.foldl (cache.growStep depth) (fun _ => none, cache.index, 0)
      let grown := { cache with
        arena := packed.1, index := packed.2.1, arenaSize := newArenaSize, tail := packed.2.2 }
      some (if packed.2.2 = 0 then { grown with slotOrigin := 0, retainedSamples := 0 } else grown)

end ReliableCache

end Tickle
