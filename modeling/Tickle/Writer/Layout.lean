import Tickle.Writer.Publisher

/-! # The storage a Publisher is laid out with

`publisher_layout_of()` and `publisher_assure_depth()`: how many index slots and arena bytes a profile and a
type take, and whether the two keep the depth without counting. The build's limits come before any link is
known, so they are not the context's: `control_max` may be smaller once the links are.
-/

namespace Tickle

/-- `tt_CONTROL_MAX_LENGTH` and `tt_MAX_SAMPLE_LENGTH`. -/
structure Build where
  controlMaxLength : Nat
  maxSampleLength : Nat
  deriving DecidableEq, Repr

/-- `struct tt_TypeSupport`, its bound on the encoded size: 0 for a type that has none. -/
structure TypeSupport where
  maxEncodedSize : Nat
  maxEncodedSizeEstimated : Bool
  deriving DecidableEq, Repr

/-- `struct tt_QosProfile` as resolved for a Publisher, what its storage depends on. -/
structure QosProfile where
  reliable : Bool
  transientLocal : Bool
  keepAll : Bool
  depth : Nat
  bytes : Nat
  /-- `qos_resolve_history()` refuses more. -/
  depth_le : depth ≤ 65535

namespace Build

/-- `tt_sample_datagrams()`, for what is not a large sample. -/
def sampleDatagrams (build : Build) (cdrLen : Nat) : Nat :=
  let framing := headerLength + 4
  let padded := roundup cdrLen
  if framing + 16 + padded ≤ build.controlMaxLength then 1
  else
    let first := build.controlMaxLength - framing - 17
    let cont := build.controlMaxLength - framing - 10
    1 + (padded - first + cont - 1) / cont

/-- `tt_sample_cache_bytes()`. -/
def sampleCacheBytes (build : Build) (cdrLen : Nat) : Nat :=
  let datagrams := build.sampleDatagrams cdrLen
  if datagrams = 1 then roundup (dataFraming + cdrLen)
  else roundup cdrLen + datagrams * (fragHeaderLength 1 + 3) + 7

/-- `qos_type_max_cdr()`. -/
def qosTypeMaxCdr (build : Build) (type : TypeSupport) : Nat :=
  if type.maxEncodedSize ≠ 0 ∧ type.maxEncodedSize < build.maxSampleLength then type.maxEncodedSize
  else build.maxSampleLength

end Build

/-- `struct publisher_layout`, without the bytes of storage it adds up to. -/
structure PublisherLayout where
  cached : Bool
  record : Nat
  ring : Nat
  arena : Nat
  depthKept : Nat
  deriving DecidableEq, Repr

/-- What a `uint16_t` holds of `n`, or all it can. -/
def capped16 (n : Nat) : Nat := if n < 65535 then n else 65535

theorem capped16_le (n : Nat) : capped16 n ≤ 65535 := by
  unfold capped16
  split
  · omega
  · omega

/-- `publisher_layout_of()`. -/
def publisherLayoutOf (build : Build) (type : TypeSupport) (actual : QosProfile) : PublisherLayout :=
  if !(actual.reliable || actual.transientLocal) then ⟨false, 0, 0, 0, actual.depth⟩
  else
    let maxCdr := build.qosTypeMaxCdr type
    let record := build.sampleCacheBytes maxCdr
    let full := (actual.depth + 1) * record
    let asked := if full < actual.bytes then full else actual.bytes
    let arena := if asked > record then asked else record
    let slots := actual.depth * build.sampleDatagrams maxCdr
    let continuation := build.controlMaxLength - (headerLength + 4 + 10)
    let fillable := 2 * (actual.depth + 1) + arena / continuation
    let ring := capped16 (if slots < fillable then slots else fillable)
    if type.maxEncodedSize = 0 ∨ type.maxEncodedSizeEstimated then ⟨true, record, ring, arena, actual.depth⟩
    else
      let fit := arena / record
      let kept := if fit > 1 then fit - 1 else 1
      ⟨true, record, ring, arena, if kept < actual.depth then kept else actual.depth⟩

/-- The headers and padding of a sample's `datagrams` fragment records. -/
def fragmentOverhead (datagrams : Nat) : Nat :=
  fragHeaderLength 0 + (datagrams - 1) * fragHeaderLength 1 + 3 * datagrams

/-- The longest encoded sample of `datagrams` records that take at most `room` arena bytes. -/
def assuredLongest (datagrams room : Nat) : Nat :=
  let longest :=
    if datagrams > 1 then
      if room + dataFraming > fragmentOverhead datagrams then room + dataFraming - fragmentOverhead datagrams else 0
    else room
  longest / 4 * 4

/-- `publisher_assure_depth()`: `depth_assured_datagrams` and `depth_assured_len`. -/
def publisherAssureDepth (build : Build) (type : TypeSupport) (layout : PublisherLayout) (sampleDepth : Nat) :
    Nat × Nat :=
  if sampleDepth = 0 ∨ type.maxEncodedSize = 0 ∨ type.maxEncodedSizeEstimated ∨ layout.depthKept < sampleDepth then
    (0, 0)
  else
    let datagrams := build.sampleDatagrams (build.qosTypeMaxCdr type)
    if layout.ring ≠ sampleDepth * datagrams then (0, 0)
    else
      let longest := assuredLongest datagrams (layout.arena / (sampleDepth + 1))
      if longest = 0 then (0, 0)
      else (datagrams % 65536, if longest < 2 ^ 32 - 1 then longest else 2 ^ 32 - 1)

theorem publisherLayoutOf_ring (build : Build) (type : TypeSupport) (actual : QosProfile) :
    (publisherLayoutOf build type actual).ring ≤ 65535 := by
  unfold publisherLayoutOf
  split
  · exact Nat.zero_le _
  · simp only
    split
    · exact capped16_le _
    · exact capped16_le _

/-- `node_create_publisher_qos_locked()`: the options of a Publisher created from a profile. -/
def publisherOptions (build : Build) (type : TypeSupport) (actual : QosProfile) (lifespanDuration peers claimsLimit : Nat) :
    PublisherOptions :=
  let layout := publisherLayoutOf build type actual
  let assured := publisherAssureDepth build type layout (if actual.keepAll then 0 else actual.depth % 65536)
  { reliable := actual.reliable
    historyKeepAll := actual.keepAll
    historyDepth := actual.depth
    lifespanDuration := lifespanDuration
    capacity := layout.ring
    arenaSize := layout.arena
    arenaLimit := layout.arena
    assuredDatagrams := if layout.cached then assured.1 else 0
    assuredLen := if layout.cached then assured.2 else 0
    peers := peers
    claimsLimit := claimsLimit
    capacity_lt := Nat.lt_succ_of_le (publisherLayoutOf_ring build type actual) }

/-- How a Publisher comes to be: from a profile, or with a cache the caller set up, which assures nothing. -/
inductive PublisherOptions.Created : PublisherOptions → Prop
  | profile (build : Build) (type : TypeSupport) (actual : QosProfile) (lifespanDuration peers claimsLimit : Nat) :
      Created (publisherOptions build type actual lifespanDuration peers claimsLimit)
  | byHand (opts : PublisherOptions) : opts.assuredDatagrams = 0 → Created opts

/-- What the assurance says of the ring and the arena. -/
structure Assures (opts : PublisherOptions) : Prop where
  keepLast : opts.historyKeepAll = false
  depth : 0 < opts.historyDepth % 65536
  ring : opts.capacity = opts.historyDepth % 65536 * opts.assuredDatagrams
  len : opts.assuredLen ≤ assuredLongest opts.assuredDatagrams (opts.arenaSize / (opts.historyDepth % 65536 + 1))

theorem assuredLongest_zero (datagrams : Nat) : assuredLongest datagrams 0 = 0 := by
  have first : fragHeaderLength 0 = 21 := rfl
  unfold assuredLongest fragmentOverhead
  simp only
  split
  · rw [if_neg (by rw [first, dataFraming]; omega)]
  · rfl

theorem publisherAssureDepth_assures {build : Build} {type : TypeSupport} {layout : PublisherLayout} {sampleDepth : Nat}
    (ring_le : layout.ring ≤ 65535) (on : (publisherAssureDepth build type layout sampleDepth).1 ≠ 0) :
    0 < sampleDepth ∧ layout.ring = sampleDepth * (publisherAssureDepth build type layout sampleDepth).1 ∧
      (publisherAssureDepth build type layout sampleDepth).2 ≤
        assuredLongest (publisherAssureDepth build type layout sampleDepth).1 (layout.arena / (sampleDepth + 1)) ∧
      0 < layout.arena := by
  unfold publisherAssureDepth at on ⊢
  split at on
  · exact absurd rfl on
  next eligible =>
  rw [if_neg eligible]
  simp only at on ⊢
  split at on
  · exact absurd rfl on
  next uncapped =>
  rw [if_neg uncapped]
  split at on
  · exact absurd rfl on
  next some_ =>
  rw [if_neg some_]
  have pos : 0 < sampleDepth := by omega
  have ring : layout.ring = sampleDepth * build.sampleDatagrams (build.qosTypeMaxCdr type) := not_not.mp uncapped
  have small : build.sampleDatagrams (build.qosTypeMaxCdr type) < 65536 := by
    have := Nat.le_mul_of_pos_left (build.sampleDatagrams (build.qosTypeMaxCdr type)) pos
    omega
  simp only [Nat.mod_eq_of_lt small]
  refine ⟨pos, ring, ?_, ?_⟩
  · split
    · exact Nat.le_refl _
    · omega
  · by_contra none_
    apply some_
    rw [Nat.eq_zero_of_not_pos none_, Nat.zero_div, assuredLongest_zero]

theorem PublisherOptions.Created.assures {opts : PublisherOptions} (h : opts.Created) (on : opts.assuredDatagrams ≠ 0) :
    Assures opts ∧ 0 < opts.arenaSize := by
  cases h with
  | byHand _ off => exact absurd off on
  | profile build type actual lifespanDuration peers claimsLimit =>
    simp only [publisherOptions] at on ⊢
    cases cached : (publisherLayoutOf build type actual).cached with
    | false => rw [cached] at on; simp at on
    | true =>
      rw [cached, if_pos rfl] at on
      cases all : actual.keepAll with
      | true =>
        rw [all] at on
        simp [publisherAssureDepth] at on
      | false =>
        rw [all] at on
        simp only [Bool.false_eq_true, if_false] at on
        obtain ⟨pos, ring, len, arena⟩ := publisherAssureDepth_assures (publisherLayoutOf_ring build type actual) on
        exact ⟨⟨rfl, pos, ring, len⟩, arena⟩

end Tickle
