import Tickle.Discovery.Silence

/-! # The timing a discovery summary carries

A context's summary tells its peers its update interval and its miss threshold, by which they judge its silence: the interval as a
count of one of eight units, rounded up, the threshold as it is, and 0 for the default of each.
-/

namespace Tickle

/-! ## The options -/

/-- `tt_SECOND`, in nanoseconds. -/
def second : Nat := 10 ^ 9

/-- `tt_MILLISECOND`. -/
def millisecond : Nat := 10 ^ 6

/-- `tt_MICROSECOND`. -/
def microsecond : Nat := 10 ^ 3

/-- `tt_CONTEXT_UPDATE_INTERVAL`. -/
def contextUpdateInterval : Nat := second

/-- `tt_LIVELINESS_MISS_THRESHOLD`. -/
def livelinessMissThreshold : UInt8 := 3

/-- `tt_DISCOVERY_MAX_DURATION_NS`: one day. -/
def discoveryMaxDuration : Nat := 86400 * second

/-- `struct tt_DiscoveryOptions`. -/
structure DiscoveryOptions where
  cycle : Nat
  updateInterval : Nat
  txInterval : Nat
  maxLease : Nat
  requestRetry : Nat
  livelinessDefer : Nat
  schedFullWarnInterval : Nat
  leaseDivisor : UInt8
  requestAttempts : UInt8
  livelinessMaxDeferrals : UInt8
  missThreshold : UInt8
  deriving DecidableEq, Repr

namespace DiscoveryOptions

/-- `resolve_discovery_options()`. -/
def resolve (options : DiscoveryOptions) : DiscoveryOptions where
  cycle := if options.cycle = 0 then millisecond else options.cycle
  updateInterval := if options.updateInterval = 0 then contextUpdateInterval else options.updateInterval
  txInterval := if options.txInterval = 0 then millisecond else options.txInterval
  maxLease := if options.maxLease = 0 then 10 * second else options.maxLease
  requestRetry := if options.requestRetry = 0 then 10 * millisecond else options.requestRetry
  livelinessDefer := if options.livelinessDefer = 0 then millisecond else options.livelinessDefer
  schedFullWarnInterval := if options.schedFullWarnInterval = 0 then 5 * second else options.schedFullWarnInterval
  leaseDivisor := if options.leaseDivisor = 0 then 6 else options.leaseDivisor
  requestAttempts := if options.requestAttempts = 0 then 4 else options.requestAttempts
  livelinessMaxDeferrals := if options.livelinessMaxDeferrals = 0 then 4 else options.livelinessMaxDeferrals
  missThreshold := if options.missThreshold = 0 then livelinessMissThreshold else options.missThreshold

/-- The durations `validate_discovery_options()` goes through. -/
def durations (options : DiscoveryOptions) : List (String × Nat) :=
  [("discovery.cycle_ns", options.cycle), ("discovery.update_interval_ns", options.updateInterval),
    ("discovery.tx_interval_ns", options.txInterval), ("discovery.max_lease_ns", options.maxLease),
    ("discovery.request_retry_ns", options.requestRetry), ("discovery.liveliness_defer_ns", options.livelinessDefer),
    ("discovery.sched_full_warn_interval_ns", options.schedFullWarnInterval)]

/-- `validate_discovery_options()`, of resolved options: the option it rejects, and why. -/
def validate (options : DiscoveryOptions) : Option (String × String) :=
  match options.durations.find? fun duration => discoveryMaxDuration < duration.2 with
  | some duration => some (duration.1, "is longer than tt_DISCOVERY_MAX_DURATION_NS (one day)")
  | none =>
    if options.updateInterval < options.txInterval then
      some ("discovery.tx_interval_ns", "is longer than discovery.update_interval_ns")
    else none

/-- `discovery_update_interval_ns()`. -/
def discoveryUpdateInterval (options : DiscoveryOptions) : Nat :=
  if options.updateInterval ≠ 0 then options.updateInterval else contextUpdateInterval

/-- `discovery_miss_threshold()`. -/
def discoveryMissThreshold (options : DiscoveryOptions) : UInt8 :=
  if options.missThreshold ≠ 0 then options.missThreshold else livelinessMissThreshold

/-- `discovery_silence_ns()`. -/
def discoverySilence (options : DiscoveryOptions) : Nat :=
  discoverySilenceOf options.discoveryUpdateInterval options.discoveryMissThreshold.toNat

end DiscoveryOptions

/-! ## The code of an interval -/

/-- `tt_SUMMARY_INTERVAL_MANTISSA_BITS`. -/
def mantissaBits : Nat := 13

/-- `tt_SUMMARY_INTERVAL_MANTISSA_MAX`. -/
def mantissaMax : Nat := 2 ^ mantissaBits - 1

/-- `summary_interval_units`. -/
def summaryIntervalUnits : List Nat :=
  [microsecond, 10 * microsecond, 100 * microsecond, millisecond, 10 * millisecond, 100 * millisecond, second, 100 * second]

def summaryIntervalUnit (unit : Nat) : Nat := summaryIntervalUnits.getD unit 0

/-- The units of an interval, rounded up. -/
def summaryIntervalCount (interval unit : Nat) : Nat :=
  (interval + summaryIntervalUnit unit - 1) / summaryIntervalUnit unit

/-- `summary_interval_encode()`. -/
def summaryIntervalEncode (interval : Nat) : Nat :=
  if interval = contextUpdateInterval then 0
  else
    match (List.range 8).find? fun unit => summaryIntervalCount interval unit ≤ mantissaMax with
    | some unit => (unit <<< mantissaBits ||| summaryIntervalCount interval unit) % 2 ^ 16
    | none => 2 ^ 16 - 1

/-- `summary_interval_decode()`. -/
def summaryIntervalDecode (code : Nat) : Nat :=
  let count := code &&& mantissaMax
  if count = 0 then contextUpdateInterval
  else
    let interval := count * summaryIntervalUnit (code >>> mantissaBits)
    if interval < discoveryMaxDuration then interval else discoveryMaxDuration

/-! ## A summary -/

/-- The timing in `struct tt_HeartbeatHeader`. -/
structure SummaryTiming where
  intervalHigh : UInt8
  intervalLow : UInt8
  missThreshold : UInt8
  deriving DecidableEq, Repr

/-- `fill_summary()`, of the timing. -/
def fillSummary (options : DiscoveryOptions) : SummaryTiming :=
  let interval := summaryIntervalEncode options.discoveryUpdateInterval
  let miss := options.discoveryMissThreshold
  { intervalHigh := UInt8.ofNat (interval >>> 8)
    intervalLow := UInt8.ofNat interval
    missThreshold := if miss = livelinessMissThreshold then 0 else miss }

/-- `note_peer_timing()`: the silence the receiver allows the sender. -/
def notePeerTiming (summary : SummaryTiming) : Nat :=
  let code := summary.intervalHigh.toNat <<< 8 ||| summary.intervalLow.toNat
  discoverySilenceOf (summaryIntervalDecode code)
    (if summary.missThreshold ≠ 0 then summary.missThreshold else livelinessMissThreshold).toNat

/-! ## Rounding up -/

variable {interval other unit : Nat}

theorem summaryIntervalUnit_pos (known : unit < 8) : 0 < summaryIntervalUnit unit := by
  interval_cases unit <;> decide

theorem le_count_mul (known : unit < 8) :
    interval ≤ summaryIntervalCount interval unit * summaryIntervalUnit unit := by
  have some_ := summaryIntervalUnit_pos known
  have above := Nat.lt_mul_div_succ (interval + summaryIntervalUnit unit - 1) some_
  unfold summaryIntervalCount
  rw [Nat.mul_comm, Nat.add_mul] at above
  omega

theorem count_mul_lt (known : unit < 8) :
    summaryIntervalCount interval unit * summaryIntervalUnit unit < interval + summaryIntervalUnit unit := by
  have some_ := summaryIntervalUnit_pos known
  have below := Nat.div_mul_le_self (interval + summaryIntervalUnit unit - 1) (summaryIntervalUnit unit)
  unfold summaryIntervalCount
  omega

theorem count_mono (le : interval ≤ other) (unit : Nat) :
    summaryIntervalCount interval unit ≤ summaryIntervalCount other unit := by
  unfold summaryIntervalCount
  apply Nat.div_le_div_right
  omega

/-- The unit `summary_interval_encode()` takes: the smallest whose count fits. -/
structure Chosen (interval unit : Nat) : Prop where
  known : unit < 8
  fits : summaryIntervalCount interval unit ≤ mantissaMax
  least : ∀ smaller < unit, mantissaMax < summaryIntervalCount interval smaller

theorem exists_chosen (short : interval ≤ discoveryMaxDuration) :
    ∃ unit, (List.range 8).find? (fun unit => summaryIntervalCount interval unit ≤ mantissaMax) = some unit ∧
      Chosen interval unit := by
  have last : summaryIntervalCount interval 7 ≤ mantissaMax := by
    apply (count_mono short 7).trans
    decide
  cases found : (List.range 8).find? (fun unit => summaryIntervalCount interval unit ≤ mantissaMax) with
  | none =>
    rw [List.find?_eq_none] at found
    have none_ := found 7 (by decide)
    exact absurd (decide_eq_true last) none_
  | some unit =>
    rw [List.find?_range_eq_some] at found
    obtain ⟨fits, mem, least⟩ := found
    refine ⟨unit, rfl, List.mem_range.mp mem, of_decide_eq_true fits, ?_⟩
    intro smaller below
    simpa using least smaller below

/-! ## The code read back -/

/-- The code of an interval: its unit above its count. -/
theorem encode_eq_pack (short : interval ≤ discoveryMaxDuration) (own : interval ≠ contextUpdateInterval) :
    ∃ unit, Chosen interval unit ∧
      summaryIntervalEncode interval = unit * 2 ^ mantissaBits + summaryIntervalCount interval unit := by
  obtain ⟨unit, found, chosen⟩ := exists_chosen short
  refine ⟨unit, chosen, ?_⟩
  have known := chosen.known
  have fits := chosen.fits
  unfold mantissaMax mantissaBits at fits
  unfold summaryIntervalEncode
  rw [if_neg own, found]
  dsimp only
  unfold mantissaBits
  rw [← Nat.shiftLeft_add_eq_or_of_lt (by omega), Nat.shiftLeft_eq, Nat.mod_eq_of_lt (by omega)]

theorem unit_pack {count : Nat} (fits : count ≤ mantissaMax) : (unit * 2 ^ mantissaBits + count) >>> mantissaBits = unit := by
  unfold mantissaMax mantissaBits at *
  rw [Nat.shiftRight_eq_div_pow]
  omega

theorem count_pack {count : Nat} (fits : count ≤ mantissaMax) : (unit * 2 ^ mantissaBits + count) &&& mantissaMax = count := by
  unfold mantissaMax mantissaBits at *
  rw [Nat.and_two_pow_sub_one_eq_mod]
  omega

theorem encode_lt (short : interval ≤ discoveryMaxDuration) : summaryIntervalEncode interval < 2 ^ 16 := by
  by_cases own : interval = contextUpdateInterval
  · unfold summaryIntervalEncode
    rw [if_pos own]
    decide
  · obtain ⟨unit, chosen, code⟩ := encode_eq_pack short own
    have known := chosen.known
    have fits := chosen.fits
    rw [code]
    unfold mantissaMax mantissaBits at *
    omega

/-- The unit of a code. -/
def codeUnit (code : Nat) : Nat := summaryIntervalUnit (code >>> mantissaBits)

/-- What is read back: the default as it is, any other interval as its count of units, and never more than a day. -/
theorem decode_encode_own : summaryIntervalDecode (summaryIntervalEncode contextUpdateInterval) = contextUpdateInterval := by
  decide

theorem decode_encode (some_ : 0 < interval) (short : interval ≤ discoveryMaxDuration)
    (own : interval ≠ contextUpdateInterval) :
    ∃ unit, Chosen interval unit ∧ codeUnit (summaryIntervalEncode interval) = summaryIntervalUnit unit ∧
      summaryIntervalDecode (summaryIntervalEncode interval) =
        min (summaryIntervalCount interval unit * summaryIntervalUnit unit) discoveryMaxDuration := by
  obtain ⟨unit, chosen, code⟩ := encode_eq_pack short own
  have counted := @le_count_mul interval unit chosen.known
  have nonzero : summaryIntervalCount interval unit ≠ 0 := by
    intro zero
    rw [zero, Nat.zero_mul] at counted
    omega
  refine ⟨unit, chosen, ?_, ?_⟩
  · unfold codeUnit
    rw [code, unit_pack chosen.fits]
  · unfold summaryIntervalDecode
    rw [code, count_pack chosen.fits, unit_pack chosen.fits]
    dsimp only
    rw [if_neg nonzero]
    split
    next below => rw [min_eq_left below.le]
    next above => rw [min_eq_right (not_lt.mp above)]

theorem le_decode_encode (some_ : 0 < interval) (short : interval ≤ discoveryMaxDuration) :
    interval ≤ summaryIntervalDecode (summaryIntervalEncode interval) := by
  by_cases own : interval = contextUpdateInterval
  · rw [own, decode_encode_own]
  · obtain ⟨unit, chosen, -, back⟩ := decode_encode some_ short own
    rw [back]
    exact le_min (le_count_mul chosen.known) short

theorem decode_encode_lt (some_ : 0 < interval) (short : interval ≤ discoveryMaxDuration) :
    summaryIntervalDecode (summaryIntervalEncode interval) < interval + codeUnit (summaryIntervalEncode interval) := by
  by_cases own : interval = contextUpdateInterval
  · rw [own, decode_encode_own]
    decide
  · obtain ⟨unit, chosen, same, back⟩ := decode_encode some_ short own
    rw [back, same]
    exact (min_le_left _ _).trans_lt (count_mul_lt chosen.known)

/-- Below the default everything is rounded to a unit that divides it. -/
theorem count_mul_le_default (below : interval ≤ contextUpdateInterval) (chosen : Chosen interval unit) :
    summaryIntervalCount interval unit * summaryIntervalUnit unit ≤ contextUpdateInterval := by
  have small : unit ≤ 3 := by
    by_contra large
    have := chosen.least 3 (by omega)
    have count := count_mono below 3
    have exact_ : summaryIntervalCount contextUpdateInterval 3 ≤ mantissaMax := by decide
    omega
  have known := chosen.known
  have divides : summaryIntervalUnit unit ∣ contextUpdateInterval := by
    interval_cases unit <;> decide
  obtain ⟨whole, product⟩ := divides
  have some_ := summaryIntervalUnit_pos known
  have lt := @count_mul_lt interval unit known
  rw [product] at below ⊢
  rw [Nat.mul_comm]
  apply Nat.mul_le_mul_left
  by_contra above
  have more := Nat.mul_le_mul_left (summaryIntervalUnit unit) (Nat.succ_le_of_lt (not_le.mp above))
  rw [Nat.mul_succ, Nat.mul_comm _ (summaryIntervalCount interval unit)] at more
  omega

theorem decode_encode_mono (some_ : 0 < interval) (le : interval ≤ other) (short : other ≤ discoveryMaxDuration) :
    summaryIntervalDecode (summaryIntervalEncode interval) ≤ summaryIntervalDecode (summaryIntervalEncode other) := by
  have above := le_decode_encode (some_.trans_le le) short
  by_cases own : interval = contextUpdateInterval
  · rw [own, decode_encode_own]
    rw [own] at le
    exact le.trans above
  obtain ⟨unit, chosen, -, back⟩ := decode_encode some_ (le.trans short) own
  by_cases own' : other = contextUpdateInterval
  · rw [own', decode_encode_own, back]
    exact (min_le_left _ _).trans (count_mul_le_default (own' ▸ le) chosen)
  · obtain ⟨unit', chosen', -, back'⟩ := decode_encode (some_.trans_le le) short own'
    rcases lt_trichotomy unit unit' with less | same | more
    · -- the other interval did not fit the smaller unit
      have past := chosen'.least unit less
      have below := Nat.mul_le_mul_right (summaryIntervalUnit unit) (show summaryIntervalCount interval unit + 1 ≤
        summaryIntervalCount other unit from Nat.succ_le_of_lt (chosen.fits.trans_lt past))
      have high := @count_mul_lt other unit chosen.known
      rw [Nat.add_mul] at below
      rw [back]
      exact (min_le_left _ _).trans (le_trans (by omega) above)
    · rw [back, back', same]
      exact min_le_min_right _ (Nat.mul_le_mul_right _ (count_mono le unit'))
    · have past := chosen.least unit' more
      have count := count_mono le unit'
      have fits := chosen'.fits
      omega

/-! ## The silence a peer allows -/

theorem resolve_updateInterval_pos (options : DiscoveryOptions) : 0 < options.resolve.updateInterval := by
  unfold DiscoveryOptions.resolve
  dsimp only
  split
  · decide
  next set => exact Nat.pos_of_ne_zero set

theorem validate_updateInterval {options : DiscoveryOptions} (accepted : options.validate = none) :
    options.updateInterval ≤ discoveryMaxDuration := by
  unfold DiscoveryOptions.validate at accepted
  split at accepted
  · cases accepted
  next none_ =>
    rw [List.find?_eq_none] at none_
    have within := none_ ("discovery.update_interval_ns", options.updateInterval) (by simp [DiscoveryOptions.durations])
    simpa using within

/-- The two bytes of a code put together again. -/
theorem bytes_code {code : Nat} (lt : code < 2 ^ 16) :
    (UInt8.ofNat (code >>> 8)).toNat <<< 8 ||| (UInt8.ofNat code).toNat = code := by
  rw [UInt8.toNat_ofNat', UInt8.toNat_ofNat', ← Nat.shiftLeft_add_eq_or_of_lt (Nat.mod_lt _ (by decide)),
    Nat.shiftLeft_eq, Nat.shiftRight_eq_div_pow]
  omega

/-- The default threshold goes as 0 and is taken for 0. -/
theorem miss_back {miss : UInt8} (set : miss ≠ 0) :
    (if (if miss = livelinessMissThreshold then 0 else miss) ≠ 0 then (if miss = livelinessMissThreshold then 0 else miss)
      else livelinessMissThreshold) = miss := by
  by_cases own : miss = livelinessMissThreshold
  · rw [own]
    rfl
  · simp only [own, if_false, set, ne_eq, not_false_eq_true, if_true]

theorem discoveryMissThreshold_ne (options : DiscoveryOptions) : options.discoveryMissThreshold ≠ 0 := by
  unfold DiscoveryOptions.discoveryMissThreshold
  split
  next set => exact set
  · decide

theorem notePeerTiming_fillSummary {options : DiscoveryOptions}
    (short : options.discoveryUpdateInterval ≤ discoveryMaxDuration) :
    notePeerTiming (fillSummary options) =
      discoverySilenceOf (summaryIntervalDecode (summaryIntervalEncode options.discoveryUpdateInterval))
        options.discoveryMissThreshold.toNat := by
  unfold notePeerTiming fillSummary
  dsimp only
  rw [bytes_code (encode_lt short)]
  congr 2
  exact miss_back (discoveryMissThreshold_ne options)

theorem discoverySilenceOf_mono (le : interval ≤ other) (miss : Nat) :
    discoverySilenceOf interval miss ≤ discoverySilenceOf other miss := by
  unfold discoverySilenceOf
  exact Nat.div_le_div_right (Nat.mul_le_mul_left _ le)

/-- An interval read less than `step` too long makes the silence less than `miss + 1` steps too long. -/
theorem discoverySilenceOf_lt {step : Nat} (le : interval ≤ other) (lt : other < interval + step) (miss : Nat) :
    discoverySilenceOf other miss < discoverySilenceOf interval miss + (miss + 1) * step := by
  unfold discoverySilenceOf
  obtain ⟨less, rfl⟩ : ∃ less, step = less + 1 := ⟨step - 1, by omega⟩
  have products := Nat.mul_le_mul_left (miss * 2 + 1) (Nat.le_of_lt_succ (show other < interval + less + 1 by omega))
  have halves : (miss * 2 + 1) * less + less + 2 * (miss + 1) = 2 * ((miss + 1) * (less + 1)) := by ring
  rw [Nat.mul_add] at products
  omega

theorem resolved_updateInterval (options : DiscoveryOptions) :
    options.resolve.discoveryUpdateInterval = options.resolve.updateInterval := by
  unfold DiscoveryOptions.discoveryUpdateInterval
  exact if_pos (Nat.pos_iff_ne_zero.mp (resolve_updateInterval_pos options))

/-- The interval a peer reads from a summary is the sender's or longer, by less than a unit of the code it is sent as, and a longer one
is never read as a shorter one; so the silence the peer allows is never shorter than the sender's own, and longer by less than the
threshold and one more of those units. -/
theorem summary_never_understates (options : DiscoveryOptions) (accepted : options.resolve.validate = none) :
    (options.resolve.discoveryUpdateInterval ≤
        summaryIntervalDecode (summaryIntervalEncode options.resolve.discoveryUpdateInterval) ∧
      summaryIntervalDecode (summaryIntervalEncode options.resolve.discoveryUpdateInterval) <
        options.resolve.discoveryUpdateInterval + codeUnit (summaryIntervalEncode options.resolve.discoveryUpdateInterval)) ∧
    (∀ longer : DiscoveryOptions, longer.resolve.validate = none →
      options.resolve.discoveryUpdateInterval ≤ longer.resolve.discoveryUpdateInterval →
      summaryIntervalDecode (summaryIntervalEncode options.resolve.discoveryUpdateInterval) ≤
        summaryIntervalDecode (summaryIntervalEncode longer.resolve.discoveryUpdateInterval)) ∧
    options.resolve.discoverySilence ≤ notePeerTiming (fillSummary options.resolve) ∧
    notePeerTiming (fillSummary options.resolve) < options.resolve.discoverySilence +
      (options.resolve.discoveryMissThreshold.toNat + 1) *
        codeUnit (summaryIntervalEncode options.resolve.discoveryUpdateInterval) := by
  have same := resolved_updateInterval options
  have some_ : 0 < options.resolve.discoveryUpdateInterval := same ▸ resolve_updateInterval_pos options
  have short : options.resolve.discoveryUpdateInterval ≤ discoveryMaxDuration := same ▸ validate_updateInterval accepted
  have low := le_decode_encode some_ short
  have high := decode_encode_lt some_ short
  refine ⟨⟨low, high⟩, ?_, ?_, ?_⟩
  · intro longer accepted' le
    exact decode_encode_mono some_ le (resolved_updateInterval longer ▸ validate_updateInterval accepted')
  · rw [notePeerTiming_fillSummary short]
    exact discoverySilenceOf_mono low _
  · rw [notePeerTiming_fillSummary short]
    exact discoverySilenceOf_lt low high _

/-- An interval of 8.1915 ms is past the first unit: it goes as 820 of the second, and is read as 8.2 ms. -/
theorem summary_between_units :
    let options : DiscoveryOptions := ⟨0, 8191500, 0, 0, 0, 0, 0, 0, 0, 0, 5⟩
    options.resolve.validate = none ∧ options.resolve.discoverySilence ≤ notePeerTiming (fillSummary options.resolve) ∧
      options.resolve.discoverySilence = 45053250 ∧ notePeerTiming (fillSummary options.resolve) = 45100000 :=
  ⟨by decide, (summary_never_understates _ (by decide)).2.2.1, by decide, by decide⟩

end Tickle
