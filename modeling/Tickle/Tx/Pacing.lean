import Tickle.Run

/-! # Send pacing

A paced link's bucket is the time its sends so far finish at the pacing rate. Every datagram the context sends on the link is
counted into it; a large sample's units wait for it, and go as many at a time as it holds. What else the context sends does
not wait, and may leave the bucket emptier than any large send would.
-/

namespace Tickle

/-! ## The bucket -/

/-- `struct tt_Pacer`. -/
structure Pacer where
  untilNs : Nat
  burstNs : Nat
  nsPerByteQ16 : Nat
  framePayload : Nat
  deriving DecidableEq, Repr

namespace Pacer

/-- `pace_cost_ns()`. -/
def paceCostNs (pacer : Pacer) (len : Nat) : Nat :=
  let ipPayload := len + 8
  let frames := 1 + (ipPayload - 1) / pacer.framePayload
  let wire := ipPayload + frames * (20 + 38)
  wire * pacer.nsPerByteQ16 / 2 ^ 16

/-- `pace_backlog()`. -/
def paceBacklog (pacer : Pacer) (now : Nat) : Nat := pacer.untilNs - now

/-- `pace_charge()`, of the pacer of the destination's link. -/
def paceCharge (pacer : Pacer) (len now : Nat) : Pacer :=
  if pacer.nsPerByteQ16 = 0 then pacer
  else { pacer with untilNs := max pacer.untilNs now + pacer.paceCostNs len }

/-- `pace_charge_batch()`. -/
def paceChargeBatch (pacer : Pacer) (lens : List Nat) (now : Nat) : Pacer :=
  lens.foldl (fun pacer len => pacer.paceCharge len now) pacer

/-- `pace_units()`, of a destination over UDP: how many may go, and where none may the time one may. -/
def paceUnits (pacer : Pacer) (now len want : Nat) : Nat × Option Nat :=
  let cost := if pacer.nsPerByteQ16 ≠ 0 then pacer.paceCostNs len else 0
  if cost = 0 then (want, none)
  else
    let backlog := pacer.paceBacklog now
    if backlog + cost ≤ pacer.burstNs then (min ((pacer.burstNs - backlog) / cost) want, none)
    else if backlog = 0 then (1, none)
    else (0, some (now + (if cost > pacer.burstNs then backlog else backlog + cost - pacer.burstNs)))

end Pacer

/-! ## A large sample's units -/

/-- `FRAG_FRAMING_LENGTH`. -/
def fragFramingLength : Nat := 4 + 4

/-- `sizeof(struct tt_FragFirstLHeader)`. -/
def fragFirstLHeader : Nat := 18

/-- `sizeof(struct tt_FragContLHeader)`. -/
def fragContLHeader : Nat := 12

/-- `LARGE_FRAMING_MAX`. -/
def largeFramingMax : Nat := fragFramingLength + fragFirstLHeader

/-- A large sample as its send reads it, and `tt_CONTROL_MAX_LENGTH`, above a unit's framing. -/
structure LargeSend where
  controlMaxLength : Nat
  cdrLen : Nat
  framed : largeFramingMax < controlMaxLength

namespace LargeSend

/-- `LARGE_FIRST_PAYLOAD`. -/
def largeFirstPayload (send : LargeSend) : Nat := send.controlMaxLength - fragFramingLength - fragFirstLHeader

/-- `LARGE_CONT_PAYLOAD`. -/
def largeContPayload (send : LargeSend) : Nat := send.controlMaxLength - fragFramingLength - fragContLHeader

/-- `large_count_for()`. -/
def count (send : LargeSend) : Nat :=
  if send.cdrLen ≤ send.largeFirstPayload then 1
  else 1 + (send.cdrLen - send.largeFirstPayload + send.largeContPayload - 1) / send.largeContPayload

/-- `large_offset()`. -/
def largeOffset (send : LargeSend) (index : Nat) : Nat :=
  if index = 0 then 0 else send.largeFirstPayload + (index - 1) * send.largeContPayload

/-- `large_length()`. -/
def largeLength (send : LargeSend) (index : Nat) : Nat :=
  let full := if index = 0 then send.largeFirstPayload else send.largeContPayload
  if send.cdrLen - send.largeOffset index < full then send.cdrLen - send.largeOffset index else full

/-- The length of unit `index`'s datagram: its framing, 4 bytes of it saved by the single-submessage form, and its slice. -/
def unitLength (send : LargeSend) (index : Nat) : Nat :=
  fragFramingLength + (if index = 0 then fragFirstLHeader else fragContLHeader) - 4 + send.largeLength index

/-- `LARGE_BATCH`. -/
def largeBatch : Nat := 64

/-- What `large_send_mtu()` asks for, from unit `index` on: the bytes of a unit and how many; `alone` is a destination whose
frames go one a call. -/
def asks (send : LargeSend) (index : Nat) (alone : Bool) : Nat × Nat :=
  (largeFramingMax + send.largeLength index, min (send.count - index) (if alone then 1 else largeBatch))

end LargeSend

/-! ## Runs -/

/-- A unit granted and sent: its link, when it was counted and what it takes of the link. -/
structure Granted where
  link : Nat
  time : Nat
  cost : Nat
  deriving DecidableEq, Repr

/-- The links' buckets, the clock, and the units granted so far. -/
structure PacedContext where
  pacers : Nat → Pacer
  clock : Nat
  granted : List Granted

namespace PacedContext

inductive Event
  /-- Any other datagram of `len` bytes on the link. -/
  | other (link len now : Nat)
  /-- A round of `large_send_mtu()` from unit `index`: the bucket is asked at `asked`, and of what it grants the socket takes
  `taken` at most, counted at `sentAt`. -/
  | units (link : Nat) (send : LargeSend) (index : Nat) (alone : Bool) (asked sentAt taken : Nat)

def Event.link : Event → Nat
  | .other link _ _ => link
  | .units link .. => link

/-- The lengths of the units that go, where the send has not come to the end. -/
def unitsSent (pacer : Pacer) (send : LargeSend) (index : Nat) (alone : Bool) (asked taken : Nat) : List Nat :=
  let grant := pacer.paceUnits asked (send.asks index alone).1 (send.asks index alone).2
  if index < send.count then (List.range (min taken grant.1)).map fun k => send.unitLength (index + k) else []

def step (ctx : PacedContext) : Event → PacedContext
  | .other link len now =>
    { ctx with pacers := Function.update ctx.pacers link ((ctx.pacers link).paceCharge len now), clock := now }
  | .units link send index alone asked sentAt taken =>
    let pacer := ctx.pacers link
    let lens := unitsSent pacer send index alone asked taken
    { pacers := Function.update ctx.pacers link (pacer.paceChargeBatch lens sentAt)
      clock := sentAt
      granted := ctx.granted ++ lens.map fun len => ⟨link, sentAt, pacer.paceCostNs len⟩ }

/-- The clock does not go back. -/
def Timely (ctx : PacedContext) : Event → Prop
  | .other _ _ now => ctx.clock ≤ now
  | .units _ _ _ _ asked sentAt _ => ctx.clock ≤ asked ∧ asked ≤ sentAt

/-- The wire time of the units granted on the link and sent between `a` and `b`. -/
def wireTime (ctx : PacedContext) (link a b : Nat) : Nat :=
  ((ctx.granted.filter fun g => g.link = link && a ≤ g.time && g.time ≤ b).map Granted.cost).sum

end PacedContext

/-! ## A unit is no longer than asked for -/

namespace LargeSend

variable {send : LargeSend}

/-- Every unit but the last is full. -/
theorem largeLength_full {index : Nat} (more : index + 1 < send.count) :
    send.largeLength index = if index = 0 then send.largeFirstPayload else send.largeContPayload := by
  have framed := send.framed
  have positive : 0 < send.largeContPayload := by
    unfold largeContPayload
    unfold largeFramingMax fragFramingLength fragFirstLHeader at framed
    unfold fragFramingLength fragContLHeader
    omega
  unfold count at more
  split at more
  · omega
  next long =>
  unfold largeLength largeOffset
  dsimp only
  by_cases zero : index = 0
  · rw [if_pos zero, if_pos zero, if_neg]
    omega
  · rw [if_neg zero, if_neg zero, if_neg]
    obtain ⟨m, rfl⟩ := Nat.exists_eq_succ_of_ne_zero zero
    have reached : m.succ + 1 ≤ (send.cdrLen - send.largeFirstPayload + send.largeContPayload - 1) / send.largeContPayload := by
      omega
    have covered := (Nat.le_div_iff_mul_le positive).mp reached
    rw [Nat.succ_eq_add_one, Nat.add_mul, Nat.add_mul, Nat.one_mul] at covered
    rw [Nat.succ_sub_one]
    omega

/-- What is asked for covers each unit the call carries. -/
theorem unitLength_le {index k : Nat} (within : index + k < send.count) (alone : Bool) :
    send.unitLength (index + k) ≤ (send.asks index alone).1 := by
  have framed := send.framed
  have most : ∀ i, send.largeLength i ≤ if i = 0 then send.largeFirstPayload else send.largeContPayload := by
    intro i
    unfold largeLength
    dsimp only
    split <;> split <;> omega
  have later := most (index + k)
  unfold unitLength asks largeFramingMax
  unfold largeFramingMax at framed
  by_cases first : k = 0
  · subst first
    have : (if index + 0 = 0 then fragFirstLHeader else fragContLHeader) ≤ fragFirstLHeader := by
      split <;> decide
    dsimp only
    rw [Nat.add_zero] at *
    omega
  · have behind : ¬ index + k = 0 := by omega
    rw [if_neg behind] at later ⊢
    rw [largeLength_full (by omega : index + 1 < send.count)]
    unfold largeFirstPayload largeContPayload fragFramingLength fragFirstLHeader fragContLHeader at *
    dsimp only
    split <;> omega

end LargeSend

/-! ## Grants -/

namespace Pacer

variable {pacer : Pacer}

theorem paceCostNs_mono {len len' : Nat} (le : len ≤ len') : pacer.paceCostNs len ≤ pacer.paceCostNs len' := by
  have frames : (len + 8 - 1) / pacer.framePayload ≤ (len' + 8 - 1) / pacer.framePayload :=
    Nat.div_le_div_right (by omega)
  unfold paceCostNs
  dsimp only
  apply Nat.div_le_div_right
  apply Nat.mul_le_mul_right
  omega

@[simp] theorem paceCharge_paced (paced : pacer.nsPerByteQ16 ≠ 0) (len now : Nat) :
    pacer.paceCharge len now = { pacer with untilNs := max pacer.untilNs now + pacer.paceCostNs len } :=
  if_neg paced

/-- A batch counted: behind what is there, or from now, all of its datagrams. -/
theorem paceChargeBatch_untilNs (paced : pacer.nsPerByteQ16 ≠ 0) (lens : List Nat) (some_ : lens ≠ []) (now : Nat) :
    pacer.paceChargeBatch lens now =
      { pacer with untilNs := max pacer.untilNs now + (lens.map pacer.paceCostNs).sum } := by
  induction lens generalizing pacer with
  | nil => exact absurd rfl some_
  | cons len rest ih =>
    change (pacer.paceCharge len now).paceChargeBatch rest now = _
    rw [paceCharge_paced paced]
    cases rest with
    | nil => simp [paceChargeBatch]
    | cons next rest =>
      rw [ih (by exact paced) (List.cons_ne_nil _ _)]
      have same : ({ pacer with untilNs := max pacer.untilNs now + pacer.paceCostNs len } : Pacer).paceCostNs =
          pacer.paceCostNs := rfl
      simp only [same, List.map_cons, List.sum_cons, mk.injEq, and_true]
      omega

theorem sum_le_of_grant {cost : Nat} {costs : List Nat} (each : ∀ c ∈ costs, c ≤ cost) : costs.sum ≤ costs.length * cost :=
  List.sum_le_card_nsmul costs cost each

theorem paceUnits_le (pacer : Pacer) (now len want : Nat) : (pacer.paceUnits now len want).1 ≤ max want 1 := by
  unfold paceUnits
  dsimp only
  generalize (if pacer.nsPerByteQ16 ≠ 0 then pacer.paceCostNs len else 0) = cost
  split
  · exact le_max_left want 1
  · split
    · exact (Nat.min_le_right _ _).trans (le_max_left want 1)
    · split
      · exact le_max_right want 1
      · exact Nat.zero_le _

/-- What a grant leaves of the bucket: the units fit the burst, or take nothing, or are one from a full bucket. -/
theorem paceUnits_fits (paced : pacer.nsPerByteQ16 ≠ 0) {now len want : Nat} {costs : List Nat}
    (few : costs.length ≤ (pacer.paceUnits now len want).1) (each : ∀ c ∈ costs, c ≤ pacer.paceCostNs len) :
    costs.sum = 0 ∨ pacer.paceBacklog now + costs.sum ≤ pacer.burstNs ∨
      (pacer.paceBacklog now = 0 ∧ costs.length = 1) := by
  have total := sum_le_of_grant each
  unfold paceUnits at few
  simp only [paced, ne_eq, not_false_eq_true, if_true] at few
  split at few
  next free =>
    left
    rw [free, Nat.mul_zero] at total
    omega
  next costly =>
  split at few
  next room =>
    right; left
    have fit : costs.length ≤ (pacer.burstNs - pacer.paceBacklog now) / pacer.paceCostNs len := by
      dsimp only at few
      omega
    have covered := (Nat.le_div_iff_mul_le (Nat.pos_of_ne_zero costly)).mp fit
    omega
  next none_ =>
  split at few
  next full =>
    rcases Nat.eq_zero_or_pos costs.length with zero | positive
    · left
      rw [zero, Nat.zero_mul] at total
      omega
    · right; right
      exact ⟨full, by dsimp only at few; omega⟩
  next wait =>
    left
    have : costs.length = 0 := by dsimp only at few; omega
    rw [this, Nat.zero_mul] at total
    omega

/-- Asked again when it says, with nothing sent meanwhile, the bucket grants one at least. -/
theorem paceUnits_resume {now len want resume : Nat} (refused : (pacer.paceUnits now len want).2 = some resume)
    {want' : Nat} (wanted : 0 < want') : 0 < (pacer.paceUnits resume len want').1 := by
  unfold paceUnits at refused ⊢
  dsimp only at refused ⊢
  generalize (if pacer.nsPerByteQ16 ≠ 0 then pacer.paceCostNs len else 0) = cost at refused ⊢
  split at refused
  · cases refused
  next costly =>
  split at refused
  · cases refused
  next over_ =>
  split at refused
  · cases refused
  next waiting =>
  rw [if_neg costly]
  simp only [Option.some.injEq] at refused
  have positive : 0 < cost := Nat.pos_of_ne_zero costly
  unfold paceBacklog at *
  by_cases long : cost > pacer.burstNs
  · rw [if_pos long] at refused
    have empty : pacer.untilNs - resume = 0 := by omega
    rw [if_neg (by omega), if_pos empty]
    exact Nat.one_pos
  · rw [if_neg long] at refused
    rw [if_pos (by omega)]
    apply lt_min _ wanted
    exact Nat.div_pos (by omega) positive

end Pacer

/-! ## Whole runs -/

namespace PacedContext

variable {ctx : PacedContext} {link : Nat}

theorem unitsSent_cost (pacer : Pacer) {send : LargeSend} {index : Nat} {alone : Bool} {asked taken : Nat} :
    (unitsSent pacer send index alone asked taken).length ≤
        (pacer.paceUnits asked (send.asks index alone).1 (send.asks index alone).2).1 ∧
      ∀ c ∈ (unitsSent pacer send index alone asked taken).map pacer.paceCostNs,
        c ≤ pacer.paceCostNs (send.asks index alone).1 := by
  unfold unitsSent
  dsimp only
  split
  next more =>
    refine ⟨by simp, ?_⟩
    intro c hc
    simp only [List.mem_map, List.mem_range] at hc
    obtain ⟨len, ⟨k, lt, rfl⟩, rfl⟩ := hc
    apply Pacer.paceCostNs_mono
    apply LargeSend.unitLength_le
    have most := pacer.paceUnits_le asked (send.asks index alone).1 (send.asks index alone).2
    have want : (send.asks index alone).2 ≤ send.count - index := Nat.min_le_left _ _
    omega
  next => exact ⟨Nat.zero_le _, fun c hc => absurd hc List.not_mem_nil⟩

/-- A round of a large send leaves the backlog within the burst, or no larger than it was, or sent one unit from a full
bucket. -/
theorem units_backlog (paced : (ctx.pacers link).nsPerByteQ16 ≠ 0) {send : LargeSend}
    {index : Nat} {alone : Bool} {asked sentAt taken : Nat} (timely : asked ≤ sentAt) :
    ((ctx.step (.units link send index alone asked sentAt taken)).pacers link).paceBacklog sentAt ≤
        max (ctx.pacers link).burstNs ((ctx.pacers link).paceBacklog sentAt) ∨
      ((ctx.pacers link).paceBacklog asked = 0 ∧
        (unitsSent (ctx.pacers link) send index alone asked taken).length = 1) := by
  obtain ⟨few, each⟩ := @unitsSent_cost (ctx.pacers link) send index alone asked taken
  have fits := Pacer.paceUnits_fits paced (by simpa using few) each
  simp only [step, Function.update_self]
  generalize unitsSent (ctx.pacers link) send index alone asked taken = lens at fits ⊢
  by_cases none_ : lens = []
  · subst none_
    left
    exact le_max_right _ _
  · rw [Pacer.paceChargeBatch_untilNs paced lens none_]
    unfold Pacer.paceBacklog at *
    dsimp only
    rcases fits with free | within | ⟨full, one⟩
    · left
      rw [free]
      omega
    · left
      omega
    · right
      exact ⟨full, by simpa using one⟩

/-- The rate and the burst of a link stay; its bucket only fills with time. -/
theorem step_pacer (event : Event) :
    ((ctx.step event).pacers link).nsPerByteQ16 = (ctx.pacers link).nsPerByteQ16 ∧
      ((ctx.step event).pacers link).burstNs = (ctx.pacers link).burstNs ∧
      (ctx.pacers link).untilNs ≤ ((ctx.step event).pacers link).untilNs := by
  have charge : ∀ (pacer : Pacer) (len now : Nat), (pacer.paceCharge len now).nsPerByteQ16 = pacer.nsPerByteQ16 ∧
      (pacer.paceCharge len now).burstNs = pacer.burstNs ∧ pacer.untilNs ≤ (pacer.paceCharge len now).untilNs := by
    intro pacer len now
    unfold Pacer.paceCharge
    split
    · exact ⟨rfl, rfl, le_rfl⟩
    · exact ⟨rfl, rfl, (le_max_left _ _).trans (Nat.le_add_right _ _)⟩
  have batch : ∀ (lens : List Nat) (pacer : Pacer) (now : Nat),
      (pacer.paceChargeBatch lens now).nsPerByteQ16 = pacer.nsPerByteQ16 ∧
        (pacer.paceChargeBatch lens now).burstNs = pacer.burstNs ∧
        pacer.untilNs ≤ (pacer.paceChargeBatch lens now).untilNs := by
    intro lens
    induction lens with
    | nil => exact fun pacer now => ⟨rfl, rfl, le_rfl⟩
    | cons len rest ih =>
      intro pacer now
      obtain ⟨rate, burst, later⟩ := ih (pacer.paceCharge len now) now
      obtain ⟨rate', burst', later'⟩ := charge pacer len now
      exact ⟨rate.trans rate', burst.trans burst', later'.trans later⟩
  cases event with
  | other other len now =>
    by_cases same : link = other
    · subst same
      simpa [step] using charge (ctx.pacers link) len now
    · simp [step, Function.update_of_ne same]
  | units other send index alone asked sentAt taken =>
    by_cases same : link = other
    · subst same
      simpa [step] using batch _ (ctx.pacers link) sentAt
    · simp [step, Function.update_of_ne same]

theorem step_granted (event : Event) : ∃ more, (ctx.step event).granted = ctx.granted ++ more := by
  cases event with
  | other link len now => exact ⟨[], by simp [step]⟩
  | units link send index alone asked sentAt taken => exact ⟨_, rfl⟩

theorem run_granted (events : List Event) {g : Granted} (there : g ∈ ctx.granted) :
    g ∈ (Run.after step ctx events).granted := by
  induction events generalizing ctx with
  | nil => exact there
  | cons event rest ih =>
    obtain ⟨more, same⟩ := @step_granted ctx event
    exact ih (by rw [same]; exact List.mem_append_left _ there)

/-- What was sent between `a` and `b` is within the bound, and the bucket has it. -/
structure Within (link a b burst one : Nat) (ctx : PacedContext) : Prop where
  paced : (ctx.pacers link).nsPerByteQ16 ≠ 0
  limit : (ctx.pacers link).burstNs = burst
  bounded : ctx.wireTime link a b ≤ (b - a) + burst + one
  counted : ctx.wireTime link a b = 0 ∨ a + ctx.wireTime link a b ≤ (ctx.pacers link).untilNs

theorem wireTime_append (granted more : List Granted) (pacers : Nat → Pacer) (clock link a b : Nat) :
    (⟨pacers, clock, granted ++ more⟩ : PacedContext).wireTime link a b =
      (⟨pacers, clock, granted⟩ : PacedContext).wireTime link a b +
        (⟨pacers, clock, more⟩ : PacedContext).wireTime link a b := by
  simp [wireTime, List.filter_append]

/-- The units of one round are all in the interval, or none is. -/
theorem wireTime_round {lens : List Nat} {cost : Nat → Nat} (pacers : Nat → Pacer) (clock link other sentAt a b : Nat) :
    (⟨pacers, clock, lens.map fun len => ⟨other, sentAt, cost len⟩⟩ : PacedContext).wireTime link a b =
      if other = link ∧ a ≤ sentAt ∧ sentAt ≤ b then (lens.map cost).sum else 0 := by
  unfold wireTime
  split
  next inside =>
    rw [List.filter_eq_self.mpr]
    · rw [List.map_map]
      rfl
    · intro g hg
      obtain ⟨len, -, rfl⟩ := List.mem_map.mp hg
      simp [inside]
  next outside =>
    rw [List.filter_eq_nil_iff.mpr]
    · rfl
    · intro g hg
      obtain ⟨len, -, rfl⟩ := List.mem_map.mp hg
      simp only [Bool.and_eq_true, decide_eq_true_eq]
      rintro ⟨⟨same, after⟩, before⟩
      exact outside ⟨same, after, before⟩

theorem Within.quiet {a b burst one : Nat} (h : Within link a b burst one ctx) {event : Event}
    (same : (ctx.step event).wireTime link a b = ctx.wireTime link a b) : Within link a b burst one (ctx.step event) := by
  obtain ⟨rate, limit, later⟩ := @step_pacer ctx link event
  refine ⟨rate ▸ h.paced, limit.trans h.limit, same ▸ h.bounded, ?_⟩
  rw [same]
  exact h.counted.imp_right fun before => before.trans later

theorem step_wireTime {send : LargeSend} {index : Nat} {alone : Bool} {other asked sentAt taken a b : Nat} :
    (ctx.step (.units other send index alone asked sentAt taken)).wireTime link a b = ctx.wireTime link a b +
      if other = link ∧ a ≤ sentAt ∧ sentAt ≤ b then
        ((unitsSent (ctx.pacers other) send index alone asked taken).map (ctx.pacers other).paceCostNs).sum else 0 := by
  simp only [step]
  rw [wireTime_append, wireTime_round]
  rfl

theorem Within.step {a b burst one : Nat} (h : Within link a b burst one ctx) (event : Event) (timely : ctx.Timely event)
    (small : ∀ g ∈ (ctx.step event).granted, g.link = link → g.cost ≤ one) :
    Within link a b burst one (ctx.step event) := by
  cases event with
  | other other len now => exact h.quiet rfl
  | units other send index alone asked sentAt taken =>
    have total := @step_wireTime ctx link send index alone other asked sentAt taken a b
    by_cases inside : other = link ∧ a ≤ sentAt ∧ sentAt ≤ b
    · obtain ⟨rfl, since, before⟩ := inside
      rw [if_pos ⟨rfl, since, before⟩] at total
      obtain ⟨few, each⟩ := @unitsSent_cost (ctx.pacers other) send index alone asked taken
      have fits := Pacer.paceUnits_fits h.paced (by simpa using few) each
      have single : ∀ len ∈ unitsSent (ctx.pacers other) send index alone asked taken,
          (ctx.pacers other).paceCostNs len ≤ one := by
        intro len hlen
        exact small ⟨other, sentAt, (ctx.pacers other).paceCostNs len⟩
          (List.mem_append_right _ (List.mem_map_of_mem hlen)) rfl
      obtain ⟨rate, limit, -⟩ := @step_pacer ctx other (.units other send index alone asked sentAt taken)
      have charged : (ctx.step (.units other send index alone asked sentAt taken)).pacers other =
          (ctx.pacers other).paceChargeBatch (unitsSent (ctx.pacers other) send index alone asked taken) sentAt := by
        simp [step]
      generalize unitsSent (ctx.pacers other) send index alone asked taken = lens at total fits single charged
      by_cases nothing : (lens.map (ctx.pacers other).paceCostNs).sum = 0
      · rw [nothing] at total
        exact h.quiet total
      · have some_ : lens ≠ [] := by
          rintro rfl
          exact nothing rfl
        rw [Pacer.paceChargeBatch_untilNs h.paced lens some_] at charged
        have until_ : ((ctx.step (.units other send index alone asked sentAt taken)).pacers other).untilNs =
            max (ctx.pacers other).untilNs sentAt + (lens.map (ctx.pacers other).paceCostNs).sum := by rw [charged]
        have order : asked ≤ sentAt := timely.2
        have counted : a + (ctx.wireTime other a b + (lens.map (ctx.pacers other).paceCostNs).sum) ≤
            ((ctx.step (.units other send index alone asked sentAt taken)).pacers other).untilNs := by
          have := h.counted
          rw [until_]
          omega
        refine ⟨rate ▸ h.paced, limit.trans h.limit, ?_, .inr (by rw [total]; exact counted)⟩
        rw [total]
        rw [until_] at counted
        have limit' := h.limit
        unfold Pacer.paceBacklog at fits
        rcases fits with zero | within | ⟨full, lone⟩
        · exact absurd zero nothing
        · omega
        · obtain ⟨len, rfl⟩ := List.length_eq_one_iff.mp (by simpa using lone)
          have := single len (List.mem_singleton_self len)
          simp only [List.map_cons, List.map_nil, List.sum_cons, List.sum_nil, Nat.add_zero] at counted ⊢
          omega
    · rw [if_neg inside] at total
      exact h.quiet total

theorem Within.run {a b burst one : Nat} (h : Within link a b burst one ctx) (events : List Event)
    (timely : Run.Sound PacedContext.step Timely ctx events)
    (small : ∀ g ∈ (Run.after PacedContext.step ctx events).granted, g.link = link → g.cost ≤ one) :
    Within link a b burst one (Run.after PacedContext.step ctx events) := by
  induction events generalizing ctx with
  | nil => exact h
  | cons event rest ih =>
    have next := h.step event timely.1 fun g hg => small g (run_granted rest hg)
    exact ih next timely.2 small

theorem run_pacer (events : List Event) :
    ((Run.after step ctx events).pacers link).nsPerByteQ16 = (ctx.pacers link).nsPerByteQ16 ∧
      ((Run.after step ctx events).pacers link).burstNs = (ctx.pacers link).burstNs := by
  induction events generalizing ctx with
  | nil => exact ⟨rfl, rfl⟩
  | cons event rest ih =>
    obtain ⟨rate, burst, -⟩ := @step_pacer ctx link event
    obtain ⟨rate', burst'⟩ := @ih (ctx.step event)
    exact ⟨rate'.trans rate, burst'.trans burst⟩

theorem timely_at {before after : List Event} {event : Event}
    (timely : Run.Sound step Timely ctx (before ++ event :: after)) : (Run.after step ctx before).Timely event := by
  induction before generalizing ctx with
  | nil => exact timely.1
  | cons first rest ih => exact ih timely.2

theorem ethernet_framed : largeFramingMax < 1472 := by decide

def stream : LargeSend := ⟨1472, 200000, ethernet_framed⟩

def gigabit : Nat → Pacer := fun _ => ⟨0, 100000, 524288, 1480⟩

def paced : List Event :=
  [.other 0 100 10, .units 0 stream 0 false 20 25 64, .units 0 stream 8 false 30 35 64, .units 0 stream 8 false 20000 20001 64]

end PacedContext

end Tickle
