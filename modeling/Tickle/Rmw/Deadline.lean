import Tickle.Run

/-! # Missed deadlines

An endpoint with a deadline is checked by a timer. It keeps the time of its latest activity and the end of the last period counted
as missed, and a check lays the periods from the later of the two.
-/

namespace Tickle

namespace Rmw

/-- What of an endpoint the check reads and writes. -/
structure Deadline where
  lastActivityTime : Nat
  countedUntil : Nat
  /-- An `int`. -/
  totalCount : BitVec 32

/-- What `rmw_tickle_deadline_check()` gives: `*missed`, `*counted_until` and when the next check is due. -/
structure DeadlineCheck where
  missed : Nat
  countedUntil : Nat
  next : Nat
  deriving DecidableEq, Repr

/-- `rmw_tickle_deadline_check()`. -/
def deadlineCheck (now period lastActivity countedUntil : Nat) : DeadlineCheck :=
  let laid := if countedUntil < lastActivity then lastActivity else countedUntil
  if laid ≤ now ∧ period ≤ now - laid then
    let missed := (now - laid) / period
    ⟨missed, laid + missed * period, (laid + missed * period + period) % 2 ^ 64⟩
  else ⟨0, countedUntil, (laid + period) % 2 ^ 64⟩

inductive DeadlineEvent
  /-- A sample published, or received. -/
  | activity (time : Nat)
  | check (now : Nat)

namespace DeadlineEvent

def time : DeadlineEvent → Nat
  | activity time => time
  | check now => now

/-- The events happen one after the other, none before `since`. -/
def Ordered : (since : Nat) → List DeadlineEvent → Prop
  | _, [] => True
  | since, event :: rest => since ≤ event.time ∧ Ordered event.time rest

def activityTime : DeadlineEvent → Option Nat
  | activity time => some time
  | check _ => none

end DeadlineEvent

open DeadlineEvent

namespace Deadline

variable (period : Nat)

/-- An endpoint just created. -/
def create (now : Nat) : Deadline := ⟨now, 0, 0⟩

/-- `check_subscription_deadline()` and `check_publisher_deadline()` are the check. -/
def step (s : Deadline) : DeadlineEvent → Deadline
  | activity time => { s with lastActivityTime := time }
  | check now =>
    let checked := deadlineCheck now period s.lastActivityTime s.countedUntil
    { s with countedUntil := checked.countedUntil, totalCount := s.totalCount + BitVec.ofNat 32 checked.missed }

/-- Where the periods are laid from. -/
def laid (s : Deadline) : Nat := max s.lastActivityTime s.countedUntil

/-- The whole periods without activity after the one at `since`: up to each of the later ones, and up to `now`. -/
def wholePeriods : (since : Nat) → (activities : List Nat) → (now : Nat) → Nat
  | since, [], now => (now - since) / period
  | since, time :: rest, now => (time - since) / period + wholePeriods time rest now

/-- An activity comes before the period going on is over. -/
def Timely (s : Deadline) : DeadlineEvent → Prop
  | activity time => time < s.laid + period
  | check _ => True

instance (s : Deadline) (event : DeadlineEvent) : Decidable (s.Timely period event) :=
  match event with
  | activity time => inferInstanceAs (Decidable (time < s.laid + period))
  | check _ => isTrue trivial

/-! ## What is counted -/

/-- The misses that the checks of a run come to. -/
def missedIn : Deadline → List DeadlineEvent → Nat
  | _, [] => 0
  | s, activity time :: rest => missedIn (s.step period (activity time)) rest
  | s, check now :: rest =>
    (deadlineCheck now period s.lastActivityTime s.countedUntil).missed + missedIn (s.step period (check now)) rest

/-- The periods that were over when an activity came, before any check saw them. -/
def unseenIn : Deadline → List DeadlineEvent → Nat
  | _, [] => 0
  | s, activity time :: rest => (time - s.laid) / period + unseenIn (s.step period (activity time)) rest
  | s, check now :: rest => unseenIn (s.step period (check now)) rest

/-- The periods counted reach from the latest activity to where the next ones are laid from. -/
def Aligned (s : Deadline) (periods : Nat) : Prop := s.laid = s.lastActivityTime + periods * period

variable {period} {s : Deadline} {periods : Nat}

theorem deadlineCheck_eq (some_ : 0 < period) (now : Nat) :
    (deadlineCheck now period s.lastActivityTime s.countedUntil).missed = (now - s.laid) / period ∧
      (s.step period (check now)).laid = s.laid + (now - s.laid) / period * period := by
  have same : (if s.countedUntil < s.lastActivityTime then s.lastActivityTime else s.countedUntil) = s.laid := by
    unfold laid
    split <;> omega
  have last : s.lastActivityTime ≤ s.laid := Nat.le_max_left _ _
  unfold step deadlineCheck
  simp only [same]
  by_cases over_ : s.laid ≤ now ∧ period ≤ now - s.laid
  · rw [if_pos over_]
    refine ⟨rfl, ?_⟩
    change max s.lastActivityTime (s.laid + _) = _
    exact Nat.max_eq_right (last.trans (Nat.le_add_right _ _))
  · rw [if_neg over_]
    have nothing : (now - s.laid) / period = 0 := Nat.div_eq_of_lt (by omega)
    rw [nothing, Nat.zero_mul]
    exact ⟨rfl, rfl⟩

theorem div_add_periods (some_ : 0 < period) {since over_ now : Nat} (laid : over_ = since + periods * period)
    (past : over_ ≤ now) : (now - since) / period = periods + (now - over_) / period := by
  have apart : now - since = now - over_ + periods * period := by omega
  rw [apart, Nat.add_mul_div_right _ _ some_, Nat.add_comm]

/-- What is counted, what goes unseen and what was counted already are all the periods without activity. -/
theorem missedIn_add_unseenIn (some_ : 0 < period) {events : List DeadlineEvent} {since now : Nat}
    (aligned : s.Aligned period periods) (past : s.laid ≤ since) (ordered : Ordered since (events ++ [check now])) :
    s.missedIn period (events ++ [check now]) + s.unseenIn period events + periods =
      wholePeriods period s.lastActivityTime (events.filterMap activityTime) now := by
  induction events generalizing s since periods with
  | nil =>
    have later : since ≤ now := ordered.1
    change (deadlineCheck now period s.lastActivityTime s.countedUntil).missed + 0 + 0 + periods =
      (now - s.lastActivityTime) / period
    rw [(deadlineCheck_eq some_ now).1, div_add_periods some_ aligned (past.trans later)]
    omega
  | cons event rest ih =>
    cases event with
    | activity time =>
      have later : since ≤ time := ordered.1
      have laid' : (s.step period (activity time)).laid = time := by
        apply Nat.max_eq_left
        exact (Nat.le_max_right s.lastActivityTime s.countedUntil).trans (past.trans later)
      have rest_ := @ih (s.step period (activity time)) 0 time (by rw [Aligned, laid', Nat.zero_mul]; rfl)
        (Nat.le_of_eq laid') ordered.2
      change (s.step period (activity time)).missedIn period (rest ++ [check now]) +
        ((time - s.laid) / period + (s.step period (activity time)).unseenIn period rest) + periods =
          (time - s.lastActivityTime) / period + wholePeriods period time (rest.filterMap activityTime) now
      rw [div_add_periods some_ aligned (past.trans later)]
      change _ = wholePeriods period time (rest.filterMap activityTime) now at rest_
      omega
    | check at_ =>
      have later : since ≤ at_ := ordered.1
      obtain ⟨missed, laid'⟩ := @deadlineCheck_eq period s some_ at_
      have within : (s.step period (check at_)).laid ≤ at_ := by
        rw [laid']
        have := Nat.div_mul_le_self (at_ - s.laid) period
        omega
      have aligned' : (s.step period (check at_)).Aligned period (periods + (at_ - s.laid) / period) := by
        change _ = s.lastActivityTime + _
        rw [laid', Nat.add_mul, ← Nat.add_assoc, ← aligned]
      have rest_ := ih aligned' within ordered.2
      change (deadlineCheck at_ period s.lastActivityTime s.countedUntil).missed +
        (s.step period (check at_)).missedIn period (rest ++ [check now]) +
          (s.step period (check at_)).unseenIn period rest + periods =
            wholePeriods period s.lastActivityTime (rest.filterMap activityTime) now
      change _ = wholePeriods period s.lastActivityTime (rest.filterMap activityTime) now at rest_
      omega

theorem totalCount_after (s : Deadline) (events : List DeadlineEvent) :
    (Run.after (step period) s events).totalCount = s.totalCount + BitVec.ofNat 32 (s.missedIn period events) := by
  induction events generalizing s with
  | nil =>
    unfold missedIn
    change s.totalCount = s.totalCount + 0
    exact (BitVec.add_zero _).symm
  | cons event rest ih =>
    change (Run.after (step period) (s.step period event) rest).totalCount = _
    rw [ih]
    cases event with
    | activity time => rfl
    | check now =>
      have split : s.missedIn period (check now :: rest) =
          (deadlineCheck now period s.lastActivityTime s.countedUntil).missed +
            (s.step period (check now)).missedIn period rest := rfl
      rw [split, BitVec.ofNat_add, ← BitVec.add_assoc]
      rfl

/-- Nothing goes unseen when every activity is timely, and only then. -/
theorem unseenIn_eq_zero (some_ : 0 < period) (events : List DeadlineEvent) :
    s.unseenIn period events = 0 ↔ Run.Sound (step period) (Timely period) s events := by
  induction events generalizing s with
  | nil => exact ⟨fun _ => trivial, fun _ => rfl⟩
  | cons event rest ih =>
    cases event with
    | activity time =>
      change (time - s.laid) / period + unseenIn _ _ _ = 0 ↔ time < s.laid + period ∧ Run.Sound _ _ _ _
      rw [Nat.add_eq_zero_iff, ih, Nat.div_eq_zero_iff_lt some_]
      exact and_congr_left' (by omega)
    | check now =>
      change (s.step period (check now)).unseenIn period rest = 0 ↔ True ∧ Run.Sound _ _ _ _
      rw [ih, true_and]

theorem toInt_ofNat_eq {n : Nat} (small : n < 2 ^ 31) : (BitVec.ofNat 32 n).toInt = n := by
  rw [BitVec.toInt_ofNat', Int.bmod_eq_of_le]
  · omega
  · omega

/-- The total of a run that ends in a check is the number of whole periods without activity exactly when every activity came before
the period going on was over and they are fewer than an `int` counts. -/
theorem totalCount_eq_wholePeriods (some_ : 0 < period) (created now : Nat) (events : List DeadlineEvent)
    (ordered : Ordered created (events ++ [check now])) :
    (Run.after (step period) (create created) (events ++ [check now])).totalCount.toInt =
        wholePeriods period created (events.filterMap activityTime) now ↔
      Run.Sound (step period) (Timely period) (create created) events ∧
        wholePeriods period created (events.filterMap activityTime) now < 2 ^ 31 := by
  have laid' : (create created).laid = created := Nat.max_eq_left (Nat.zero_le _)
  have aligned : (create created).Aligned period 0 := by rw [Aligned, laid', Nat.zero_mul]; rfl
  have counted := missedIn_add_unseenIn some_ aligned (Nat.le_of_eq laid') ordered
  change _ = wholePeriods period created _ now at counted
  rw [totalCount_after, ← unseenIn_eq_zero some_]
  generalize (create created).missedIn period (events ++ [check now]) = missed at counted ⊢
  generalize (create created).unseenIn period events = unseen at counted ⊢
  generalize wholePeriods period created (events.filterMap activityTime) now = all at counted ⊢
  change (0#32 + BitVec.ofNat 32 missed).toInt = all ↔ _
  rw [BitVec.zero_add]
  constructor
  · intro same
    have small : all < 2 ^ 31 := by
      have := @BitVec.toInt_lt 32 (BitVec.ofNat 32 missed)
      omega
    rw [toInt_ofNat_eq (by omega)] at same
    omega
  · rintro ⟨nothing, small⟩
    rw [toInt_ofNat_eq (by omega)]
    omega

/-- A sample every four, and a check that finds the last two periods empty. -/
theorem totalCount_timely :
    (Run.after (step 10) (create 0) [activity 4, check 10, activity 12, check 14, check 35]).totalCount.toInt =
      wholePeriods 10 0 [4, 12] 35 :=
  (totalCount_eq_wholePeriods (by decide) 0 35 [activity 4, check 10, activity 12, check 14]
    (by refine ⟨?_, ?_, ?_, ?_, ?_, trivial⟩ <;> decide)).mpr (by decide)

/-- The check due at 10 runs at 20, and the sample received at 15 hides the period before it. -/
theorem late_check_misses :
    (deadlineCheck 20 10 15 0).missed = 0 ∧ (create 0).lastActivityTime + 10 ≤ 20 ∧
      ¬ (Run.after (step 10) (create 0) [activity 15, check 20]).totalCount.toInt = wholePeriods 10 0 [15] 20 := by
  decide

end Deadline

end Rmw

end Tickle
