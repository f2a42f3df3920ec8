import Tickle.Service.Calls

/-! # Every call ends, once

Along a run, what a call has sent and reported is tied to where it is: outstanding with its retries
counted, or ended with one report (`Accounted`). Its one timer is what ends a call nobody answers:
each time it runs, the call is sent again or ends, and it can be sent again only `call_retry_count`
times (`Run.ends`). Both hold as long as no call's retry byte comes round.
-/

namespace Tickle

/-! ## Counting sends and reports -/

namespace CallOutput

variable {α ρ : Type}

def sendsOf (attempt : Nat) : CallOutput α ρ → Bool
  | .request a _ => a = attempt
  | _ => false

def reportsOf (attempt : Nat) : CallOutput α ρ → Bool
  | .callback a _ _ _ => a = attempt
  | _ => false

def accepts (attempt : Nat) : CallOutput α ρ → Bool
  | .accepted a => a = attempt
  | _ => false

end CallOutput

section Counts

variable {α ρ : Type}

/-- How often the request of a call went out. -/
def sends (outputs : List (CallOutput α ρ)) (attempt : Nat) : Nat :=
  outputs.countP (CallOutput.sendsOf attempt)

/-- How often the callback was run for a call. -/
def reports (outputs : List (CallOutput α ρ)) (attempt : Nat) : Nat :=
  outputs.countP (CallOutput.reportsOf attempt)

def accepted (outputs : List (CallOutput α ρ)) (attempt : Nat) : Bool :=
  outputs.any (CallOutput.accepts attempt)

/-- No output of the list is about the call. -/
def Silent (outputs : List (CallOutput α ρ)) (attempt : Nat) : Prop :=
  sends outputs attempt = 0 ∧ reports outputs attempt = 0 ∧ accepted outputs attempt = false

theorem sends_append (outputs more : List (CallOutput α ρ)) (attempt : Nat) :
    sends (outputs ++ more) attempt = sends outputs attempt + sends more attempt :=
  List.countP_append

theorem reports_append (outputs more : List (CallOutput α ρ)) (attempt : Nat) :
    reports (outputs ++ more) attempt = reports outputs attempt + reports more attempt :=
  List.countP_append

theorem accepted_append (outputs more : List (CallOutput α ρ)) (attempt : Nat) :
    accepted (outputs ++ more) attempt = (accepted outputs attempt || accepted more attempt) :=
  List.any_append

theorem silent_nil (attempt : Nat) : Silent ([] : List (CallOutput α ρ)) attempt := ⟨rfl, rfl, rfl⟩

theorem Silent.append {outputs more : List (CallOutput α ρ)} {attempt : Nat}
    (h : Silent outputs attempt) (h' : Silent more attempt) : Silent (outputs ++ more) attempt := by
  obtain ⟨hs, hr, ha⟩ := h
  obtain ⟨hs', hr', ha'⟩ := h'
  exact ⟨by rw [sends_append]; omega, by rw [reports_append]; omega,
    by rw [accepted_append, ha, ha']; rfl⟩

theorem Silent.counts {more : List (CallOutput α ρ)} {n : Nat} (h : Silent more n)
    (outputs : List (CallOutput α ρ)) :
    sends (outputs ++ more) n = sends outputs n ∧ reports (outputs ++ more) n = reports outputs n ∧
      accepted (outputs ++ more) n = accepted outputs n := by
  obtain ⟨hs, hr, ha⟩ := h
  refine ⟨?_, ?_, ?_⟩
  · rw [sends_append]
    omega
  · rw [reports_append]
    omega
  · rw [accepted_append, ha, Bool.or_false]

theorem Client.Resent.silent {attempt n : Nat} {outputs : List (CallOutput α ρ)}
    (h : Client.Resent attempt outputs) (hn : n ≠ attempt) : Silent outputs n := by
  obtain rfl | ⟨copy, rfl⟩ := h
  · exact silent_nil n
  · simp [Silent, sends, reports, accepted, CallOutput.sendsOf, CallOutput.reportsOf,
      CallOutput.accepts, hn.symm]

theorem Client.Resent.own {attempt : Nat} {outputs : List (CallOutput α ρ)}
    (h : Client.Resent attempt outputs) :
    sends outputs attempt ≤ 1 ∧ (outputs = [] → sends outputs attempt = 0) ∧
      reports outputs attempt = 0 ∧ accepted outputs attempt = false := by
  obtain rfl | ⟨copy, rfl⟩ := h
  · exact ⟨Nat.zero_le _, fun _ => rfl, rfl, rfl⟩
  · simp [sends, reports, accepted, CallOutput.sendsOf, CallOutput.reportsOf, CallOutput.accepts]

end Counts

namespace Client

variable {α ρ : Type}

/-- What a call has sent and reported so far, by where it is. -/
structure Accounted (c : Client α) (outputs : List (CallOutput α ρ)) : Prop where
  fresh : ∀ n, c.attempts ≤ n → Silent outputs n
  outstanding : ∀ {slot call request}, c.Holds slot call request →
    sends outputs call.attempt ≤ request.retry.toNat + 1 ∧ reports outputs call.attempt = 0
  ended : ∀ n, accepted outputs n = true → ¬ c.Outstanding n →
    reports outputs n = 1 ∧ sends outputs n ≤ c.callRetryCount + 1

/-- A step that touches one slot, whose call is `a` before and after, and says nothing of others. -/
structure OneCall (c c' : Client α) (slot a : Nat) (more : List (CallOutput α ρ)) : Prop where
  same : SameBut c c' slot
  grows : c.attempts ≤ c'.attempts
  known : a < c'.attempts
  others : ∀ n, n ≠ a → Silent more n
  before : ∀ {call request}, c.Holds slot call request → call.attempt = a
  after : ∀ {call request}, c'.Holds slot call request → call.attempt = a
  apart : ∀ {k call request}, k ≠ slot → c.Holds k call request → call.attempt ≠ a

theorem OneCall.outstanding {c c' : Client α} {slot a n : Nat} {more : List (CallOutput α ρ)}
    (h : OneCall c c' slot a more) (hn : n ≠ a) : c'.Outstanding n ↔ c.Outstanding n := by
  constructor
  · rintro ⟨k, call, request, held, rfl⟩
    have hk : k ≠ slot := by
      rintro rfl
      exact hn (h.after held)
    exact ⟨k, call, request, (h.same.holds hk).mp held, rfl⟩
  · rintro ⟨k, call, request, held, rfl⟩
    have hk : k ≠ slot := by
      rintro rfl
      exact hn (h.before held)
    exact ⟨k, call, request, (h.same.holds hk).mpr held, rfl⟩

theorem Accounted.of_call {c c' : Client α} {slot a : Nat} {outputs more : List (CallOutput α ρ)}
    (h : c.Accounted outputs) (one : OneCall c c' slot a more)
    (holds : ∀ {call request}, c'.Holds slot call request →
      sends (outputs ++ more) a ≤ request.retry.toNat + 1 ∧ reports (outputs ++ more) a = 0)
    (gone : accepted (outputs ++ more) a = true → ¬ c'.Outstanding a →
      reports (outputs ++ more) a = 1 ∧ sends (outputs ++ more) a ≤ c.callRetryCount + 1) :
    c'.Accounted (outputs ++ more) where
  fresh := by
    intro n hn
    have hna : n ≠ a := by have := one.known; omega
    exact (h.fresh n (by have := one.grows; omega)).append (one.others n hna)
  outstanding := by
    intro k call request held
    by_cases hk : k = slot
    · subst hk
      rw [one.after held]
      exact holds held
    · have hold := (one.same.holds hk).mp held
      obtain ⟨hs, hr, -⟩ := (one.others call.attempt (one.apart hk hold)).counts outputs
      rw [hs, hr]
      exact h.outstanding hold
  ended := by
    intro n hacc hout
    rw [callRetryCount_congr one.same.options]
    by_cases hna : n = a
    · subst hna
      exact gone hacc hout
    · obtain ⟨hs, hr, ha⟩ := (one.others n hna).counts outputs
      rw [one.outstanding hna] at hout
      rw [hs, hr]
      rw [ha] at hacc
      exact h.ended n hacc hout

theorem Holds.unique {c : Client α} {slot : Nat} {call call' : ClientCall α}
    {request request' : CallRequest α} (h : c.Holds slot call request)
    (h' : c.Holds slot call' request') : call' = call ∧ request' = request := by
  have hcall := h.congr h'.1
  subst hcall
  exact ⟨rfl, Option.some.inj (h'.2.symm.trans h.2)⟩

theorem OneCall.of_new {c c' : Client α} {slot : Nat} {more : List (CallOutput α ρ)} (ht : c.Tidy)
    (same : SameBut c c' slot) (free : c.Vacant slot) (attempts : c'.attempts = c.attempts + 1)
    (others : ∀ n, n ≠ c.attempts → Silent more n)
    (after : ∀ {call request}, c'.Holds slot call request → call.attempt = c.attempts) :
    OneCall c c' slot c.attempts more where
  same := same
  grows := by omega
  known := by omega
  others := others
  before held := absurd held free.not_holds
  after := after
  apart := by
    intro k call request _ held heq
    have := ht.numbered held
    omega

theorem OneCall.of_held {c c' : Client α} {slot : Nat} {more : List (CallOutput α ρ)} (ht : c.Tidy)
    {call : ClientCall α} {request : CallRequest α} (held : c.Holds slot call request)
    (same : SameBut c c' slot) (attempts : c'.attempts = c.attempts)
    (others : ∀ n, n ≠ call.attempt → Silent more n)
    (after : ∀ {call' request'}, c'.Holds slot call' request' → call'.attempt = call.attempt) :
    OneCall c c' slot call.attempt more where
  same := same
  grows := by omega
  known := by
    have := ht.numbered held
    omega
  others := others
  before held' := by rw [(held.unique held').1]
  after := after
  apart := by
    intro k call' request' hk held' heq
    exact hk (ht.apart held' held heq)

theorem Accounted.congr {c c' : Client α} {outputs : List (CallOutput α ρ)} (h : c.Accounted outputs)
    (options : c'.options = c.options) (calls : c'.calls = c.calls)
    (attempts : c'.attempts = c.attempts) : c'.Accounted outputs where
  fresh n hn := h.fresh n (by omega)
  outstanding := by
    intro slot call request held
    simp only [Holds, calls] at held
    exact h.outstanding held
  ended := by
    intro n hacc hout
    rw [callRetryCount_congr options]
    apply h.ended n hacc
    simpa only [Outstanding, Holds, calls] using hout

/-- The byte counts as a number does where it does not come round. -/
theorem retry_succ {retry : BitVec 8} {count : Nat} (counted : retry.toNat ≤ count)
    (unwrapped : 255 ≤ count → retry ≠ 255) : (retry + 1).toNat = retry.toNat + 1 := by
  have hne : retry.toNat ≠ 255 := by
    intro heq
    exact unwrapped (by omega) (BitVec.eq_of_toNat_eq (by simpa using heq))
  have hlt := retry.isLt
  have hone : (1 : BitVec 8).toNat = 1 := rfl
  rw [BitVec.toNat_add, hone]
  omega

theorem destroy_not_holds (c : Client α) {slot : Nat} {call : ClientCall α}
    {request : CallRequest α} : ¬ c.destroy.Holds slot call request := by
  rintro ⟨hcall, hcache⟩
  simp only [Client.destroy, List.getElem?_map, Option.map_eq_some_iff] at hcall
  obtain ⟨old, -, rfl⟩ := hcall
  simp at hcache

theorem Accounted.destroy {c : Client α} {outputs : List (CallOutput α ρ)} (h : c.Accounted outputs)
    (idle : ∀ n, ¬ c.Outstanding n) : c.destroy.Accounted outputs where
  fresh n hn := h.fresh n hn
  outstanding held := absurd held c.destroy_not_holds
  ended n hacc _ := h.ended n hacc (idle n)

theorem Effect.accounted {c c' : Client α} {read : Reading} {event : CallEvent α ρ}
    {outputs more : List (CallOutput α ρ)} (effect : Effect c read event c' more) (ht : c.Tidy)
    (hrel : c.options.reliable = true) (sound : c.Sound read event) (h : c.Accounted outputs) :
    c'.Accounted (outputs ++ more) := by
  cases effect with
  | quiet options calls timers attempts =>
    rw [List.append_nil]
    exact h.congr options calls attempts
  | stale due same calls free timers attempts =>
    rw [List.append_nil]
    exact h.congr same.options calls attempts
  | dropped leaves =>
    subst leaves
    rw [List.append_nil]
    exact h.destroy sound
  | postponed due call request time same due_mem held holds unreliable timers attempts =>
    rw [hrel] at unreliable
    exact absurd unreliable (by simp)
  | unmade slot same free stays timers attempts sent =>
    obtain ⟨hs, hr, ha⟩ := h.fresh c.attempts (le_refl _)
    obtain ⟨-, -, -, ha'⟩ := sent.own
    refine h.of_call (.of_new ht same free attempts (fun n hn => sent.silent hn) ?_) ?_ ?_
    · intro call request held
      exact absurd held stays.not_holds
    · intro call request held
      exact absurd held stays.not_holds
    · intro hacc
      simp [accepted_append, ha, ha'] at hacc
  | made slot call request time same free holds number retry timers attempts =>
    obtain ⟨hs, hr, -⟩ := h.fresh c.attempts (le_refl _)
    refine h.of_call (.of_new ht same free attempts ?_ ?_) ?_ ?_
    · intro n hn
      simp [Silent, sends, reports, accepted, CallOutput.sendsOf, CallOutput.reportsOf,
        CallOutput.accepts, hn.symm]
    · intro call' request' held'
      rw [(holds.unique held').1, number]
    · intro call' request' _
      rw [sends_append, reports_append, hs, hr]
      simp [sends, reports, CallOutput.sendsOf, CallOutput.reportsOf]
    · intro _ hout
      exact absurd ⟨slot, call, request, holds, number⟩ hout
  | resent due call request time same due_mem held holds reliable within unwrapped timers attempts sent =>
    obtain ⟨hs, hr⟩ := h.outstanding held
    obtain ⟨hone, -, hnone, -⟩ := sent.own
    have hcounts : (request.retry + 1).toNat = request.retry.toNat + 1 :=
      retry_succ (ht.counted held hrel) (unwrapped sound)
    refine h.of_call (.of_held ht held same attempts (fun n hn => sent.silent hn) ?_) ?_ ?_
    · intro call' request' held'
      rw [(holds.unique held').1]
    · intro call' request' held'
      rw [sends_append, reports_append, (holds.unique held').2]
      simp only
      omega
    · intro _ hout
      exact absurd ⟨due.2, _, _, holds, rfl⟩ hout
  | @ended _ sent seqNo returnCode response slot call request same held stays timers attempts sent_resent within unwrapped =>
    obtain ⟨hs, hr⟩ := h.outstanding held
    obtain ⟨hone, hzero, hnone, -⟩ := sent_resent.own
    have hcount := ht.counted held hrel
    refine h.of_call (.of_held ht held same attempts ?_ ?_) ?_ ?_
    · intro n hn
      apply (sent_resent.silent hn).append
      simp [Silent, sends, reports, accepted, CallOutput.sendsOf, CallOutput.reportsOf,
        CallOutput.accepts, hn.symm]
    · intro call' request' held'
      exact absurd held' stays.not_holds
    · intro call' request' held'
      exact absurd held' stays.not_holds
    · intro _ _
      rw [sends_append, reports_append, sends_append, reports_append, hr, hnone]
      have hreport : reports [(.callback call.attempt seqNo returnCode response : CallOutput α ρ)]
          call.attempt = 1 := by simp [reports, CallOutput.reportsOf]
      have hquiet : sends [(.callback call.attempt seqNo returnCode response : CallOutput α ρ)]
          call.attempt = 0 := by simp [sends, CallOutput.sendsOf]
      rw [hreport, hquiet]
      refine ⟨rfl, ?_⟩
      by_cases hnil : sent = []
      · have := hzero hnil
        omega
      · have hcounts := retry_succ hcount (unwrapped hnil sound)
        have := within hnil
        omega

theorem create_tidy (options : ClientOptions) (endpointId : Nat) (clientTag : BitVec 8) :
    (create (α := α) options endpointId clientTag).Tidy := by
  have none_held : ∀ {slot call request},
      ¬ (create (α := α) options endpointId clientTag).Holds slot call request := by
    rintro slot call request ⟨hcall, hcache⟩
    obtain ⟨-, rfl⟩ := List.mem_replicate.mp (List.mem_of_getElem? hcall)
    simp [ClientCall.free] at hcache
  constructor
  · intro slot call request held
    exact absurd held none_held
  · intro slot _
    rfl
  · intro slot call request held
    exact absurd held none_held
  · intro i j a b p q held
    exact absurd held none_held
  · intro slot call request held
    exact absurd held none_held

theorem create_accounted (options : ClientOptions) (endpointId : Nat) (clientTag : BitVec 8) :
    (create (α := α) options endpointId clientTag).Accounted ([] : List (CallOutput α ρ)) where
  fresh n _ := silent_nil n
  outstanding _ := ⟨Nat.zero_le _, rfl⟩
  ended n hacc := by simp [accepted] at hacc

/-- The timer of an outstanding call does not leave it as it was. -/
theorem callRetry_changes {c : Client α} {due : Nat × Nat} {call : ClientCall α}
    {request : CallRequest α} (held : c.Holds due.2 call request) (hrel : c.options.reliable = true)
    (read : Reading) (reached room : Bool) :
    ¬ (c.step (ρ := ρ) read (.timer due reached room)).1.Holds due.2 call request := by
  have hlt := held.lt
  have hne : request.retry + 1 ≠ request.retry := by
    intro heq
    have := congrArg BitVec.toNat heq
    rw [BitVec.toNat_add] at this
    have hone : (1 : BitVec 8).toNat = 1 := rfl
    omega
  simp only [step, callRetry, held.1, held.2, hrel, Bool.not_true, Bool.false_eq_true, if_false]
  split
  · rintro ⟨hcall, -⟩
    simp only [endCallUnanswered, setCall, backOffRetryInterval_calls] at hcall
    rw [List.getElem?_set_self (by simpa using hlt)] at hcall
    have := congrArg ClientCall.cache (Option.some.inj hcall)
    simp [held.2] at this
  · cases room with
    | true =>
      rintro ⟨hcall, -⟩
      simp only [if_true, schedule, setCall] at hcall
      rw [List.getElem?_set_self hlt] at hcall
      have := congrArg ClientCall.cache (Option.some.inj hcall)
      rw [held.2] at this
      exact hne (congrArg CallRequest.retry (Option.some.inj this))
    | false =>
      rintro ⟨hcall, -⟩
      simp only [Bool.false_eq_true, if_false, endCallUnanswered, setCall] at hcall
      rw [List.getElem?_set_self (by simpa using hlt)] at hcall
      have := congrArg ClientCall.cache (Option.some.inj hcall)
      simp [held.2] at this

/-- The call of `slot` has moved on: it was sent once more, or it is over. -/
def Moved (c : Client α) (slot attempt retry : Nat) : Prop :=
  (∃ call request, c.Holds slot call request ∧ call.attempt = attempt ∧
    request.retry.toNat = retry + 1) ∨ ¬ c.Outstanding attempt

/-- What one step does to an outstanding call: nothing, one more send, or its end. -/
theorem Effect.fate {c c' : Client α} {read : Reading} {event : CallEvent α ρ}
    {outputs : List (CallOutput α ρ)} (effect : Effect c read event c' outputs) (ht : c.Tidy)
    (hrel : c.options.reliable = true) (sound : c.Sound read event) {slot : Nat}
    {call : ClientCall α} {request : CallRequest α} (held : c.Holds slot call request) :
    (c'.Holds slot call request ∧ c'.slotTimers slot = c.slotTimers slot) ∨
      c'.Moved slot call.attempt request.retry.toNat := by
  have kept : ∀ {k}, SameBut c c' k → slot ≠ k →
      c'.Holds slot call request ∧ c'.slotTimers slot = c.slotTimers slot :=
    fun same hk => ⟨(same.holds hk).mpr held, same.timers slot hk⟩
  cases effect with
  | quiet options calls timers attempts =>
    left
    simp only [Holds, slotTimers, calls, timers]
    exact ⟨held, trivial⟩
  | stale due same calls free timers attempts =>
    left
    apply kept same
    rintro rfl
    exact free call request held
  | dropped leaves =>
    subst leaves
    exact absurd ⟨slot, call, request, held, rfl⟩ (sound call.attempt)
  | postponed due call request time same due_mem held holds unreliable timers attempts =>
    rw [hrel] at unreliable
    exact absurd unreliable (by simp)
  | unmade k same free stays timers attempts sent =>
    left
    apply kept same
    rintro rfl
    exact free.not_holds held
  | made k _ _ time same free holds number retry timers attempts =>
    left
    apply kept same
    rintro rfl
    exact free.not_holds held
  | resent due call' request' time same due_mem held' holds reliable within unwrapped =>
    by_cases hk : slot = due.2
    · subst hk
      obtain ⟨rfl, rfl⟩ := held'.unique held
      right
      left
      exact ⟨_, _, holds, rfl, retry_succ (ht.counted held hrel) (unwrapped sound)⟩
    · exact .inl (kept same hk)
  | ended k call' request' same held' stays =>
    by_cases hk : slot = k
    · subst hk
      right
      right
      rintro ⟨i, a, p, ha, heq⟩
      by_cases hi : i = slot
      · subst hi
        exact stays.not_holds ha
      · exact hi (ht.apart ((same.holds hi).mp ha) held heq)
    · exact .inl (kept same hk)

end Client

/-! ## Runs -/

/-- The life of a Client: what happens to it, and what its host's clock says then. -/
structure CallRun (α ρ : Type) where
  options : ClientOptions
  endpointId : Nat
  clientTag : BitVec 8
  read : Nat → Reading
  event : Nat → CallEvent α ρ

namespace CallRun

variable {α ρ : Type}

def state (run : CallRun α ρ) : Nat → Client α
  | 0 => .create run.options run.endpointId run.clientTag
  | t + 1 => ((run.state t).step (run.read t) (run.event t)).1

def outputs (run : CallRun α ρ) : Nat → List (CallOutput α ρ)
  | 0 => []
  | t + 1 => run.outputs t ++ ((run.state t).step (run.read t) (run.event t)).2

/-- `call_retry_count()` of the Client. -/
def count (run : CallRun α ρ) : Nat := (run.state 0).callRetryCount

structure Valid (run : CallRun α ρ) : Prop where
  enabled : ∀ t, (run.state t).Enabled (run.read t) (run.event t)
  clock : ∀ t, (run.read t).now ≤ (run.read (t + 1)).now

/-- Time advances, and the scheduler runs what is due. -/
structure Fair (run : CallRun α ρ) : Prop where
  advances : ∀ time, ∃ t, time ≤ (run.read t).now
  served : ∀ t due, due ∈ (run.state t).timers → due.1 ≤ (run.read t).now →
    ∃ u, t ≤ u ∧ ((∃ reached room, run.event u = .timer due reached room) ∨
      due ∉ (run.state u).timers)

/-- No step of the run takes a call's retry byte round or the Client from under a call. -/
def Sound (run : CallRun α ρ) : Prop :=
  ∀ t, (run.state t).Sound (run.read t) (run.event t)

theorem options_eq (run : CallRun α ρ) (valid : run.Valid) (t : Nat) :
    (run.state t).options = run.options := by
  induction t with
  | zero => rfl
  | succ t ih =>
    rw [← ih]
    exact (Client.step_effect (valid.enabled t)).options

theorem tidy (run : CallRun α ρ) (valid : run.Valid) (t : Nat) : (run.state t).Tidy := by
  induction t with
  | zero => exact Client.create_tidy _ _ _
  | succ t ih => exact (Client.step_effect (valid.enabled t)).tidy ih

theorem accounted (run : CallRun α ρ) (valid : run.Valid) (hrel : run.options.reliable = true)
    (sound : run.Sound) (t : Nat) : (run.state t).Accounted (run.outputs t) := by
  induction t with
  | zero => exact Client.create_accounted _ _ _
  | succ t ih =>
    exact (Client.step_effect (valid.enabled t)).accounted (run.tidy valid t)
      (by rw [run.options_eq valid, hrel]) (sound t) ih

theorem count_eq (run : CallRun α ρ) (valid : run.Valid) (t : Nat) :
    (run.state t).callRetryCount = run.count :=
  Client.callRetryCount_congr (run.options_eq valid t)

theorem now_mono (run : CallRun α ρ) (valid : run.Valid) {t u : Nat} (h : t ≤ u) :
    (run.read t).now ≤ (run.read u).now := by
  induction h with
  | refl => exact le_refl _
  | step _ ih => exact le_trans ih (valid.clock _)

/-- Until its call moves on, a slot keeps its call and its timer. -/
theorem persists (run : CallRun α ρ) (valid : run.Valid) (hrel : run.options.reliable = true)
    (sound : run.Sound) {t slot : Nat} {call : ClientCall α} {request : CallRequest α}
    (held : (run.state t).Holds slot call request) {v : Nat} (htv : t ≤ v) :
    ((run.state v).Holds slot call request ∧
      (run.state v).slotTimers slot = (run.state t).slotTimers slot) ∨
    ∃ u, t ≤ u ∧ (run.state u).Moved slot call.attempt request.retry.toNat := by
  induction htv with
  | refl => exact .inl ⟨held, rfl⟩
  | @step v htv ih =>
    obtain ⟨heldv, timers⟩ | moved := ih
    · obtain ⟨kept, same⟩ | moved := (Client.step_effect (valid.enabled v)).fate (run.tidy valid v)
        (by rw [run.options_eq valid, hrel]) (sound v) heldv
      · exact .inl ⟨kept, same.trans timers⟩
      · exact .inr ⟨v + 1, Nat.le_succ_of_le htv, moved⟩
    · exact .inr moved

theorem moves (run : CallRun α ρ) (valid : run.Valid) (fair : run.Fair)
    (hrel : run.options.reliable = true) (sound : run.Sound) {t slot : Nat} {call : ClientCall α}
    {request : CallRequest α} (held : (run.state t).Holds slot call request) :
    ∃ u, t ≤ u ∧ (run.state u).Moved slot call.attempt request.retry.toNat := by
  obtain ⟨time, armed⟩ := (run.tidy valid t).armed held
  obtain ⟨t₁, ht₁⟩ := fair.advances time
  have reached : time ≤ (run.read (max t t₁)).now :=
    le_trans ht₁ (run.now_mono valid (le_max_right _ _))
  obtain ⟨heldv, timers⟩ | moved := run.persists valid hrel sound held (le_max_left t t₁)
  · have waiting : (time, slot) ∈ (run.state (max t t₁)).timers := by
      have : (time, slot) ∈ (run.state (max t t₁)).slotTimers slot := by simp [timers, armed]
      exact (List.mem_filter.mp this).1
    obtain ⟨u, hu, served⟩ := fair.served _ _ waiting reached
    have htu : t ≤ u := le_trans (le_max_left _ _) hu
    obtain ⟨heldu, timersu⟩ | moved := run.persists valid hrel sound held htu
    · obtain ⟨reached, room, hevent⟩ | gone := served
      · have hreliable : (run.state u).options.reliable = true := by
          rw [run.options_eq valid, hrel]
        obtain ⟨kept, -⟩ | moved := (Client.step_effect (valid.enabled u)).fate (run.tidy valid u)
          hreliable (sound u) heldu
        · rw [hevent] at kept
          exact absurd kept (Client.callRetry_changes heldu hreliable _ _ _)
        · exact ⟨u + 1, by omega, moved⟩
      · have : (time, slot) ∈ (run.state u).slotTimers slot := by simp [timersu, armed]
        exact absurd (List.mem_filter.mp this).1 gone
    · exact moved
  · exact moved

/-- A call is over after at most as many moves as it has sends left. -/
theorem ends (run : CallRun α ρ) (valid : run.Valid) (fair : run.Fair)
    (hrel : run.options.reliable = true) (sound : run.Sound) {t slot : Nat} {call : ClientCall α}
    {request : CallRequest α} (held : (run.state t).Holds slot call request) :
    ∃ u, t ≤ u ∧ ¬ (run.state u).Outstanding call.attempt := by
  generalize hleft : run.count - request.retry.toNat = left
  induction left generalizing t call request with
  | zero =>
    obtain ⟨u, htu, ⟨call', request', held', -, hretry⟩ | gone⟩ :=
      run.moves valid fair hrel sound held
    · have := (run.tidy valid u).counted held' (by rw [run.options_eq valid, hrel])
      rw [run.count_eq valid] at this
      omega
    · exact ⟨u, htu, gone⟩
  | succ left ih =>
    obtain ⟨u, htu, ⟨call', request', held', hattempt, hretry⟩ | gone⟩ :=
      run.moves valid fair hrel sound held
    · obtain ⟨v, huv, gone⟩ := ih held' (by omega)
      exact ⟨v, by omega, by rwa [← hattempt]⟩
    · exact ⟨u, htu, gone⟩

theorem outputs_mono (run : CallRun α ρ) {t u : Nat} (h : t ≤ u) :
    ∃ more, run.outputs u = run.outputs t ++ more := by
  induction h with
  | refl => exact ⟨[], (List.append_nil _).symm⟩
  | step _ ih =>
    obtain ⟨more, hmore⟩ := ih
    exact ⟨_, by rw [outputs, hmore, List.append_assoc]⟩

theorem accepted_mono (run : CallRun α ρ) {t u n : Nat} (h : t ≤ u)
    (ha : accepted (run.outputs t) n = true) : accepted (run.outputs u) n = true := by
  obtain ⟨more, hmore⟩ := run.outputs_mono h
  rw [hmore, accepted_append, ha, Bool.true_or]

/-- A call reported stays reported: it is not outstanding again under the same name. -/
theorem reported_stays (run : CallRun α ρ) (valid : run.Valid) (hrel : run.options.reliable = true)
    (sound : run.Sound) {t u n : Nat} (h : t ≤ u) (ha : accepted (run.outputs t) n = true)
    (gone : ¬ (run.state t).Outstanding n) : reports (run.outputs u) n = 1 := by
  have acct := run.accounted valid hrel sound
  have hone := ((acct t).ended n ha gone).1
  obtain ⟨more, hmore⟩ := run.outputs_mono h
  apply ((acct u).ended n (run.accepted_mono h ha) _).1
  rintro ⟨slot, call, request, held, rfl⟩
  have hnone := ((acct u).outstanding held).2
  rw [hmore, reports_append] at hnone
  omega

/-- Every accepted call of a RELIABLE Client is sent at most `call_retry_count + 1` times and never
reported twice; where time advances and the scheduler runs what is due, it is reported, once. -/
theorem call_ends_once (run : CallRun α ρ) (valid : run.Valid) (hrel : run.options.reliable = true)
    (sound : run.Sound) :
    (∀ t n, accepted (run.outputs t) n = true →
      sends (run.outputs t) n ≤ run.count + 1 ∧ reports (run.outputs t) n ≤ 1) ∧
    (run.Fair → ∀ t n, accepted (run.outputs t) n = true →
      ∃ u, ∀ v, u ≤ v → reports (run.outputs v) n = 1) := by
  have acct := run.accounted valid hrel sound
  constructor
  · intro t n ha
    by_cases hout : (run.state t).Outstanding n
    · obtain ⟨slot, call, request, held, rfl⟩ := hout
      obtain ⟨hs, hr⟩ := (acct t).outstanding held
      have hcount := (run.tidy valid t).counted held (by rw [run.options_eq valid, hrel])
      rw [run.count_eq valid] at hcount
      omega
    · obtain ⟨hr, hs⟩ := (acct t).ended n ha hout
      rw [run.count_eq valid] at hs
      omega
  · intro fair t n ha
    by_cases hout : (run.state t).Outstanding n
    · obtain ⟨slot, call, request, held, rfl⟩ := hout
      obtain ⟨u, htu, gone⟩ := run.ends valid fair hrel sound held
      refine ⟨u, fun v huv => ?_⟩
      exact run.reported_stays valid hrel sound huv (run.accepted_mono htu ha) gone
    · exact ⟨t, fun v htv => run.reported_stays valid hrel sound htv ha hout⟩

/-- A count of at most 254 never takes the byte round, whatever the interval. -/
theorem sound_of_count (run : CallRun α ρ) (valid : run.Valid) (hcount : run.count ≤ 254)
    (kept : ∀ t, run.event t = .destroy → ∀ n, ¬ (run.state t).Outstanding n) : run.Sound := by
  intro t
  cases hevent : run.event t with
  | timer due reached room =>
    have hlt : ¬ 255 ≤ (run.state t).callRetryCount := by
      rw [run.count_eq valid]
      omega
    simp only [Client.Sound, Client.retryWraps]
    split
    · rfl
    · split
      · rfl
      · simp [hlt]
  | destroy => exact kept t hevent
  | call => trivial
  | response => trivial
  | endOldest => trivial
  | idle => trivial

/-- A RELIABLE Client with an interval of its own, 10 ns, and the given count. -/
def explicitOptions (count : BitVec 32) : ClientOptions where
  reliable := true
  callRetryOwn := true
  own := ⟨10, count⟩
  service := ⟨0, 0⟩
  context := .build
  maxOutstanding := 4

/-- One call, one retry, no answer. -/
def unanswered : CallRun Unit Unit where
  options := explicitOptions 1
  endpointId := 0
  clientTag := 1
  read t := ⟨10 * t, 0⟩
  event
    | 0 => .call 0 (.ok ()) .all true
    | 1 => .timer (10, 0) true true
    | 2 => .timer (20, 0) true true
    | _ => .idle

theorem unanswered_rests (t : Nat) : unanswered.state (t + 3) = unanswered.state 3 := by
  induction t with
  | zero => rfl
  | succ t ih => exact ih

theorem unanswered_valid : unanswered.Valid where
  enabled
    | 0 => trivial
    | 1 => ⟨List.mem_singleton.mpr rfl, le_refl _⟩
    | 2 => ⟨List.mem_singleton.mpr rfl, le_refl _⟩
    | _ + 3 => trivial
  clock t := by simp only [unanswered]; omega

theorem unanswered_fair : unanswered.Fair where
  advances time := ⟨time, by simp only [unanswered]; omega⟩
  served
    | 0, due, hdue, _ => absurd hdue List.not_mem_nil
    | 1, due, hdue, _ => ⟨1, le_refl _, .inl ⟨true, true, by
        rw [List.mem_singleton.mp (show due ∈ [(10, 0)] from hdue)]; rfl⟩⟩
    | 2, due, hdue, _ => ⟨2, le_refl _, .inl ⟨true, true, by
        rw [List.mem_singleton.mp (show due ∈ [(20, 0)] from hdue)]; rfl⟩⟩
    | t + 3, due, hdue, _ => by
      rw [unanswered_rests] at hdue
      exact absurd hdue List.not_mem_nil

theorem unanswered_ends : unanswered.Valid ∧ unanswered.Fair ∧
    accepted (unanswered.outputs 1) 0 = true ∧ sends (unanswered.outputs 3) 0 ≤ 1 + 1 ∧
    ∃ u, ∀ v, u ≤ v → reports (unanswered.outputs v) 0 = 1 := by
  have sound : unanswered.Sound := unanswered.sound_of_count unanswered_valid (by decide) (by
    intro t ht
    match t with
    | 0 | 1 | 2 | t + 3 => exact absurd ht (by simp [unanswered]))
  have ends := call_ends_once unanswered unanswered_valid rfl sound
  exact ⟨unanswered_valid, unanswered_fair, rfl, (ends.1 3 0 rfl).1,
    ends.2 unanswered_fair 1 0 rfl⟩

/-- The same call with a count of 255: its timer runs every 10 ns. -/
def retriedForever : CallRun Unit Unit where
  options := explicitOptions 255
  endpointId := 0
  clientTag := 1
  read t := ⟨10 * t, 0⟩
  event
    | 0 => .call 0 (.ok ()) .all true
    | t + 1 => .timer (min (10 * (t + 1)) uint64Max, 0) true true

/-- The Client while it retries: the byte, and the time the call is sent again. -/
def retrying (retry : BitVec 8) (time : Nat) : Client Unit :=
  { Client.create (α := Unit) (explicitOptions 255) 0 1 with
    calls := ⟨some ⟨0, 0, retry, 1, ()⟩, 0, 0, 0⟩ :: List.replicate 3 .free
    callsMade := 1
    timers := [(time, 0)]
    attempts := 1 }

theorem retrying_next (retry : BitVec 8) (time t : Nat) :
    (retrying retry time).callNextWake 0 retry.toNat ⟨10 * t, 0⟩ =
      min (10 * (t + 1)) uint64Max := by
  have hinterval : (retrying retry time).clientRetryInterval = 10 := rfl
  have hdeadline : (retrying retry time).callDeadline = uint64Max := rfl
  have hlast : saturatingAdd 0 uint64Max = uint64Max := by decide
  simp only [Client.callNextWake, Client.computeRetryInterval, hinterval, hdeadline, hlast]
  simp only [ne_eq, not_true_eq_false, false_and, if_false, OfNat.ofNat_ne_zero, not_false_eq_true,
    if_true]
  rw [saturatingAdd_eq_min (.inl (by omega))]
  omega

theorem retrying_step (retry : BitVec 8) (t : Nat) :
    (retrying retry (min (10 * t) uint64Max)).step (ρ := Unit) ⟨10 * t, 0⟩
        (.timer (min (10 * t) uint64Max, 0) true true) =
      (retrying (retry + 1) (min (10 * (t + 1)) uint64Max), [.request 0 ⟨0, 0, retry + 1, 1, ()⟩]) := by
  have hlt := (retry + 1).isLt
  have hcount : ¬ 255 < (retry + 1).toNat := by omega
  have hnext := retrying_next (retry + 1) (min (10 * t) uint64Max) t
  have hpopped : (retrying retry (min (10 * t) uint64Max)).timers.erase
      (min (10 * t) uint64Max, 0) = [] := List.erase_cons_head ..
  generalize min (10 * t) uint64Max = due at hnext hpopped ⊢
  simp only [Client.step, hpopped]
  unfold Client.callRetry
  change (if (decide (255 < (retry + 1).toNat) || false) = true then _ else _) = _
  rw [if_neg (by simpa using hcount)]
  rw [← hnext]
  rfl

theorem retriedForever_state (t : Nat) :
    retriedForever.state (t + 1) = retrying (BitVec.ofNat 8 t) (min (10 * (t + 1)) uint64Max) := by
  induction t with
  | zero => rfl
  | succ t ih =>
    have hnext : BitVec.ofNat 8 t + 1 = BitVec.ofNat 8 (t + 1) := (BitVec.ofNat_add t 1).symm
    rw [state, ih]
    exact (congrArg Prod.fst (retrying_step _ (t + 1))).trans (by rw [hnext])

theorem retriedForever_outputs (t : Nat) :
    sends (retriedForever.outputs (t + 1)) 0 = t + 1 ∧
    reports (retriedForever.outputs (t + 1)) 0 = 0 := by
  induction t with
  | zero => exact ⟨rfl, rfl⟩
  | succ t ih =>
    have hstep := congrArg Prod.snd (retrying_step (BitVec.ofNat 8 t) (t + 1))
    rw [← retriedForever_state] at hstep
    rw [outputs, sends_append, reports_append, ih.1, ih.2]
    change _ + sends (Client.step _ _ _).2 0 = _ ∧ _ + reports (Client.step _ _ _).2 0 = _
    erw [hstep]
    exact ⟨rfl, rfl⟩

/-- With a count of 255 the byte comes round before it passes the count: the call is sent without
bound and its callback never runs. -/
theorem retriedForever_never_ends :
    ∃ run : CallRun Unit Unit, run.Valid ∧ run.Fair ∧ run.options.reliable = true ∧ run.count = 255 ∧
      accepted (run.outputs 1) 0 = true ∧ (∀ t, reports (run.outputs t) 0 = 0) ∧
      ¬ sends (run.outputs 257) 0 ≤ run.count + 1 := by
  refine ⟨retriedForever, ⟨?_, ?_⟩, ⟨?_, ?_⟩, rfl, rfl, rfl, ?_, ?_⟩
  · intro t
    cases t with
    | zero => trivial
    | succ t =>
      rw [retriedForever_state]
      exact ⟨List.mem_singleton.mpr rfl, min_le_left _ _⟩
  · intro t
    simp only [retriedForever]
    omega
  · intro time
    exact ⟨time, by simp only [retriedForever]; omega⟩
  · intro t due hdue _
    cases t with
    | zero => exact absurd hdue List.not_mem_nil
    | succ t =>
      rw [retriedForever_state] at hdue
      exact ⟨t + 1, le_refl _, .inl ⟨true, true, by rw [List.mem_singleton.mp hdue]; rfl⟩⟩
  · intro t
    cases t with
    | zero => rfl
    | succ t => exact (retriedForever_outputs t).2
  · rw [(retriedForever_outputs 256).1]
    decide

end CallRun

end Tickle
