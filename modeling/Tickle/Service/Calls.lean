import Tickle.Service.Client

/-! # The steps of a Client

`Effect` says everything a step can do to the call slots: leave them alone, take one for a new call,
send a call again with its retry counted, end it with its one report, or drop it with the Client.
What holds of every state (`Tidy`) rests on that alone. The retry count on the wire is a byte: a call
that goes on past 255 retries starts its count again (`retryWraps`).
-/

namespace Tickle

/-- What can happen to a Client. A response names the call it found by its seq_no; the copy of it
may be late, repeated or made up. -/
inductive CallEvent (α ρ : Type) where
  | call (seqNo : CallSeqNo) (encoded : Except CallRet α) (flushed : Flushed) (room : Bool)
  | timer (due : Nat × Nat) (reached room : Bool)
  | response (response : CallResponse ρ) (decodes : Bool)
  | endOldest
  | destroy
  | idle

namespace Client

variable {α ρ : Type}

def step (c : Client α) (read : Reading) : CallEvent α ρ → Client α × List (CallOutput α ρ)
  | .call seqNo encoded flushed room =>
    let (c, outputs, _) := c.call seqNo encoded read flushed room
    (c, outputs)
  | .timer due reached room =>
    { c with timers := c.timers.erase due }.callRetry due.2 read reached room
  | .response response decodes =>
    match c.callingSlot response.seqNo with
    | none => (c, [])
    | some slot => c.processCallresponse slot response decodes read.now
  | .endOldest => c.endOldestCall
  | .destroy => (c.destroy, [])
  | .idle => (c, [])

/-- The scheduler runs an entry it holds, when it is due. -/
def Enabled (c : Client α) (read : Reading) : CallEvent α ρ → Prop
  | .timer due _ _ => due ∈ c.timers ∧ due.1 ≤ read.now
  | _ => True

/-- Slot `slot` holds the outstanding call `call` with the request `request`. -/
def Holds (c : Client α) (slot : Nat) (call : ClientCall α) (request : CallRequest α) : Prop :=
  c.calls[slot]? = some call ∧ call.cache = some request

def Outstanding (c : Client α) (attempt : Nat) : Prop :=
  ∃ slot call request, c.Holds slot call request ∧ call.attempt = attempt

/-- The timer entries of one slot. -/
def slotTimers (c : Client α) (slot : Nat) : List (Nat × Nat) := c.timers.filter (·.2 = slot)

/-- Whether the timer of the call in `slot` would count its retries past the byte they are kept in:
the call is at its 255th, and neither its count nor its deadline ends it now. -/
def retryWraps (c : Client α) (slot now : Nat) : Bool :=
  match c.calls[slot]? with
  | none => false
  | some call =>
    match call.cache with
    | none => false
    | some request =>
      request.retry = 255 && 255 ≤ c.callRetryCount && !c.callPastDeadline call.cacheTime now

/-- The steps that keep to the retry byte and do not take the Client from under its calls. -/
def Sound (c : Client α) (read : Reading) : CallEvent α ρ → Prop
  | .timer due _ _ => c.retryWraps due.2 read.now = false
  | .destroy => ∀ attempt, ¬ c.Outstanding attempt
  | _ => True

/-! ## What a step does -/

section Frames

variable (c : Client α) (slot : Nat)

@[simp] theorem backOffRetryInterval_calls (cacheTime now : Nat) :
    (c.backOffRetryInterval cacheTime now).calls = c.calls := by
  unfold backOffRetryInterval
  split
  · rfl
  · split <;> rfl

@[simp] theorem backOffRetryInterval_timers (cacheTime now : Nat) :
    (c.backOffRetryInterval cacheTime now).timers = c.timers := by
  unfold backOffRetryInterval
  split
  · rfl
  · split <;> rfl

@[simp] theorem backOffRetryInterval_options (cacheTime now : Nat) :
    (c.backOffRetryInterval cacheTime now).options = c.options := by
  unfold backOffRetryInterval
  split
  · rfl
  · split <;> rfl

@[simp] theorem backOffRetryInterval_attempts (cacheTime now : Nat) :
    (c.backOffRetryInterval cacheTime now).attempts = c.attempts := by
  unfold backOffRetryInterval
  split
  · rfl
  · split <;> rfl

theorem noteLatency_frame (resent latency : Nat) :
    (c.noteLatency resent latency).calls = c.calls ∧
    (c.noteLatency resent latency).timers = c.timers ∧
    (c.noteLatency resent latency).options = c.options ∧
    (c.noteLatency resent latency).attempts = c.attempts := by
  unfold noteLatency
  split
  · exact ⟨rfl, rfl, rfl, rfl⟩
  · split <;> exact ⟨rfl, rfl, rfl, rfl⟩

theorem slotTimers_append (time : Nat) :
    (c.timers ++ [(time, slot)]).filter (·.2 = slot) = c.slotTimers slot ++ [(time, slot)] := by
  simp [slotTimers]

theorem slotTimers_append_ne {k : Nat} (h : k ≠ slot) (time : Nat) :
    (c.timers ++ [(time, slot)]).filter (·.2 = k) = c.slotTimers k := by
  simp [slotTimers, h.symm]

theorem slotTimers_erase (due : Nat × Nat) :
    (c.timers.erase due).filter (·.2 = due.2) = (c.slotTimers due.2).erase due := by
  simp only [slotTimers]
  rw [List.erase_filter]

theorem slotTimers_erase_ne {due : Nat × Nat} {k : Nat} (h : k ≠ due.2) :
    (c.timers.erase due).filter (·.2 = k) = c.slotTimers k := by
  simp only [slotTimers]
  rw [← List.erase_filter]
  apply List.erase_of_not_mem
  simp [h.symm]

end Frames

/-- Nothing but slot `slot` differs. -/
structure SameBut (c c' : Client α) (slot : Nat) : Prop where
  options : c'.options = c.options
  calls : ∀ k, k ≠ slot → c'.calls[k]? = c.calls[k]?
  timers : ∀ k, k ≠ slot → c'.slotTimers k = c.slotTimers k

/-- The slot is there and holds no call. -/
def Vacant (c : Client α) (slot : Nat) : Prop :=
  ∃ call, c.calls[slot]? = some call ∧ call.cache = none

/-- The wire copies of attempt `attempt` among the outputs, and only those, each at most once. -/
def Resent (attempt : Nat) (outputs : List (CallOutput α ρ)) : Prop :=
  outputs = [] ∨ ∃ copy, outputs = [.request attempt copy]

/-- Everything one step of a Client can do. -/
inductive Effect (c : Client α) (read : Reading) (event : CallEvent α ρ) :
    Client α → List (CallOutput α ρ) → Prop where
  | quiet {c'} (options : c'.options = c.options) (calls : c'.calls = c.calls)
      (timers : c'.timers = c.timers) (attempts : c'.attempts = c.attempts) : Effect c read event c' []
  | unmade {c' outputs} (slot : Nat) (same : SameBut c c' slot) (free : c.Vacant slot)
      (stays : c'.Vacant slot) (timers : c'.slotTimers slot = c.slotTimers slot)
      (attempts : c'.attempts = c.attempts + 1) (sent : Resent c.attempts outputs) :
      Effect c read event c' outputs
  | made {c' copy} (slot : Nat) (call : ClientCall α) (request : CallRequest α) (time : Nat)
      (same : SameBut c c' slot) (free : c.Vacant slot)
      (holds : c'.Holds slot call request) (number : call.attempt = c.attempts)
      (retry : request.retry = 0)
      (timers : c'.slotTimers slot = c.slotTimers slot ++ [(time, slot)])
      (attempts : c'.attempts = c.attempts + 1) :
      Effect c read event c' [.request c.attempts copy, .accepted c.attempts]
  | resent {c' outputs} (due : Nat × Nat) (call : ClientCall α) (request : CallRequest α) (time : Nat)
      (same : SameBut c c' due.2) (due_mem : due ∈ c.timers)
      (held : c.Holds due.2 call request)
      (holds : c'.Holds due.2 { call with cache := some { request with retry := request.retry + 1 } }
        { request with retry := request.retry + 1 })
      (reliable : c.options.reliable = true)
      (within : (request.retry + 1).toNat ≤ c.callRetryCount)
      (unwrapped : c.Sound read event → 255 ≤ c.callRetryCount → request.retry ≠ 255)
      (timers : c'.slotTimers due.2 = (c.slotTimers due.2).erase due ++ [(time, due.2)])
      (attempts : c'.attempts = c.attempts) (sent : Resent call.attempt outputs) :
      Effect c read event c' outputs
  | postponed {c'} (due : Nat × Nat) (call : ClientCall α) (request : CallRequest α) (time : Nat)
      (same : SameBut c c' due.2) (due_mem : due ∈ c.timers)
      (held : c.Holds due.2 call request) (holds : c'.Holds due.2 call request)
      (unreliable : c.options.reliable = false)
      (timers : c'.slotTimers due.2 = (c.slotTimers due.2).erase due ++ [(time, due.2)])
      (attempts : c'.attempts = c.attempts) : Effect c read event c' []
  | ended {c' sent seqNo returnCode response} (slot : Nat) (call : ClientCall α)
      (request : CallRequest α) (same : SameBut c c' slot)
      (held : c.Holds slot call request) (stays : c'.Vacant slot)
      (timers : c'.slotTimers slot = [] ∨ ∃ due ∈ c.timers, due.2 = slot ∧
        c'.slotTimers slot = (c.slotTimers slot).erase due)
      (attempts : c'.attempts = c.attempts) (sent_resent : Resent call.attempt sent)
      (within : sent ≠ [] → (request.retry + 1).toNat ≤ c.callRetryCount)
      (unwrapped : sent ≠ [] → c.Sound read event → 255 ≤ c.callRetryCount → request.retry ≠ 255) :
      Effect c read event c' (sent ++ [.callback call.attempt seqNo returnCode response])
  | stale {c'} (due : Nat × Nat) (same : SameBut c c' due.2) (calls : c'.calls = c.calls)
      (free : ∀ call request, ¬ c.Holds due.2 call request)
      (timers : c'.slotTimers due.2 = (c.slotTimers due.2).erase due)
      (attempts : c'.attempts = c.attempts) : Effect c read event c' []
  | dropped (leaves : event = .destroy) : Effect c read event c.destroy []

def Acts (c : Client α) (read : Reading) (event : CallEvent α ρ)
    (result : Client α × List (CallOutput α ρ)) : Prop :=
  Effect c read event result.1 result.2

theorem freeSlot_vacant {c : Client α} {slot : Nat} (h : c.freeSlot = some slot) :
    c.Vacant slot := by
  unfold freeSlot at h
  obtain ⟨hlt, hfree, -⟩ := List.findIdx?_eq_some_iff_getElem.mp h
  exact ⟨c.calls[slot], List.getElem?_eq_getElem hlt, by simpa using hfree⟩

theorem Vacant.lt {c : Client α} {slot : Nat} (h : c.Vacant slot) : slot < c.calls.length := by
  obtain ⟨call, hcall, -⟩ := h
  exact (List.getElem?_eq_some_iff.mp hcall).1

theorem Holds.lt {c : Client α} {slot : Nat} {call : ClientCall α} {request : CallRequest α}
    (h : c.Holds slot call request) : slot < c.calls.length :=
  (List.getElem?_eq_some_iff.mp h.1).1

theorem call_effect (c : Client α) (seqNo : CallSeqNo) (encoded : Except CallRet α) (read : Reading)
    (flushed : Flushed) (room : Bool) (event : CallEvent α ρ) :
    Acts c read event ((c.call (ρ := ρ) seqNo encoded read flushed room).1,
      (c.call seqNo encoded read flushed room).2.1) := by
  unfold call Acts
  cases hslot : c.freeSlot with
  | none => exact .quiet rfl rfl rfl rfl
  | some slot =>
    have free := freeSlot_vacant hslot
    have hlt := free.lt
    dsimp only
    split
    · exact .quiet rfl rfl rfl rfl
    · cases encoded with
      | error ret => exact .quiet rfl rfl rfl rfl
      | ok body =>
        dsimp only
        by_cases hok : flushed.ok = true
        · have hreached := flushed.reached_of_ok hok
          simp only [hok, hreached, Bool.not_true, Bool.false_eq_true, if_false, if_true]
          cases room with
          | false =>
            refine .unmade slot ⟨rfl, ?_, fun _ _ => rfl⟩ free
              ⟨⟨none, read.now, c.callsMade, c.attempts⟩, ?_, rfl⟩ rfl rfl (.inr ⟨_, rfl⟩)
            · intro k hk
              simp [setCall, List.getElem?_set_ne hk.symm]
            · simp [setCall, hlt]
          | true =>
            refine .made slot ⟨some ⟨c.endpointId, seqNo, 0, c.clientTag, body⟩, read.now, c.callsMade,
              c.attempts⟩ _ _ ⟨rfl, ?_, ?_⟩ free ⟨?_, rfl⟩ rfl rfl (slotTimers_append c slot _) rfl
            · intro k hk
              simp [setCall, schedule, List.getElem?_set_ne hk.symm]
            · intro k hk
              exact slotTimers_append_ne c slot hk _
            · simp [setCall, schedule, hlt]
        · have hbad : flushed.ok = false := by simpa using hok
          simp only [hbad, Bool.not_false, if_true]
          refine .unmade slot ⟨rfl, fun _ _ => rfl, fun _ _ => rfl⟩ free free rfl rfl ?_
          split
          · exact .inr ⟨_, rfl⟩
          · exact .inl rfl

theorem Holds.congr {c : Client α} {slot : Nat} {call : ClientCall α} {request : CallRequest α}
    (h : c.Holds slot call request) {call' : ClientCall α} (h' : c.calls[slot]? = some call') :
    call' = call := by
  rw [h.1] at h'
  exact (Option.some.inj h').symm

/-- The scheduler has taken `due` out of the heap before it runs it. -/
def popped (c : Client α) (due : Nat × Nat) : Client α := { c with timers := c.timers.erase due }

theorem endCallUnanswered_effect {c : Client α} (c' : Client α) {due : Nat × Nat} {call call' : ClientCall α}
    {request : CallRequest α} {sent : List (CallOutput α ρ)} (hdue : due ∈ c.timers)
    (held : c.Holds due.2 call request) (hattempt : call'.attempt = call.attempt)
    (options : c'.options = c.options) (calls : ∀ k, k ≠ due.2 → c'.calls[k]? = c.calls[k]?)
    (length : c'.calls.length = c.calls.length) (timers : c'.timers = c.timers.erase due)
    (attempts : c'.attempts = c.attempts) (hsent : Resent call.attempt sent)
    (within : sent ≠ [] → (request.retry + 1).toNat ≤ c.callRetryCount) (seqNo : CallSeqNo)
    {read : Reading} {event : CallEvent α ρ}
    (unwrapped : sent ≠ [] → c.Sound read event → 255 ≤ c.callRetryCount → request.retry ≠ 255) :
    Acts c read event ((c'.endCallUnanswered (ρ := ρ) due.2 call' seqNo).1,
      sent ++ (c'.endCallUnanswered due.2 call' seqNo).2) := by
  have hlt := held.lt
  unfold endCallUnanswered Acts
  rw [hattempt]
  refine .ended due.2 call request ⟨options, ?_, ?_⟩ held ⟨⟨none, call'.cacheTime, call'.index, call.attempt⟩, ?_, rfl⟩
    (.inr ⟨due, hdue, rfl, ?_⟩) attempts hsent within unwrapped
  · intro k hk
    simp only [setCall]
    rw [List.getElem?_set_ne hk.symm, calls k hk]
  · intro k hk
    simp only [setCall, slotTimers, timers]
    exact slotTimers_erase_ne c hk
  · simp [setCall, length, hlt]
  · simp only [setCall, slotTimers, timers]
    exact slotTimers_erase c due

theorem rescheduled_same (c : Client α) (due : Nat × Nat) (time : Nat) {c' : Client α}
    (options : c'.options = c.options) (calls : ∀ k, k ≠ due.2 → c'.calls[k]? = c.calls[k]?)
    (timers : c'.timers = c.timers.erase due) : SameBut c (c'.schedule time due.2) due.2 := by
  refine ⟨options, calls, ?_⟩
  intro k hk
  simp only [schedule, slotTimers, List.filter_append, timers]
  rw [slotTimers_erase_ne c hk]
  simp [slotTimers, hk.symm]

theorem rescheduled_timers (c : Client α) (due : Nat × Nat) (time : Nat) {c' : Client α}
    (timers : c'.timers = c.timers.erase due) :
    (c'.schedule time due.2).slotTimers due.2 =
      (c.slotTimers due.2).erase due ++ [(time, due.2)] := by
  simp only [schedule, slotTimers, List.filter_append, timers]
  rw [slotTimers_erase c due]
  simp [slotTimers]

theorem callRetry_effect (c : Client α) {due : Nat × Nat} (hdue : due ∈ c.timers) (read : Reading)
    (reached room : Bool) :
    Acts (ρ := ρ) c read (.timer due reached room)
      ((c.popped due).callRetry due.2 read reached room) := by
  have stale : (∀ call request, ¬ c.Holds due.2 call request) →
      Acts (ρ := ρ) c read (.timer due reached room) (c.popped due, []) := by
    intro free
    refine .stale due ⟨rfl, fun _ _ => rfl, ?_⟩ rfl free (slotTimers_erase c due) rfl
    intro k hk
    exact slotTimers_erase_ne c hk
  unfold callRetry
  cases hcall : (c.popped due).calls[due.2]? with
  | none =>
    apply stale
    intro call request held
    simp [popped, held.1] at hcall
  | some call =>
    dsimp only
    cases hcache : call.cache with
    | none =>
      apply stale
      intro call' request held
      have := held.congr hcall
      subst this
      simp [held.2] at hcache
    | some request =>
      have held : c.Holds due.2 call request := ⟨hcall, hcache⟩
      have hlt := held.lt
      dsimp only
      by_cases hrel : c.options.reliable = true
      · have hrel' : (c.popped due).options.reliable = true := hrel
        simp only [hrel', Bool.not_true, Bool.false_eq_true, if_false]
        have others : ∀ k, k ≠ due.2 → ((c.popped due).setCall due.2 { call with
            cache := some { request with retry := request.retry + 1 } }).calls[k]? = c.calls[k]? := by
          intro k hk
          simp [setCall, popped, List.getElem?_set_ne hk.symm]
        split
        · refine endCallUnanswered_effect _ hdue held rfl ?_ ?_ ?_ ?_ ?_ (.inl rfl) (by simp) _ (by simp)
          · simp [setCall, popped]
          · intro k hk
            simpa using others k hk
          · simp [setCall, popped]
          · simp [setCall, popped]
          · simp [setCall, popped]
        · next hgo =>
          have within : (request.retry + 1).toNat ≤ c.callRetryCount := by
            simp only [Bool.or_eq_true, decide_eq_true_eq, not_or, not_lt] at hgo
            exact hgo.1
          have unwrapped : c.Sound (ρ := ρ) read (.timer due reached room) → 255 ≤ c.callRetryCount →
              request.retry ≠ 255 := by
            intro sound full wrapped
            simp only [Bool.or_eq_true, decide_eq_true_eq, not_or, Bool.not_eq_true] at hgo
            simp only [Sound, retryWraps, held.1, held.2, wrapped, full] at sound
            have early : c.callPastDeadline call.cacheTime read.now = false := hgo.2
            simp [early] at sound
          have hsent : Resent call.attempt (if reached = true then
              [CallOutput.request call.attempt { request with retry := request.retry + 1 }] else
              ([] : List (CallOutput α ρ))) := by
            split
            · exact .inr ⟨_, rfl⟩
            · exact .inl rfl
          cases room with
          | true =>
            simp only [if_true]
            refine .resent due call request _ (rescheduled_same c due _ rfl ?_ rfl) hdue held
              ⟨?_, rfl⟩ hrel within unwrapped (rescheduled_timers c due _ rfl) rfl hsent
            · intro k hk
              exact others k hk
            · simp [setCall, schedule, popped, hlt]
          | false =>
            refine endCallUnanswered_effect ((c.popped due).setCall due.2 _) hdue held rfl rfl ?_ ?_ rfl
              rfl hsent (fun _ => within) _ (fun _ => unwrapped)
            · intro k hk
              exact others k hk
            · simp [setCall, popped]
      · have hbe : c.options.reliable = false := by simpa using hrel
        have hbe' : (c.popped due).options.reliable = false := hbe
        simp only [hbe', Bool.not_false, if_true]
        unfold bestEffortCallTimer
        dsimp only
        split
        · exact endCallUnanswered_effect (c.popped due) hdue held rfl rfl (fun _ _ => rfl) rfl rfl rfl
            (.inl rfl) (by simp) _ (by simp)
        · split
          · refine .postponed due call request _ (rescheduled_same c due _ rfl (fun _ _ => rfl) rfl)
              hdue held held hbe (rescheduled_timers c due _ rfl) rfl
          · exact endCallUnanswered_effect (c.popped due) hdue held rfl rfl (fun _ _ => rfl) rfl rfl rfl
              (.inl rfl) (by simp) _ (by simp)

theorem unschedule_timers (c : Client α) (slot : Nat) : (c.unschedule slot).slotTimers slot = [] := by
  simp [unschedule, slotTimers, List.filter_filter]

theorem unschedule_timers_ne (c : Client α) {slot k : Nat} (h : k ≠ slot) :
    (c.unschedule slot).slotTimers k = c.slotTimers k := by
  simp only [unschedule, slotTimers, List.filter_filter]
  apply List.filter_congr
  intro entry _
  by_cases hk : entry.2 = k
  · simp [hk, h]
  · simp [hk]

/-- A call ended with its timer taken back: by its response, or by the caller. -/
theorem unscheduled_effect {c : Client α} {slot : Nat} {call : ClientCall α} {request : CallRequest α}
    (held : c.Holds slot call request) (c' : Client α) (options : c'.options = c.options)
    (calls : c'.calls = c.calls.set slot { call with cache := none })
    (timers : c'.timers = (c.unschedule slot).timers) (attempts : c'.attempts = c.attempts)
    (seqNo : CallSeqNo) (returnCode : Int) (response : Option ρ) (read : Reading)
    (event : CallEvent α ρ) : Acts c read event (c', [.callback call.attempt seqNo returnCode response]) := by
  have hlt := held.lt
  have hslot : ∀ k, c'.slotTimers k = (c.unschedule slot).slotTimers k := by
    intro k
    simp only [slotTimers, timers]
  change Effect c read event c' ([] ++ [.callback call.attempt seqNo returnCode response])
  refine .ended slot call request ⟨options, ?_, ?_⟩ held
    ⟨⟨none, call.cacheTime, call.index, call.attempt⟩, ?_, rfl⟩
    (.inl ((hslot slot).trans (unschedule_timers c slot))) attempts (.inl rfl) (by simp) (by simp)
  · intro k hk
    rw [calls, List.getElem?_set_ne hk.symm]
  · intro k hk
    rw [hslot k, unschedule_timers_ne c hk]
  · simp [calls, hlt]

theorem processCallresponse_effect (c : Client α) (slot : Nat) (response : CallResponse ρ)
    (decodes : Bool) (read : Reading) (event : CallEvent α ρ) :
    Acts c read event (c.processCallresponse slot response decodes read.now) := by
  unfold processCallresponse
  split
  · exact .quiet rfl rfl rfl rfl
  · next call hcall =>
    split
    · exact .quiet rfl rfl rfl rfl
    · next request hcache =>
      dsimp only
      split
      · exact .quiet rfl rfl rfl rfl
      · obtain ⟨hcalls, htimers, hoptions, hattempts⟩ := noteLatency_frame
          ((c.setCall slot { call with cache := none }).unschedule slot) request.retry.toNat
          (callLatency call.cacheTime read.now)
        exact unscheduled_effect ⟨hcall, hcache⟩ _ hoptions hcalls htimers hattempts _ _ _ _ _

theorem endOldestCall_effect (c : Client α) (read : Reading) (event : CallEvent α ρ) :
    Acts c read event c.endOldestCall := by
  unfold endOldestCall
  split
  · exact .quiet rfl rfl rfl rfl
  · next slot _ =>
    split
    · exact .quiet rfl rfl rfl rfl
    · next call hcall =>
      split
      · exact .quiet rfl rfl rfl rfl
      · next request hcache =>
        exact unscheduled_effect ⟨hcall, hcache⟩ ((c.unschedule slot).setCall slot _) rfl rfl rfl rfl
          _ _ _ _ _

theorem step_effect {c : Client α} {read : Reading} {event : CallEvent α ρ}
    (h : c.Enabled read event) : Acts c read event (c.step read event) := by
  cases event with
  | call seqNo encoded flushed room => exact call_effect c seqNo encoded read flushed room _
  | timer due reached room => exact callRetry_effect c h.1 read reached room
  | response response decodes =>
    simp only [step]
    split
    · exact .quiet rfl rfl rfl rfl
    · exact processCallresponse_effect c _ response decodes read _
  | endOldest => exact endOldestCall_effect c read _
  | destroy => exact .dropped rfl
  | idle => exact .quiet rfl rfl rfl rfl

theorem Effect.options {c c' : Client α} {read : Reading} {event : CallEvent α ρ}
    {outputs : List (CallOutput α ρ)} (h : Effect c read event c' outputs) :
    c'.options = c.options := by
  cases h with
  | quiet options => exact options
  | unmade slot same => exact same.options
  | made slot call request time same => exact same.options
  | resent due call request time same => exact same.options
  | postponed due call request time same => exact same.options
  | ended slot call request same => exact same.options
  | stale due same => exact same.options
  | dropped => rfl

/-! ## What holds of every state -/

/-- A call slot holds a call and its one timer, or neither; calls in different slots are different
calls; none has been sent again more often than its count. -/
structure Tidy (c : Client α) : Prop where
  armed : ∀ {slot call request}, c.Holds slot call request →
    ∃ time, c.slotTimers slot = [(time, slot)]
  disarmed : ∀ {slot}, c.Vacant slot → c.slotTimers slot = []
  numbered : ∀ {slot call request}, c.Holds slot call request → call.attempt < c.attempts
  apart : ∀ {i j a b p q}, c.Holds i a p → c.Holds j b q → a.attempt = b.attempt → i = j
  counted : ∀ {slot call request}, c.Holds slot call request → c.options.reliable = true →
    request.retry.toNat ≤ c.callRetryCount

theorem callRetryCount_congr {c c' : Client α} (h : c'.options = c.options) :
    c'.callRetryCount = c.callRetryCount := by
  unfold callRetryCount retrySettings
  rw [h]

theorem Vacant.not_holds {c : Client α} {slot : Nat} (h : c.Vacant slot) {call : ClientCall α}
    {request : CallRequest α} : ¬ c.Holds slot call request := by
  rintro ⟨hcall, hcache⟩
  obtain ⟨call', hcall', hfree⟩ := h
  rw [hcall] at hcall'
  cases hcall'
  simp [hcache] at hfree

theorem SameBut.holds {c c' : Client α} {slot k : Nat} (h : SameBut c c' slot) (hk : k ≠ slot)
    {call : ClientCall α} {request : CallRequest α} :
    c'.Holds k call request ↔ c.Holds k call request := by
  simp only [Holds, h.calls k hk]

theorem SameBut.vacant {c c' : Client α} {slot k : Nat} (h : SameBut c c' slot) (hk : k ≠ slot) :
    c'.Vacant k ↔ c.Vacant k := by
  simp only [Vacant, h.calls k hk]

/-- What the one slot a step touches has to satisfy. -/
structure TidyAt (c c' : Client α) (slot : Nat) : Prop where
  armed : ∀ {call request}, c'.Holds slot call request → ∃ time, c'.slotTimers slot = [(time, slot)]
  disarmed : c'.Vacant slot → c'.slotTimers slot = []
  numbered : ∀ {call request}, c'.Holds slot call request → call.attempt < c'.attempts
  apart : ∀ {call request k b q}, c'.Holds slot call request → k ≠ slot → c.Holds k b q →
    call.attempt ≠ b.attempt
  counted : ∀ {call request}, c'.Holds slot call request → c.options.reliable = true →
    request.retry.toNat ≤ c.callRetryCount

theorem Tidy.of_slot {c c' : Client α} {slot : Nat} (h : c.Tidy) (same : SameBut c c' slot)
    (grows : c.attempts ≤ c'.attempts) (at_slot : TidyAt c c' slot) : c'.Tidy where
  armed := by
    intro k call request held
    by_cases hk : k = slot
    · subst hk
      exact at_slot.armed held
    · rw [same.timers k hk]
      exact h.armed ((same.holds hk).mp held)
  disarmed := by
    intro k free
    by_cases hk : k = slot
    · subst hk
      exact at_slot.disarmed free
    · rw [same.timers k hk]
      exact h.disarmed ((same.vacant hk).mp free)
  numbered := by
    intro k call request held
    by_cases hk : k = slot
    · subst hk
      exact at_slot.numbered held
    · exact lt_of_lt_of_le (h.numbered ((same.holds hk).mp held)) grows
  apart := by
    intro i j a b p q hi hj hab
    by_cases his : i = slot
    · by_cases hjs : j = slot
      · rw [his, hjs]
      · subst his
        exact absurd hab (at_slot.apart hi hjs ((same.holds hjs).mp hj))
    · by_cases hjs : j = slot
      · subst hjs
        exact absurd hab.symm (at_slot.apart hj his ((same.holds his).mp hi))
      · exact h.apart ((same.holds his).mp hi) ((same.holds hjs).mp hj) hab
  counted := by
    intro k call request held hrel
    rw [same.options] at hrel
    rw [callRetryCount_congr same.options]
    by_cases hk : k = slot
    · subst hk
      exact at_slot.counted held hrel
    · exact h.counted ((same.holds hk).mp held) hrel

theorem TidyAt.of_vacant {c c' : Client α} {slot : Nat} (free : c'.Vacant slot)
    (timers : c'.slotTimers slot = []) : TidyAt c c' slot where
  armed held := absurd held free.not_holds
  disarmed _ := timers
  numbered held := absurd held free.not_holds
  apart held := absurd held free.not_holds
  counted held := absurd held free.not_holds

theorem TidyAt.of_holds {c c' : Client α} {slot time : Nat} {call : ClientCall α}
    {request : CallRequest α} (held : c'.Holds slot call request)
    (timers : c'.slotTimers slot = [(time, slot)]) (numbered : call.attempt < c'.attempts)
    (apart : ∀ {k b q}, k ≠ slot → c.Holds k b q → call.attempt ≠ b.attempt)
    (counted : c.options.reliable = true → request.retry.toNat ≤ c.callRetryCount) :
    TidyAt c c' slot := by
  have unique : ∀ {call' request'}, c'.Holds slot call' request' → call' = call ∧ request' = request := by
    intro call' request' held'
    have hcall := held.congr held'.1
    subst hcall
    have := held'.2.symm.trans held.2
    exact ⟨rfl, Option.some.inj this⟩
  constructor
  · intro _ _ _
    exact ⟨time, timers⟩
  · intro free
    exact absurd held free.not_holds
  · intro _ _ held'
    rw [(unique held').1]
    exact numbered
  · intro _ _ k b q held' hk hb
    rw [(unique held').1]
    exact apart hk hb
  · intro _ _ held' hrel
    rw [(unique held').2]
    exact counted hrel

/-- The timer that runs is the one its slot has. -/
theorem Tidy.erase_due {c : Client α} (h : c.Tidy) {due : Nat × Nat} (hdue : due ∈ c.timers)
    {call : ClientCall α} {request : CallRequest α} (held : c.Holds due.2 call request) :
    (c.slotTimers due.2).erase due = [] := by
  obtain ⟨time, htimers⟩ := h.armed held
  have hmem : due ∈ c.slotTimers due.2 := by simp [slotTimers, hdue]
  rw [htimers] at hmem ⊢
  rw [← List.mem_singleton.mp hmem]
  exact List.erase_cons_head ..

theorem Tidy.destroy {c : Client α} (h : c.Tidy) : c.destroy.Tidy := by
  have none_held : ∀ slot call request, ¬ c.destroy.Holds slot call request := by
    rintro slot call request ⟨hcall, hcache⟩
    simp only [Client.destroy, List.getElem?_map, Option.map_eq_some_iff] at hcall
    obtain ⟨old, -, rfl⟩ := hcall
    simp at hcache
  constructor
  · intro slot call request held
    exact absurd held (none_held _ _ _)
  · intro slot free
    obtain ⟨call, hcall, -⟩ := free
    simp only [Client.destroy, List.getElem?_map, Option.map_eq_some_iff] at hcall
    obtain ⟨old, hold, -⟩ := hcall
    simp only [Client.destroy, slotTimers, List.filter_filter, List.filter_eq_nil_iff]
    intro entry hentry hslot
    simp only [Bool.and_eq_true, decide_eq_true_eq] at hslot
    obtain ⟨rfl, hnone⟩ := hslot
    have hfree : old.cache = none := by simpa [hold] using hnone
    have hempty := h.disarmed ⟨old, hold, hfree⟩
    have hmem : entry ∈ c.slotTimers entry.2 := by simp [slotTimers, hentry]
    simp [hempty] at hmem
  · intro slot call request held
    exact absurd held (none_held _ _ _)
  · intro i j a b p q hi
    exact absurd hi (none_held _ _ _)
  · intro slot call request held
    exact absurd held (none_held _ _ _)

theorem Effect.tidy {c c' : Client α} {read : Reading} {event : CallEvent α ρ}
    {outputs : List (CallOutput α ρ)} (h : Effect c read event c' outputs) (ht : c.Tidy) : c'.Tidy := by
  cases h with
  | quiet options calls timers attempts =>
    have hsame : SameBut c c' 0 := ⟨options, fun k _ => by rw [calls], fun k _ => by
      simp only [slotTimers, timers]⟩
    have hholds : ∀ {k call request}, c'.Holds k call request ↔ c.Holds k call request := by
      simp only [Holds, calls, implies_true]
    have hvacant : ∀ {k}, c'.Vacant k ↔ c.Vacant k := by simp only [Vacant, calls, implies_true]
    have htimers : ∀ k, c'.slotTimers k = c.slotTimers k := by simp only [slotTimers, timers, implies_true]
    apply ht.of_slot hsame (by omega)
    constructor
    · intro _ _ held
      rw [htimers]
      exact ht.armed (hholds.mp held)
    · intro free
      rw [htimers]
      exact ht.disarmed (hvacant.mp free)
    · intro _ _ held
      rw [attempts]
      exact ht.numbered (hholds.mp held)
    · intro _ _ k b q held hk hb heq
      exact hk (ht.apart hb (hholds.mp held) heq.symm)
    · intro _ _ held
      exact ht.counted (hholds.mp held)
  | unmade slot same free stays timers attempts sent =>
    exact ht.of_slot same (by omega) (.of_vacant stays (by rw [timers, ht.disarmed free]))
  | made slot call request time same free holds number retry timers attempts =>
    refine ht.of_slot same (by omega) (.of_holds holds (by rw [timers, ht.disarmed free]; rfl)
      (by omega) ?_ (by simp [retry]))
    intro k b q _ hb
    have := ht.numbered hb
    omega
  | resent due call request time same due_mem held holds reliable within unwrapped timers attempts sent =>
    refine ht.of_slot same (by omega) (.of_holds holds
      (by rw [timers, ht.erase_due due_mem held]; rfl) ?_ ?_ (fun _ => within))
    · have := ht.numbered held
      rwa [attempts]
    · intro k b q hk hb heq
      exact hk (ht.apart hb held heq.symm)
  | postponed due call request time same due_mem held holds unreliable timers attempts =>
    refine ht.of_slot same (by omega) (.of_holds holds
      (by rw [timers, ht.erase_due due_mem held]; rfl) ?_ ?_ (by simp [unreliable]))
    · rw [attempts]
      exact ht.numbered held
    · intro k b q hk hb heq
      exact hk (ht.apart hb held heq.symm)
  | ended slot call request same held stays timers attempts sent_resent within unwrapped =>
    refine ht.of_slot same (by omega) (.of_vacant stays ?_)
    obtain hnil | ⟨due, hdue, rfl, htimers⟩ := timers
    · exact hnil
    · rw [htimers, ht.erase_due hdue held]
  | stale due same calls free timers attempts =>
    have hholds : ∀ {call request}, ¬ c'.Holds due.2 call request := by
      intro call request held
      simp only [Holds, calls] at held
      exact free call request held
    refine ht.of_slot same (by omega) ⟨?_, ?_, ?_, ?_, ?_⟩
    · intro _ _ held
      exact absurd held hholds
    · rintro ⟨call, hcall, hcache⟩
      rw [calls] at hcall
      rw [timers, ht.disarmed ⟨call, hcall, hcache⟩]
      rfl
    · intro _ _ held
      exact absurd held hholds
    · intro _ _ _ _ _ held
      exact absurd held hholds
    · intro _ _ held
      exact absurd held hholds
  | dropped leaves => exact ht.destroy

end Client

end Tickle
