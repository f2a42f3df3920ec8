import Tickle.Service.Answers

/-! # Requests of many threads

`rmw_send_request()` reserves a call slot under `response_mutex`, makes the call under the context lock and records which sequence id
core's 16-bit number stands for under both. `client_callback()` runs under the context lock, finds the record by that number and files the
response. The threads and core take their steps in any order; a step is what is done under one lock.
-/

namespace Tickle

/-! ## The numbers of a Client's calls -/

namespace Client

variable {α ρ : Type}

/-- The call in a slot: its name among the Client's, and core's number for it. -/
def number (c : Client α) (slot : Nat) : Option (Nat × CallSeqNo) :=
  (c.calls[slot]?).bind fun call => call.cache.map fun request => (call.attempt, request.seqNo)

/-- What is reported of a call to the callback. -/
structure Report (ρ : Type) where
  attempt : Nat
  seqNo : CallSeqNo
  returnCode : Int
  response : Option ρ

def reportOf : CallOutput α ρ → Option (Report ρ)
  | .callback attempt seqNo returnCode response => some ⟨attempt, seqNo, returnCode, response⟩
  | .accepted _ => none
  | .request _ _ => none

def reports (outputs : List (CallOutput α ρ)) : List (Report ρ) := outputs.filterMap reportOf

/-- A step that makes no call: every call goes on, or one is over and that is reported. -/
inductive Goes (c : Client α) (result : Client α × List (CallOutput α ρ)) : Prop
  | on (numbers : result.1.number = c.number) (silent : reports result.2 = [])
  | ended (slot : Nat) (report : Report ρ) (held : c.number slot = some (report.attempt, report.seqNo))
      (numbers : ∀ i, result.1.number i = if i = slot then none else c.number i) (told : reports result.2 = [report])

variable {c : Client α} {slot : Nat} {call : ClientCall α} {request : CallRequest α}

theorem Holds.number (holds : c.Holds slot call request) : c.number slot = some (call.attempt, request.seqNo) := by
  unfold Client.number
  rw [holds.1, Option.bind_some, holds.2, Option.map_some]

theorem number_set (c' : Client α) (call' : ClientCall α) (inside : slot < c.calls.length) (calls : c'.calls = c.calls.set slot call') (i : Nat) :
    c'.number i = if i = slot then call'.cache.map (fun request => (call'.attempt, request.seqNo)) else c.number i := by
  unfold Client.number
  rw [calls]
  by_cases same : i = slot
  · subst same
    rw [if_pos rfl, List.getElem?_set_self inside, Option.bind_some]
  · rw [if_neg same, List.getElem?_set_ne (Ne.symm same)]

/-- A call that goes on under its number. -/
theorem goes_on (result : Client α × List (CallOutput α ρ)) (call' : ClientCall α) (holds : c.Holds slot call request)
    (calls : result.1.calls = c.calls.set slot call')
    (same : call'.cache.map (fun request => (call'.attempt, request.seqNo)) = some (call.attempt, request.seqNo))
    (silent : reports result.2 = []) : Goes c result := by
  refine .on (funext fun i => ?_) silent
  rw [number_set result.1 _ holds.lt calls]
  split
  next here => rw [here, same, holds.number]
  · rfl

/-- A call that is over. -/
theorem goes_over (result : Client α × List (CallOutput α ρ)) (call' : ClientCall α) (holds : c.Holds slot call request)
    (calls : result.1.calls = c.calls.set slot { call' with cache := none }) (returnCode : Int) (response : Option ρ)
    (told : reports result.2 = [⟨call.attempt, request.seqNo, returnCode, response⟩]) : Goes c result := by
  refine .ended slot _ holds.number (fun i => ?_) told
  rw [number_set result.1 _ holds.lt calls]
  rfl

theorem timer_goes (c : Client α) (read : Reading) (due : Nat × Nat) (reached room : Bool) :
    Goes (ρ := ρ) c (c.step read (.timer due reached room)) := by
  simp only [step]
  unfold callRetry
  split
  · exact .on rfl rfl
  · next call hcall =>
    split
    · exact .on rfl rfl
    · next request hcache =>
      have holds : c.Holds due.2 call request := ⟨hcall, hcache⟩
      split
      · unfold bestEffortCallTimer
        dsimp only
        split
        · exact goes_over _ call holds rfl callTimeout none rfl
        · split
          · exact .on rfl rfl
          · exact goes_over _ call holds rfl callTimeout none rfl
      · have quiet : reports (if reached then [.request call.attempt { request with retry := request.retry + 1 }] else
            ([] : List (CallOutput α ρ))) = [] := by
          split
          · rfl
          · rfl
        dsimp only
        split
        · apply goes_over _ { call with cache := none } holds ?_ callTimeout none rfl
          simp [endCallUnanswered, setCall, backOffRetryInterval_calls]
        · split
          · exact goes_on _ { call with cache := some { request with retry := request.retry + 1 } } holds rfl rfl quiet
          · apply goes_over _ { call with cache := none } holds ?_ callTimeout none ?_
            · simp [endCallUnanswered, setCall]
            · unfold reports at quiet ⊢
              rw [List.filterMap_append, quiet]
              rfl

theorem response_goes (c : Client α) (read : Reading) (response : CallResponse ρ) (decodes : Bool) :
    Goes c (c.step read (.response response decodes)) := by
  simp only [step]
  split
  · exact .on rfl rfl
  · next slot hslot =>
    unfold processCallresponse
    split
    · exact .on rfl rfl
    · next call hcall =>
      split
      · exact .on rfl rfl
      · next request hcache =>
        have holds : c.Holds slot call request := ⟨hcall, hcache⟩
        dsimp only
        split
        · exact .on rfl rfl
        · obtain ⟨hlt, hnumber, -⟩ := List.findIdx?_eq_some_iff_getElem.mp hslot
          rw [List.getElem?_eq_getElem hlt] at hcall
          cases hcall
          simp only [hcache, Option.any_some, decide_eq_true_eq] at hnumber
          rw [← hnumber]
          exact goes_over _ c.calls[slot] holds (noteLatency_frame _ _ _).1 _ _ rfl

theorem endOldestCall_goes (c : Client α) : Goes (ρ := ρ) c c.endOldestCall := by
  unfold endOldestCall
  split
  · exact .on rfl rfl
  · next slot _ =>
    split
    · exact .on rfl rfl
    · next call hcall =>
      split
      · exact .on rfl rfl
      · next request hcache =>
        exact goes_over _ call (show c.Holds slot call request from ⟨hcall, hcache⟩) rfl callTimeout none rfl

theorem endCallUnanswered_reports (c : Client α) (slot : Nat) (call : ClientCall α) (seqNo : CallSeqNo) (report : Report ρ)
    (mem : report ∈ reports (c.endCallUnanswered (ρ := ρ) slot call seqNo).2) : report.response = none := by
  simp only [endCallUnanswered, reports, List.filterMap_cons, reportOf, List.filterMap_nil, List.mem_singleton] at mem
  rw [mem]

/-- A call that its timer ends has no response. -/
theorem timer_reports (c : Client α) (read : Reading) (due : Nat × Nat) (reached room : Bool) (report : Report ρ)
    (mem : report ∈ reports (c.step (ρ := ρ) read (.timer due reached room)).2) : report.response = none := by
  simp only [step] at mem
  unfold callRetry at mem
  split at mem
  · cases mem
  · split at mem
    · cases mem
    · split at mem
      · unfold bestEffortCallTimer at mem
        dsimp only at mem
        split at mem
        · exact endCallUnanswered_reports _ _ _ _ report mem
        · split at mem
          · cases mem
          · exact endCallUnanswered_reports _ _ _ _ report mem
      · dsimp only at mem
        split at mem
        · exact endCallUnanswered_reports _ _ _ _ report mem
        · split at mem
          · split at mem
            · cases mem
            · cases mem
          · unfold reports at mem
            dsimp only at mem
            rw [List.filterMap_append, List.mem_append] at mem
            rcases mem with sent | ended
            · split at sent
              · cases sent
              · cases sent
            · exact endCallUnanswered_reports _ _ _ _ report ended

theorem endOldestCall_reports (c : Client α) (report : Report ρ) (mem : report ∈ reports (c.endOldestCall (ρ := ρ)).2) :
    report.response = none := by
  unfold endOldestCall at mem
  split at mem
  · cases mem
  · split at mem
    · cases mem
    · split at mem
      · cases mem
      · exact endCallUnanswered_reports _ _ _ _ report mem

/-- The response reported is the one that came. -/
theorem response_reports (c : Client α) (read : Reading) (response : CallResponse ρ) (decodes : Bool) (report : Report ρ)
    (mem : report ∈ reports (c.step read (.response response decodes)).2) :
    report.response = none ∨ report.response = some response.body := by
  simp only [step] at mem
  split at mem
  · cases mem
  · unfold processCallresponse at mem
    split at mem
    · cases mem
    · split at mem
      · cases mem
      · dsimp only at mem
        split at mem
        · cases mem
        · simp only [reports, List.filterMap_cons, reportOf, List.filterMap_nil, List.mem_singleton] at mem
          rw [mem]
          dsimp only
          split
          · exact .inr rfl
          · exact .inl rfl

theorem callback_of_report {outputs : List (CallOutput α ρ)} {report : Report ρ} (mem : report ∈ reports outputs) :
    .callback report.attempt report.seqNo report.returnCode report.response ∈ outputs := by
  obtain ⟨output, shown, told⟩ := List.mem_filterMap.mp mem
  cases output with
  | accepted _ => cases told
  | request _ _ => cases told
  | callback attempt seqNo returnCode response =>
    cases told
    exact shown

/-- A call made takes a free slot under its number; one that is not leaves the calls as they are. -/
theorem call_number (c : Client α) (seqNo : CallSeqNo) {encoded : Except CallRet α} (fails : encoded ≠ .error .ok) (read : Reading)
    (flushed : Flushed) (room : Bool) :
    ((c.call (ρ := ρ) seqNo encoded read flushed room).2.2 ≠ .ok ∧
        (c.call (ρ := ρ) seqNo encoded read flushed room).1.number = c.number) ∨
      ((c.call (ρ := ρ) seqNo encoded read flushed room).2.2 = .ok ∧
        ∃ slot, c.number slot = none ∧ ∀ i, (c.call (ρ := ρ) seqNo encoded read flushed room).1.number i =
          if i = slot then some (c.attempts, seqNo) else c.number i) := by
  unfold Client.call
  split
  · exact .inl ⟨by simp, rfl⟩
  · next slot hslot =>
    obtain ⟨old, there, free⟩ := freeSlot_vacant hslot
    have inside := (freeSlot_vacant hslot).lt
    have vacant : c.number slot = none := by
      unfold Client.number
      rw [there, Option.bind_some, free, Option.map_none]
    split
    · exact .inl ⟨by simp, rfl⟩
    · split
      · next ret => exact .inl ⟨fun accepted => fails (congrArg _ accepted), rfl⟩
      · next body =>
        dsimp only
        split
        · exact .inl ⟨by simp, rfl⟩
        · split
          · refine .inl ⟨by simp, funext fun i => ?_⟩
            rw [number_set _ ⟨none, read.now, c.callsMade, c.attempts⟩ inside (by simp [setCall])]
            split
            next here => rw [here, vacant, Option.map_none]
            · rfl
          · refine .inr ⟨rfl, slot, vacant, fun i => ?_⟩
            rw [number_set _ ⟨some ⟨c.endpointId, seqNo, 0, c.clientTag, body⟩, read.now, c.callsMade, c.attempts⟩ inside
              (by simp [setCall, schedule])]
            rfl

end Client

namespace Rmw

variable {α ρ : Type}

/-- `rmw_tickle_client_call_t`, of a call that is `used`. -/
structure RmwCall where
  coreSeqNo : CallSeqNo
  sequenceId : Nat
  deriving DecidableEq, Repr

/-- Where a thread is in `rmw_send_request()`. `via` tells the two loops apart: a round of `call_ending_the_oldest()`, or
`call_waiting_for_room()`. -/
inductive SendStage
  | idle
  /-- In `reserve_slot_locked()`, waiting while every slot is in flight. -/
  | reserving
  /-- At the top of the loop of `call_ending_the_oldest()`. -/
  | trying (round : Nat)
  /-- A slot is reserved. -/
  | reserved (via : Option Nat)
  /-- In `call_in_reserved_slot()`, the context lock held: what core said, and the call's numbers. -/
  | called (via : Option Nat) (ret : CallRet) (seqNo : CallSeqNo) (attempt : Nat)
  /-- About to end the oldest call. -/
  | ending (round : Nat)
  /-- In the wait of `call_waiting_for_room()`. -/
  | waiting
  deriving DecidableEq, Repr

namespace SendStage

/-- Between reserving a slot and recording the call or giving the slot back. -/
def between : SendStage → Bool
  | reserved _ => true
  | called .. => true
  | _ => false

/-- The thread holds the context lock. -/
def holdsContext : SendStage → Bool
  | called .. => true
  | _ => false

end SendStage

/-- Which Client of which context it is, `tt_CLIENT_MAX_OUTSTANDING`, `response_capacity` and the reliability. -/
structure RmwClientOptions where
  caller : Nat
  client : Nat
  maxOutstanding : Nat
  responseCapacity : Nat
  reliable : Bool

/-- A client with its threads, over core and the network. Beside the source: the ids that `rmw_send_request()` returned, each with the
call it stands for, and the responses filed, each with the id it was filed under and the call it was made for. -/
structure RmwClient (α ρ : Type) where
  core : Exchange α ρ
  calls : List (Option RmwCall)
  nextSequenceId : Nat
  callsInFlight : Nat
  responses : List (Nat × Named ρ)
  responsesDropped : Nat
  threads : List SendStage
  returned : List (Nat × CallName)
  filed : List (Nat × CallName)

/-- Why `client_call_locked()` does not send a request it could not make: no room for it, or its codec failed. -/
inductive EncodeFailure
  | outOfBuffer
  | protocolError
  deriving DecidableEq, Repr

def EncodeFailure.ret : EncodeFailure → CallRet
  | outOfBuffer => .outOfBuffer
  | protocolError => .protocolError

/-- What can happen: a thread enters `rmw_send_request()`, a thread goes on, core does something. `timedOut` is how a wait ended, the rest
what core's call meets; `converts` whether a response's conversion succeeds. -/
inductive RmwClientEvent (α ρ : Type)
  | send (thread : Nat)
  | proceed (thread : Nat) (timedOut : Bool) (encoded : Except EncodeFailure α) (read : Reading) (flushed : Flushed) (room converts : Bool)
  | core (event : ExchangeEvent α ρ) (converts : Bool)

namespace RmwClient

variable (options : RmwClientOptions)

/-- Just created, with any number of threads that may use it. -/
def create (core : Exchange α ρ) (threads : Nat) : RmwClient α ρ where
  core := core
  calls := List.replicate options.maxOutstanding none
  nextSequenceId := 0
  callsInFlight := 0
  responses := []
  responsesDropped := 0
  threads := List.replicate threads .idle
  returned := []
  filed := []

/-! ## The callback -/

/-- `file_response()`. -/
def fileResponse (s : RmwClient α ρ) (sequenceId : Nat) (response : Named ρ) (converts : Bool) : RmwClient α ρ :=
  let full := s.responses.length = options.responseCapacity
  let responses := if full then s.responses.tail else s.responses
  let dropped := if full then s.responsesDropped + 1 else s.responsesDropped
  if converts then
    { s with
      responses := responses ++ [(sequenceId, response)]
      responsesDropped := dropped
      filed := s.filed ++ [(sequenceId, response.name)] }
  else { s with responses, responsesDropped := dropped }

/-- The record of a call, by core's number. -/
def recordOf (s : RmwClient α ρ) (seqNo : CallSeqNo) : Option Nat :=
  s.calls.findIdx? fun call => call.any fun recorded => recorded.coreSeqNo = seqNo

/-- `client_callback()`. -/
def clientCallback (s : RmwClient α ρ) (seqNo : CallSeqNo) (returnCode : Int) (response : Option (Named ρ)) (converts : Bool) :
    RmwClient α ρ :=
  match s.recordOf seqNo with
  | none => s
  | some i =>
    match s.calls[i]?.join with
    | none => s
    | some recorded =>
      let freed := { s with calls := s.calls.set i none, callsInFlight := s.callsInFlight - 1 }
      match response with
      | none => freed
      | some answer =>
        if returnCode ≠ callTimeout then freed.fileResponse options recorded.sequenceId answer converts else freed

/-- One of the things the Client's step shows. -/
def callback (s : RmwClient α ρ) (converts : Bool) : CallOutput (Named α) (Named ρ) → RmwClient α ρ
  | .callback _ seqNo returnCode response => s.clientCallback options seqNo returnCode response converts
  | .accepted _ => s
  | .request _ _ => s

/-- The callbacks of what the Client's step shows. -/
def callbacks (s : RmwClient α ρ) (outputs : List (CallOutput (Named α) (Named ρ))) (converts : Bool) : RmwClient α ρ :=
  outputs.foldl (fun s output => s.callback options converts output) s

/-! ## Core -/

/-- What an event of core shows of the Client. -/
def clientOutputs (core : Exchange α ρ) : ExchangeEvent α ρ → List (CallOutput (Named α) (Named ρ))
  | .retry k j read due reached room =>
    if k = options.caller ∧ j = options.client then
      match core.client k j with
      | none => []
      | some (_, client) => (client.step read (.timer due reached room)).2
    else []
  | .endOldest k j =>
    if k = options.caller ∧ j = options.client then
      match core.client k j with
      | none => []
      | some (_, client) => client.endOldestCall.2
    else []
  | .response i k read decodes =>
    if k = options.caller then
      match core.responses[i]?, core.callers[k]? with
      | some copy, some caller =>
        if copy.response.receiver = caller.id ∧ copy.dest = caller.sender ∧
            caller.callingClient copy.response.seqNo = some options.client then
          match caller.clients[options.client]? with
          | none => []
          | some client => (client.step read (.response copy.response decodes)).2
        else []
      | _, _ => []
    else []
  | _ => []

/-- Core takes a step, and the callback runs. -/
def coreStep (s : RmwClient α ρ) (event : ExchangeEvent α ρ) (converts : Bool) : RmwClient α ρ :=
  { s with core := s.core.step event }.callbacks options (clientOutputs options s.core event) converts

/-- The steps of core that are not this client's own: a thread of it makes its calls and ends them, and it is not destroyed. -/
def outside : ExchangeEvent α ρ → Bool
  | .call k j .. => !(k = options.caller && j = options.client)
  | .endOldest k j => !(k = options.caller && j = options.client)
  | .destroy k j => !(k = options.caller && j = options.client)
  | _ => true

/-- What `tt_Client_call_id()` returns, with the number drawn and the call's name; nothing while it does not come back. -/
def callResult (core : Exchange α ρ) (encoded : Except EncodeFailure α) (read : Reading) (flushed : Flushed) (room : Bool) :
    Option (CallRet × CallSeqNo × Nat) :=
  match core.client options.caller options.client with
  | none => none
  | some (caller, client) =>
    let seqNo := caller.drawSeqNo
    if (caller.callingClient seqNo).isSome then none
    else
      let body := (encoded.mapError EncodeFailure.ret).map fun value =>
        (⟨⟨options.caller, options.client, client.attempts⟩, value⟩ : Named α)
      some ((client.call (ρ := Named ρ) seqNo body read flushed room).2.2, seqNo, client.attempts)

/-! ## The threads -/

def setStage (s : RmwClient α ρ) (thread : Nat) (stage : SendStage) : RmwClient α ρ :=
  { s with threads := s.threads.set thread stage }

def contextFree (s : RmwClient α ρ) : Bool := s.threads.all fun stage => !stage.holdsContext

/-- The end of `call_in_reserved_slot()`. -/
def recordCall (s : RmwClient α ρ) (thread : Nat) (via : Option Nat) (ret : CallRet) (seqNo : CallSeqNo) (attempt : Nat) :
    RmwClient α ρ :=
  if ret = .ok then
    let id := s.nextSequenceId + 1
    { s.setStage thread .idle with
      nextSequenceId := id
      calls :=
        match s.calls.findIdx? Option.isNone with
        | none => s.calls
        | some i => s.calls.set i (some ⟨seqNo, id⟩)
      returned := s.returned ++ [(id, ⟨options.caller, options.client, attempt⟩)] }
  else
    let next : SendStage :=
      if ret = .illegalStatus then
        match via with
        | none => .waiting
        | some round => .ending round
      else .idle
    { s.setStage thread next with callsInFlight := s.callsInFlight - 1 }

/-- A thread at `stage` goes on. -/
def proceed (s : RmwClient α ρ) (thread : Nat) (stage : SendStage) (timedOut : Bool) (encoded : Except EncodeFailure α) (read : Reading)
    (flushed : Flushed) (room converts : Bool) : RmwClient α ρ :=
  match stage with
  | .idle => s
  | .reserving =>
    if s.callsInFlight < options.maxOutstanding then
      { s.setStage thread (.reserved none) with callsInFlight := s.callsInFlight + 1 }
    else if timedOut then s.setStage thread .idle
    else s
  | .trying round =>
    if options.maxOutstanding < round then s.setStage thread .reserving
    else if s.callsInFlight < options.maxOutstanding then
      { s.setStage thread (.reserved (some round)) with callsInFlight := s.callsInFlight + 1 }
    else s.setStage thread (.ending round)
  | .reserved via =>
    if s.contextFree then
      match callResult (ρ := ρ) options s.core encoded read flushed room with
      | none => s
      | some result =>
        { s.setStage thread (.called via result.1 result.2.1 result.2.2) with
          core := s.core.step (.call options.caller options.client (encoded.mapError EncodeFailure.ret) read flushed room) }
    else s
  | .called via ret seqNo attempt => s.recordCall options thread via ret seqNo attempt
  | .ending round =>
    if s.contextFree then
      let oldest := (s.core.client options.caller options.client).bind fun found => found.2.oldestSlot
      (s.coreStep options (.endOldest options.caller options.client) converts).setStage thread
        (if oldest.isSome then .trying (round + 1) else .reserving)
    else s
  | .waiting => s.setStage thread (if timedOut then .idle else .reserving)

def step (s : RmwClient α ρ) : RmwClientEvent α ρ → RmwClient α ρ
  | .send thread =>
    if s.threads[thread]? = some .idle then s.setStage thread (if options.reliable then .reserving else .trying 0) else s
  | .proceed thread timedOut encoded read flushed room converts =>
    match s.threads[thread]? with
    | none => s
    | some stage => s.proceed options thread stage timedOut encoded read flushed room converts
  | .core event converts => if s.contextFree ∧ outside options event then s.coreStep options event converts else s

/-! ## What core's steps do to the Client -/

variable {options : RmwClientOptions} {core : Exchange α ρ} {caller : Caller α} {client : Client (Named α)}

/-- The Clients after one has taken a step. -/
theorem clientStepped_client {k j : Nat} {caller' found : Caller α} {client' : Client (Named α)}
    {result : Client (Named α) × List (CallOutput (Named α) (Named ρ))} (stepped : core.client k j = some (found, client'))
    (same : caller'.clients = found.clients) {k' j' : Nat} (before : core.client k' j' = some (caller, client)) :
    ∃ after, (core.clientStepped k j caller' result).client k' j' = some (after, if k' = k ∧ j' = j then result.1 else client) := by
  obtain ⟨hfound, hclient'⟩ := Exchange.client_eq_some.mp stepped
  obtain ⟨hcaller, hclient⟩ := Exchange.client_eq_some.mp before
  have inside := (List.getElem?_eq_some_iff.mp hfound).1
  have inside' := (List.getElem?_eq_some_iff.mp hclient').1
  simp only [Exchange.client_eq_some, Exchange.clientStepped, Caller.setClient]
  by_cases here : k' = k
  · subst here
    rw [hfound] at hcaller
    cases hcaller
    refine ⟨_, List.getElem?_set_self inside, ?_⟩
    dsimp only
    rw [same]
    by_cases this : j' = j
    · subst this
      rw [if_pos ⟨rfl, rfl⟩, List.getElem?_set_self inside']
    · rw [if_neg (fun both => this both.2), List.getElem?_set_ne (Ne.symm this)]
      exact hclient
  · refine ⟨caller, ?_, ?_⟩
    · rw [List.getElem?_set_ne (Ne.symm here)]
      exact hcaller
    · rw [if_neg (fun both => here both.1)]
      exact hclient

theorem own_stepped {k j : Nat} {caller' : Caller α} {result : Client (Named α) × List (CallOutput (Named α) (Named ρ))}
    {P : Client (Named α) → Prop} (found : core.client k j = some (caller, client)) (same : caller'.clients = caller.clients)
    (holds : P result.1) :
    ∃ after client', (core.clientStepped k j caller' result).client k j = some (after, client') ∧ P client' := by
  obtain ⟨after, stepped⟩ := @clientStepped_client α ρ core caller client k j caller' caller client result found same k j found
  rw [if_pos ⟨rfl, rfl⟩] at stepped
  exact ⟨after, result.1, stepped, holds⟩

/-- The Client's own step, or another's. -/
theorem goes_stepped {k j : Nat} {caller' found : Caller α} {client' : Client (Named α)}
    {result : Client (Named α) × List (CallOutput (Named α) (Named ρ))} (stepped : core.client k j = some (found, client'))
    (same : caller'.clients = found.clients) (before : core.client options.caller options.client = some (caller, client))
    {outputs : List (CallOutput (Named α) (Named ρ))} (own : k = options.caller ∧ j = options.client → client.Goes (result.1, outputs))
    (others : ¬ (k = options.caller ∧ j = options.client) → outputs = []) :
    ∃ after client', (core.clientStepped k j caller' result).client options.caller options.client = some (after, client') ∧
      client.Goes (client', outputs) := by
  obtain ⟨after, found⟩ := @clientStepped_client α ρ core caller client k j caller' found client' result stepped same _ _ before
  refine ⟨after, _, found, ?_⟩
  by_cases this : options.caller = k ∧ options.client = j
  · rw [if_pos this]
    exact own ⟨this.1.symm, this.2.symm⟩
  · rw [if_neg this, others fun both => this ⟨both.1.symm, both.2.symm⟩]
    exact .on rfl rfl

theorem core_goes (before : core.client options.caller options.client = some (caller, client)) (event : ExchangeEvent α ρ)
    (made : outside options event = true ∨ event = .endOldest options.caller options.client) :
    ∃ caller' client', (core.step event).client options.caller options.client = some (caller', client') ∧
      client.Goes (client', clientOutputs options core event) := by
  cases event with
  | call k j encoded read flushed room =>
    have other : ¬ (k = options.caller ∧ j = options.client) := by
      have own := made.resolve_right (by simp)
      rw [not_and_or]
      simpa [outside] using own
    simp only [Exchange.step]
    split
    · exact ⟨caller, client, before, .on rfl rfl⟩
    · next found client' stepped =>
      split
      · exact ⟨caller, client, before, .on rfl rfl⟩
      · apply goes_stepped stepped ?_ before (fun own => absurd own other) fun _ => rfl
        rfl
  | elsewhere k seqNo =>
    obtain ⟨hcaller, hclient⟩ := Exchange.client_eq_some.mp before
    simp only [Exchange.step]
    refine ⟨if k = options.caller then { caller with callSeqNo := seqNo } else caller, client, ?_, .on rfl rfl⟩
    rw [Exchange.client_eq_some]
    simp only [List.getElem?_modify]
    rw [hcaller]
    refine ⟨rfl, ?_⟩
    split
    · exact hclient
    · exact hclient
  | retry k j read due reached room =>
    simp only [Exchange.step, clientOutputs]
    cases found : core.client k j with
    | none =>
      refine ⟨caller, client, before, ?_⟩
      split
      · exact .on rfl rfl
      · exact .on rfl rfl
    | some pair =>
      dsimp only
      apply goes_stepped found rfl before
      · intro own
        rw [own.1, own.2, before] at found
        cases found
        rw [if_pos own]
        exact client.timer_goes read due reached room
      · intro other
        rw [if_neg other]
  | endOldest k j =>
    simp only [Exchange.step, clientOutputs]
    cases found : core.client k j with
    | none =>
      refine ⟨caller, client, before, ?_⟩
      split
      · exact .on rfl rfl
      · exact .on rfl rfl
    | some pair =>
      dsimp only
      apply goes_stepped found rfl before
      · intro own
        rw [own.1, own.2, before] at found
        cases found
        rw [if_pos own]
        exact client.endOldestCall_goes
      · intro other
        rw [if_neg other]
  | destroy k j =>
    have other : ¬ (k = options.caller ∧ j = options.client) := by
      have own := made.resolve_right (by simp)
      rw [not_and_or]
      simpa [outside] using own
    simp only [Exchange.step]
    split
    · exact ⟨caller, client, before, .on rfl rfl⟩
    · next found client' stepped => exact goes_stepped stepped rfl before (fun own => absurd own other) fun _ => rfl
  | request i host answer answered =>
    simp only [Exchange.step]
    split
    · exact ⟨caller, client, before, .on rfl rfl⟩
    · exact ⟨caller, client, before, .on rfl rfl⟩
  | response i k read decodes =>
    simp only [Exchange.step, clientOutputs]
    cases hcopy : core.responses[i]? with
    | none =>
      refine ⟨caller, client, before, ?_⟩
      split
      · exact .on rfl rfl
      · exact .on rfl rfl
    | some copy =>
      cases hcaller : core.callers[k]? with
      | none =>
        refine ⟨caller, client, before, ?_⟩
        split
        · exact .on rfl rfl
        · exact .on rfl rfl
      | some found =>
        dsimp only
        by_cases addressed : copy.response.receiver = found.id ∧ copy.dest = found.sender
        · rw [if_pos addressed]
          cases calling : found.callingClient copy.response.seqNo with
          | none =>
            refine ⟨caller, client, before, ?_⟩
            split
            · rw [if_neg (fun chosen => absurd chosen.2.2 (by simp))]
              exact .on rfl rfl
            · exact .on rfl rfl
          | some j =>
            dsimp only
            cases hclient : found.clients[j]? with
            | none =>
              refine ⟨caller, client, before, ?_⟩
              split
              · split
                next chosen =>
                  rw [← Option.some.inj chosen.2.2, hclient]
                  exact .on rfl rfl
                · exact .on rfl rfl
              · exact .on rfl rfl
            | some client' =>
              apply goes_stepped (Exchange.client_eq_some.mpr ⟨hcaller, hclient⟩) rfl before
              · intro own
                rw [← own.1, ← own.2, Exchange.client_eq_some, hcaller] at before
                obtain ⟨sameCaller, same⟩ := before
                cases sameCaller
                rw [if_pos own.1, if_pos ⟨addressed.1, addressed.2, congrArg some own.2⟩, ← own.2, hclient]
                rw [hclient] at same
                cases same
                exact client.response_goes read copy.response decodes
              · intro other
                split
                next here =>
                  rw [if_neg]
                  rintro ⟨-, -, chosen⟩
                  exact other ⟨here, Option.some.inj chosen⟩
                · rfl
        · rw [if_neg addressed]
          refine ⟨caller, client, before, ?_⟩
          split
          · split
            next chosen => exact absurd ⟨chosen.1, chosen.2.1⟩ addressed
            · exact .on rfl rfl
          · exact .on rfl rfl
  | answer i answer now =>
    simp only [Exchange.step]
    split
    · exact ⟨caller, client, before, .on rfl rfl⟩
    · exact ⟨caller, client, before, .on rfl rfl⟩
  | deferredTimeout due => exact ⟨caller, client, before, .on rfl rfl⟩
  | announced clients source farewell => exact ⟨caller, client, before, .on rfl rfl⟩
  | requestLost i => exact ⟨caller, client, before, .on rfl rfl⟩
  | responseLost i => exact ⟨caller, client, before, .on rfl rfl⟩

/-! ## What holds of the records -/

variable {s : RmwClient α ρ}

/-- Record `i` is in use. -/
def Records (s : RmwClient α ρ) (i : Nat) (call : RmwCall) : Prop := s.calls[i]? = some (some call)

/-- A record stands for a call that core has outstanding, under its number and the id that was returned for it. -/
structure Linked (options : RmwClientOptions) (s : RmwClient α ρ) (client : Client (Named α)) : Prop where
  distinct : ∀ slot slot' attempt attempt' seqNo, client.number slot = some (attempt, seqNo) →
    client.number slot' = some (attempt', seqNo) → slot = slot'
  recorded : ∀ i call, s.Records i call → ∃ slot attempt, client.number slot = some (attempt, call.coreSeqNo) ∧
    (call.sequenceId, ⟨options.caller, options.client, attempt⟩) ∈ s.returned
  single : ∀ i i' call call', s.Records i call → s.Records i' call' → call.coreSeqNo = call'.coreSeqNo → i = i'
  /-- A call that is made and not recorded yet. -/
  called : ∀ (thread : Nat) via seqNo attempt, s.threads[thread]? = some (.called via .ok seqNo attempt) →
    (∃ slot, client.number slot = some (attempt, seqNo)) ∧ ∀ i call, s.Records i call → call.coreSeqNo ≠ seqNo

/-- The ids, each used once. -/
structure Ids (s : RmwClient α ρ) : Prop where
  returned : (s.returned.map Prod.fst).Nodup
  returned_le : ∀ id ∈ s.returned.map Prod.fst, id ≤ s.nextSequenceId
  filed : (s.filed.map Prod.fst).Nodup
  filed_le : ∀ id ∈ s.filed.map Prod.fst, id ≤ s.nextSequenceId
  pending : ∀ i call, s.Records i call → call.sequenceId ∉ s.filed.map Prod.fst
  single : ∀ i i' call call', s.Records i call → s.Records i' call' → call.sequenceId = call'.sequenceId → i = i'

/-- The counter and the context lock. -/
structure Counted (options : RmwClientOptions) (s : RmwClient α ρ) : Prop where
  length : s.calls.length = options.maxOutstanding
  inFlight : s.callsInFlight = s.calls.countP Option.isSome + s.threads.countP SendStage.between
  bound : s.callsInFlight ≤ options.maxOutstanding
  lock : ∀ (thread thread' : Nat) (stage stage' : SendStage), s.threads[thread]? = some stage → s.threads[thread']? = some stage' →
    stage.holdsContext = true → stage'.holdsContext = true → thread = thread'

structure Kept (options : RmwClientOptions) (s : RmwClient α ρ) : Prop where
  linked : ∃ caller client, s.core.client options.caller options.client = some (caller, client) ∧ Linked options s client
  ids : Ids s
  counted : Counted options s

/-! ### A thread from one stage to another -/

theorem countP_set_add {β : Type} {p : β → Bool} {l : List β} {i : Nat} {old new : β} (there : l[i]? = some old) :
    (l.set i new).countP p + (if p old then 1 else 0) = l.countP p + (if p new then 1 else 0) := by
  obtain ⟨inside, same⟩ := List.getElem?_eq_some_iff.mp there
  rw [List.countP_set inside, same]
  by_cases yes : p old = true
  · have positive : 0 < l.countP p := List.countP_pos_iff.mpr ⟨old, List.mem_of_getElem? there, yes⟩
    rw [if_pos yes]
    omega
  · rw [if_neg yes]
    omega

variable {thread : Nat} {old new : SendStage}

theorem setStage_cases {thread' : Nat} {stage : SendStage} (there : (s.threads.set thread new)[thread']? = some stage) :
    (thread' = thread ∧ stage = new) ∨ s.threads[thread']? = some stage := by
  by_cases same : thread' = thread
  · subst same
    rw [List.getElem?_set_self'] at there
    obtain ⟨_, _, rfl⟩ := Option.map_eq_some_iff.mp there
    exact .inl ⟨rfl, rfl⟩
  · rw [List.getElem?_set_ne (Ne.symm same)] at there
    exact .inr there

/-- A stage without the context lock. -/
theorem Linked.setStage (linked : Linked options s client) (free : new.holdsContext = false) :
    Linked options (s.setStage thread new) client where
  distinct := linked.distinct
  recorded := linked.recorded
  single := linked.single
  called := by
    intro thread' via seqNo attempt there
    rcases setStage_cases there with ⟨-, rfl⟩ | before
    · cases free
    · exact linked.called thread' via seqNo attempt before

theorem Kept.setStage (kept : Kept options s) (there : s.threads[thread]? = some old) (free : new.holdsContext = false)
    {inFlight : Nat} (count : inFlight + (if old.between then 1 else 0) = s.callsInFlight + (if new.between then 1 else 0))
    (bound : inFlight ≤ options.maxOutstanding) :
    Kept options { s.setStage thread new with callsInFlight := inFlight } := by
  obtain ⟨caller, client, found, linked⟩ := kept.linked
  have moved := @linked.setStage _ _ _ _ _ thread new free
  refine ⟨⟨caller, client, found, ⟨moved.distinct, moved.recorded, moved.single, moved.called⟩⟩,
    ⟨kept.ids.returned, kept.ids.returned_le, kept.ids.filed, kept.ids.filed_le, kept.ids.pending, kept.ids.single⟩,
    ⟨kept.counted.length, ?_, bound, ?_⟩⟩
  · have threads := @countP_set_add _ SendStage.between s.threads thread old new there
    have before := kept.counted.inFlight
    change inFlight = s.calls.countP Option.isSome + (s.threads.set thread new).countP SendStage.between
    omega
  · intro thread' thread'' stage stage' there' there'' holds holds'
    rcases setStage_cases there' with ⟨-, rfl⟩ | before
    · rw [free] at holds
      cases holds
    · rcases setStage_cases there'' with ⟨-, rfl⟩ | before'
      · rw [free] at holds'
        cases holds'
      · exact kept.counted.lock thread' thread'' stage stage' before before' holds holds'

/-! ### A step of core -/

/-- Nothing but the records, the counter and the responses differs. -/
structure SameThreads (s s' : RmwClient α ρ) : Prop where
  core : s'.core = s.core
  threads : s'.threads = s.threads
  returned : s'.returned = s.returned
  nextSequenceId : s'.nextSequenceId = s.nextSequenceId

/-- What `client_callback()` does: nothing, or the record under the number is freed and a response perhaps filed under its id. -/
inductive CallbackEffect (s : RmwClient α ρ) (seqNo : CallSeqNo) (response : Option (Named ρ)) (s' : RmwClient α ρ) : Prop
  | none_ (same : s' = s) (unknown : ∀ i call, s.Records i call → call.coreSeqNo ≠ seqNo)
  | freed (i : Nat) (call : RmwCall) (recorded : s.Records i call) (number : call.coreSeqNo = seqNo) (same : SameThreads s s')
      (calls : s'.calls = s.calls.set i none) (inFlight : s'.callsInFlight = s.callsInFlight - 1)
      (filed : s'.filed = s.filed ∨ ∃ answer, response = some answer ∧ s'.filed = s.filed ++ [(call.sequenceId, answer.name)])

theorem fileResponse_effect (s : RmwClient α ρ) (sequenceId : Nat) (response : Named ρ) (converts : Bool) :
    SameThreads s (s.fileResponse options sequenceId response converts) ∧
      (s.fileResponse options sequenceId response converts).calls = s.calls ∧
      (s.fileResponse options sequenceId response converts).callsInFlight = s.callsInFlight ∧
      ((s.fileResponse options sequenceId response converts).filed = s.filed ∨
        (s.fileResponse options sequenceId response converts).filed = s.filed ++ [(sequenceId, response.name)]) := by
  unfold fileResponse
  dsimp only
  split
  · exact ⟨⟨rfl, rfl, rfl, rfl⟩, rfl, rfl, .inr rfl⟩
  · exact ⟨⟨rfl, rfl, rfl, rfl⟩, rfl, rfl, .inl rfl⟩

theorem clientCallback_effect (s : RmwClient α ρ) (seqNo : CallSeqNo) (returnCode : Int) (response : Option (Named ρ)) (converts : Bool) :
    CallbackEffect s seqNo response (s.clientCallback options seqNo returnCode response converts) := by
  unfold clientCallback
  cases found : s.recordOf seqNo with
  | none =>
    refine .none_ rfl ?_
    intro i call recorded same
    unfold recordOf at found
    rw [List.findIdx?_eq_none_iff] at found
    have differs := found (some call) (List.mem_of_getElem? recorded)
    simp [same] at differs
  | some i =>
    unfold recordOf at found
    obtain ⟨inside, this, -⟩ := List.findIdx?_eq_some_iff_getElem.mp found
    cases entry : s.calls[i] with
    | none =>
      rw [entry] at this
      simp at this
    | some call =>
      have recorded : s.Records i call := by
        unfold Records
        rw [List.getElem?_eq_getElem inside, entry]
      have number : call.coreSeqNo = seqNo := by
        rw [entry] at this
        simpa using this
      dsimp only
      rw [recorded]
      dsimp only [Option.join_some]
      cases response with
      | none => exact .freed i call recorded number ⟨rfl, rfl, rfl, rfl⟩ rfl rfl (.inl rfl)
      | some answer =>
        dsimp only
        split
        · obtain ⟨same, calls, inFlight, filed⟩ := @fileResponse_effect _ _ options
            { s with calls := s.calls.set i none, callsInFlight := s.callsInFlight - 1 } call.sequenceId answer converts
          exact .freed i call recorded number ⟨same.core, same.threads, same.returned, same.nextSequenceId⟩ calls inFlight
            (filed.imp id fun more => ⟨answer, rfl, more⟩)
        · exact .freed i call recorded number ⟨rfl, rfl, rfl, rfl⟩ rfl rfl (.inl rfl)

/-- The callbacks run are those of the reports. -/
theorem callbacks_eq (s : RmwClient α ρ) (outputs : List (CallOutput (Named α) (Named ρ))) (converts : Bool) :
    s.callbacks options outputs converts = (Client.reports outputs).foldl
      (fun s report => s.clientCallback options report.seqNo report.returnCode report.response converts) s := by
  unfold callbacks Client.reports
  induction outputs generalizing s with
  | nil => rfl
  | cons output rest ih =>
    rw [List.foldl_cons, List.filterMap_cons, ih]
    cases output with
    | accepted _ => rfl
    | request _ _ => rfl
    | callback attempt seqNo returnCode response => rfl

/-- The records that a callback leaves. -/
theorem records_freed {s' : RmwClient α ρ} {i : Nat} (calls : s'.calls = s.calls.set i none) {i' : Nat} {call : RmwCall}
    (records : s'.Records i' call) : i' ≠ i ∧ s.Records i' call := by
  unfold Records at records ⊢
  rw [calls] at records
  by_cases same : i' = i
  · subst same
    rw [List.getElem?_set_self'] at records
    obtain ⟨_, _, no⟩ := Option.map_eq_some_iff.mp records
    cases no
  · rw [List.getElem?_set_ne (Ne.symm same)] at records
    exact ⟨same, records⟩

theorem Ids.freed (ids : Ids s) {s' : RmwClient α ρ} {i : Nat} {call : RmwCall} (recorded : s.Records i call)
    (bound : call.sequenceId ≤ s.nextSequenceId) (same : SameThreads s s') (calls : s'.calls = s.calls.set i none)
    (filed : s'.filed = s.filed ∨ ∃ name, s'.filed = s.filed ++ [(call.sequenceId, name)]) : Ids s' := by
  have fresh := ids.pending i call recorded
  refine ⟨same.returned ▸ ids.returned, ?_, ?_, ?_, ?_, ?_⟩
  · rw [same.returned, same.nextSequenceId]
    exact ids.returned_le
  · rcases filed with none_ | ⟨name, more⟩
    · rw [none_]
      exact ids.filed
    · rw [more, List.map_append]
      refine List.nodup_append.mpr ⟨ids.filed, List.nodup_singleton _, ?_⟩
      intro id mem id' mem' equal
      rw [List.map_singleton, List.mem_singleton] at mem'
      rw [equal, mem'] at mem
      exact fresh mem
  · rw [same.nextSequenceId]
    rcases filed with none_ | ⟨name, more⟩
    · rw [none_]
      exact ids.filed_le
    · intro id mem
      rw [more, List.map_append, List.mem_append, List.map_singleton, List.mem_singleton] at mem
      rcases mem with before | rfl
      · exact ids.filed_le id before
      · exact bound
  · intro i' call' records
    obtain ⟨differ, records⟩ := records_freed calls records
    have pending := ids.pending i' call' records
    rcases filed with none_ | ⟨name, more⟩
    · rw [none_]
      exact pending
    · rw [more, List.map_append, List.mem_append, List.map_singleton, List.mem_singleton, not_or]
      exact ⟨pending, fun equal => differ (ids.single i' i call' call records recorded equal)⟩
  · intro i' i'' call' call'' records records' equal
    exact ids.single i' i'' call' call'' (records_freed calls records).2 (records_freed calls records').2 equal

theorem Linked.id_le (linked : Linked options s client) (ids : Ids s) {i : Nat} {call : RmwCall} (records : s.Records i call) :
    call.sequenceId ≤ s.nextSequenceId := by
  obtain ⟨_, _, _, mem⟩ := linked.recorded i call records
  exact ids.returned_le _ (List.mem_map.mpr ⟨_, mem, rfl⟩)

theorem not_called (free : s.contextFree = true) {thread : Nat} {stage : SendStage} (there : s.threads[thread]? = some stage) :
    stage.holdsContext = false := by
  have all := List.all_eq_true.mp free stage (List.mem_of_getElem? there)
  simpa using all

/-- A step of core that makes no call of the Client: the record of a call that is over goes with it. -/
theorem Kept.coreStep (kept : Kept options s) (free : s.contextFree = true) {event : ExchangeEvent α ρ}
    (made : outside options event = true ∨ event = .endOldest options.caller options.client) (converts : Bool) :
    Kept options (s.coreStep options event converts) ∧ (s.coreStep options event converts).threads = s.threads ∧
      (s.coreStep options event converts).core = s.core.step event ∧
      ((s.coreStep options event converts).returned = s.returned) ∧
      ∀ pair ∈ (s.coreStep options event converts).filed, pair ∈ s.filed ∨
        ∃ report ∈ Client.reports (clientOutputs options s.core event), ∃ answer, report.response = some answer ∧
          pair.2 = answer.name ∧ (pair.1, ⟨options.caller, options.client, report.attempt⟩) ∈ s.returned := by
  obtain ⟨caller, client, found, linked⟩ := kept.linked
  obtain ⟨caller', client', found', goes⟩ := core_goes found event made
  have notCalled : ∀ (thread : Nat) via ret seqNo attempt, s.threads[thread]? ≠ some (.called via ret seqNo attempt) := by
    intro thread via ret seqNo attempt there
    cases not_called free there
  unfold RmwClient.coreStep
  rw [callbacks_eq]
  cases goes with
  | on numbers silent =>
    dsimp only at numbers silent
    rw [silent, List.foldl_nil]
    refine ⟨⟨⟨caller', client', found', ?_⟩, ?_, ?_⟩, rfl, rfl, rfl, fun pair mem => .inl mem⟩
    · refine ⟨?_, ?_, linked.single, fun thread via seqNo attempt there => absurd there (notCalled thread via _ seqNo attempt)⟩
      · rw [numbers]
        exact linked.distinct
      · rw [numbers]
        exact linked.recorded
    · exact ⟨kept.ids.returned, kept.ids.returned_le, kept.ids.filed, kept.ids.filed_le, kept.ids.pending, kept.ids.single⟩
    · exact ⟨kept.counted.length, kept.counted.inFlight, kept.counted.bound, kept.counted.lock⟩
  | ended slot report held numbers told =>
    dsimp only at numbers told
    rw [told, List.foldl_cons, List.foldl_nil]
    have effect := @clientCallback_effect _ _ options { s with core := s.core.step event } report.seqNo report.returnCode report.response
      converts
    generalize clientCallback options { s with core := s.core.step event } report.seqNo report.returnCode report.response converts = s'
      at effect ⊢
    -- the records under other numbers stand for calls in other slots
    have others : ∀ {slot' : Nat} {attempt : Nat} {seqNo : CallSeqNo}, client.number slot' = some (attempt, seqNo) →
        seqNo ≠ report.seqNo → client'.number slot' = some (attempt, seqNo) := by
      intro slot' attempt seqNo its differ
      rw [numbers, if_neg]
      · exact its
      · rintro rfl
        rw [held, Option.some.injEq, Prod.mk.injEq] at its
        exact differ its.2.symm
    have distinct : ∀ slot slot' attempt attempt' seqNo, client'.number slot = some (attempt, seqNo) →
        client'.number slot' = some (attempt', seqNo) → slot = slot' := by
      intro slot' slot'' attempt attempt' seqNo one other
      rw [numbers] at one other
      split at one
      · cases one
      · split at other
        · cases other
        · exact linked.distinct _ _ _ _ _ one other
    cases effect with
    | none_ same unknown =>
      subst same
      refine ⟨⟨⟨caller', client', found', ?_⟩, ?_, ?_⟩, rfl, rfl, rfl, fun pair mem => .inl mem⟩
      · refine ⟨distinct, ?_, linked.single, fun thread via seqNo attempt there => absurd there (notCalled thread via _ seqNo attempt)⟩
        intro i call records
        obtain ⟨slot', attempt, its, mem⟩ := linked.recorded i call records
        exact ⟨slot', attempt, others its (unknown i call records), mem⟩
      · exact ⟨kept.ids.returned, kept.ids.returned_le, kept.ids.filed, kept.ids.filed_le, kept.ids.pending, kept.ids.single⟩
      · exact ⟨kept.counted.length, kept.counted.inFlight, kept.counted.bound, kept.counted.lock⟩
    | freed i call recorded number same calls inFlight filed =>
      have records : s.Records i call := recorded
      have core : s'.core = s.core.step event := same.core
      have threads : s'.threads = s.threads := same.threads
      have returned : s'.returned = s.returned := same.returned
      refine ⟨⟨⟨caller', client', core ▸ found', ?_⟩, ?_, ?_⟩, threads, core, returned, ?_⟩
      · refine ⟨distinct, ?_, ?_, fun thread via seqNo attempt there => absurd (threads ▸ there) (notCalled thread via _ seqNo attempt)⟩
        · intro i' call' records'
          obtain ⟨differ, before⟩ := records_freed calls records'
          obtain ⟨slot', attempt, its, mem⟩ := linked.recorded i' call' before
          refine ⟨slot', attempt, others its ?_, returned ▸ mem⟩
          intro equal
          exact differ (linked.single i' i call' call before records (equal.trans number.symm))
        · intro i' i'' call' call'' records' records''
          exact linked.single i' i'' call' call'' (records_freed calls records').2 (records_freed calls records'').2
      · have ids : Ids { s with core := s.core.step event } :=
          ⟨kept.ids.returned, kept.ids.returned_le, kept.ids.filed, kept.ids.filed_le, kept.ids.pending, kept.ids.single⟩
        exact ids.freed recorded (linked.id_le kept.ids records) same calls (filed.imp id fun ⟨answer, _, more⟩ => ⟨answer.name, more⟩)
      · have fewer := @countP_set_add _ Option.isSome s.calls i (some call) none records
        have count := kept.counted.inFlight
        have bound := kept.counted.bound
        simp only [Option.isSome_some, if_true, Option.isSome_none, Bool.false_eq_true, if_false] at fewer
        refine ⟨?_, ?_, ?_, ?_⟩
        · rw [calls, List.length_set]
          exact kept.counted.length
        · rw [inFlight, calls, threads]
          change s.callsInFlight - 1 = (s.calls.set i none).countP Option.isSome + _
          omega
        · rw [inFlight]
          change s.callsInFlight - 1 ≤ _
          omega
        · rw [threads]
          exact kept.counted.lock
      · intro pair mem
        rcases filed with none_ | ⟨answer, response, more⟩
        · rw [none_] at mem
          exact .inl mem
        · rw [more, List.mem_append, List.mem_singleton] at mem
          rcases mem with before | rfl
          · exact .inl before
          · right
            refine ⟨report, List.mem_singleton.mpr rfl, answer, response, rfl, ?_⟩
            obtain ⟨slot', attempt, its, mem⟩ := linked.recorded i call records
            rw [number] at its
            have here := linked.distinct _ _ _ _ _ its held
            rw [here, held, Option.some.injEq, Prod.mk.injEq] at its
            rw [its.1]
            exact mem

/-! ### A call -/

/-- A call made, or not: the number drawn is of no other call. -/
theorem callResult_called (found : core.client options.caller options.client = some (caller, client))
    {encoded : Except EncodeFailure α} {read : Reading} {flushed : Flushed} {room : Bool} {ret : CallRet} {seqNo : CallSeqNo}
    {attempt : Nat} (result : callResult (ρ := ρ) options core encoded read flushed room = some (ret, seqNo, attempt)) :
    (∀ slot attempt', client.number slot ≠ some (attempt', seqNo)) ∧
      ∃ caller' client', (core.step (.call options.caller options.client (encoded.mapError EncodeFailure.ret) read flushed room)).client
          options.caller options.client = some (caller', client') ∧
        ((ret ≠ .ok ∧ client'.number = client.number) ∨
          (ret = .ok ∧ ∃ slot, client.number slot = none ∧
            ∀ i, client'.number i = if i = slot then some (attempt, seqNo) else client.number i)) := by
  unfold callResult at result
  rw [found] at result
  dsimp only at result
  split at result
  · cases result
  · next free =>
    cases result
    constructor
    · intro slot attempt' its
      obtain ⟨call, there, cached⟩ := Option.bind_eq_some_iff.mp its
      obtain ⟨request, holds, same⟩ := Option.map_eq_some_iff.mp cached
      obtain ⟨-, hclient⟩ := Exchange.client_eq_some.mp found
      have none_ : caller.callingClient caller.drawSeqNo = none := by simpa using free
      exact Exchange.callingClient_none none_ hclient ⟨there, holds⟩ (Prod.mk.inj same).2
    · simp only [Exchange.step]
      rw [found]
      dsimp only
      rw [if_neg free]
      have fails : (encoded.mapError EncodeFailure.ret).map (fun value =>
          (⟨⟨options.caller, options.client, client.attempts⟩, value⟩ : Named α)) ≠ .error .ok := by
        cases encoded with
        | error failure => cases failure <;> simp [Except.mapError, Except.map, EncodeFailure.ret]
        | ok value => simp [Except.mapError, Except.map]
      generalize (encoded.mapError EncodeFailure.ret).map (fun value =>
        (⟨⟨options.caller, options.client, client.attempts⟩, value⟩ : Named α)) = body at fails ⊢
      have numbers := client.call_number (ρ := Named ρ) caller.drawSeqNo fails read flushed room
      generalize client.call (ρ := Named ρ) caller.drawSeqNo body read flushed room = result at numbers ⊢
      exact own_stepped (P := fun client' => (result.2.2 ≠ .ok ∧ client'.number = client.number) ∨
        (result.2.2 = .ok ∧ ∃ slot, client.number slot = none ∧
          ∀ i, client'.number i = if i = slot then some (client.attempts, caller.drawSeqNo) else client.number i)) found rfl numbers

theorem Kept.call (kept : Kept options s) {via : Option Nat} (there : s.threads[thread]? = some (.reserved via))
    (free : s.contextFree = true) {encoded : Except EncodeFailure α} {read : Reading} {flushed : Flushed} {room : Bool} {ret : CallRet}
    {seqNo : CallSeqNo} {attempt : Nat}
    (result : callResult (ρ := ρ) options s.core encoded read flushed room = some (ret, seqNo, attempt)) :
    Kept options { s.setStage thread (.called via ret seqNo attempt) with
      core := s.core.step (.call options.caller options.client (encoded.mapError EncodeFailure.ret) read flushed room) } := by
  obtain ⟨caller, client, found, linked⟩ := kept.linked
  obtain ⟨unused, caller', client', found', numbers⟩ := callResult_called found result
  have others : ∀ {thread' : Nat} {stage : SendStage}, (s.threads.set thread (.called via ret seqNo attempt))[thread']? = some stage →
      stage.holdsContext = true → thread' = thread ∧ stage = .called via ret seqNo attempt := by
    intro thread' stage there' holds
    rcases setStage_cases there' with here | before
    · exact here
    · rw [not_called free before] at holds
      cases holds
  have differ : ∀ i call, s.Records i call → call.coreSeqNo ≠ seqNo := by
    intro i call records same
    obtain ⟨slot, attempt', its, -⟩ := linked.recorded i call records
    exact unused slot attempt' (same ▸ its)
  refine ⟨⟨caller', client', found', ?_⟩, ?_, ?_⟩
  · rcases numbers with ⟨refused, same⟩ | ⟨accepted, slot, empty, numbers⟩
    · refine ⟨?_, ?_, linked.single, ?_⟩
      · rw [same]
        exact linked.distinct
      · rw [same]
        exact linked.recorded
      · intro thread' via' seqNo' attempt' there'
        obtain ⟨-, here⟩ := others there' rfl
        cases here
        exact absurd rfl refused
    · refine ⟨?_, ?_, linked.single, ?_⟩
      · intro slot' slot'' attempt' attempt'' seqNo' one other
        rw [numbers] at one other
        split at one
        next here =>
          cases one
          split at other
          next here' => rw [here, here']
          · exact absurd other (unused slot'' attempt'')
        next elsewhere =>
          split at other
          · cases other
            exact absurd one (unused slot' attempt')
          · exact linked.distinct _ _ _ _ _ one other
      · intro i call records
        obtain ⟨slot', attempt', its, mem⟩ := linked.recorded i call records
        refine ⟨slot', attempt', ?_, mem⟩
        rw [numbers, if_neg]
        · exact its
        · rintro rfl
          rw [empty] at its
          cases its
      · intro thread' via' seqNo' attempt' there'
        obtain ⟨-, here⟩ := others there' rfl
        cases here
        refine ⟨⟨slot, ?_⟩, differ⟩
        rw [numbers, if_pos rfl]
  · exact ⟨kept.ids.returned, kept.ids.returned_le, kept.ids.filed, kept.ids.filed_le, kept.ids.pending, kept.ids.single⟩
  · have count := @countP_set_add _ SendStage.between s.threads thread _ (.called via ret seqNo attempt) there
    refine ⟨kept.counted.length, ?_, kept.counted.bound, ?_⟩
    · have before := kept.counted.inFlight
      simp only [SendStage.between, if_true] at count
      change s.callsInFlight = s.calls.countP Option.isSome + (s.threads.set thread (.called via ret seqNo attempt)).countP SendStage.between
      omega
    · intro thread' thread'' stage stage' there' there'' holds holds'
      rw [(others there' holds).1, (others there'' holds').1]

/-- While a thread has a slot reserved, a record is free. -/
theorem Counted.free_record (counted : Counted options s) (there : s.threads[thread]? = some old) (reserved : old.between = true) :
    0 < s.callsInFlight ∧ ∃ i, s.calls.findIdx? Option.isNone = some i := by
  have some_ : 0 < s.threads.countP SendStage.between := List.countP_pos_iff.mpr ⟨old, List.mem_of_getElem? there, reserved⟩
  have count := counted.inFlight
  have bound := counted.bound
  have length := counted.length
  refine ⟨by omega, ?_⟩
  cases found : s.calls.findIdx? Option.isNone with
  | some i => exact ⟨i, rfl⟩
  | none =>
    rw [List.findIdx?_eq_none_iff] at found
    have full : s.calls.countP Option.isSome = s.calls.length := by
      rw [List.countP_eq_length]
      intro call mem
      have used := found call mem
      cases call with
      | none => cases used
      | some _ => rfl
    omega

theorem Kept.recordCall (kept : Kept options s) {via : Option Nat} {ret : CallRet} {seqNo : CallSeqNo} {attempt : Nat}
    (there : s.threads[thread]? = some (.called via ret seqNo attempt)) :
    Kept options (s.recordCall options thread via ret seqNo attempt) := by
  obtain ⟨positive, i, free⟩ := kept.counted.free_record there rfl
  unfold RmwClient.recordCall
  by_cases accepted : ret = .ok
  · rw [if_pos accepted]
    subst accepted
    dsimp only
    rw [free]
    dsimp only
    obtain ⟨caller, client, found, linked⟩ := kept.linked
    obtain ⟨⟨slot, its⟩, differ⟩ := linked.called thread via seqNo attempt there
    obtain ⟨inside, empty, -⟩ := List.findIdx?_eq_some_iff_getElem.mp free
    have vacant : s.calls[i]? = some none := by
      rw [List.getElem?_eq_getElem inside, Option.some.injEq]
      exact Option.isNone_iff_eq_none.mp empty
    have records : ∀ {i' : Nat} {call : RmwCall}, (s.calls.set i (some ⟨seqNo, s.nextSequenceId + 1⟩))[i']? = some (some call) →
        (i' = i ∧ call = ⟨seqNo, s.nextSequenceId + 1⟩) ∨ (i' ≠ i ∧ s.Records i' call) := by
      intro i' call records
      by_cases same : i' = i
      · subst same
        rw [List.getElem?_set_self inside, Option.some.injEq, Option.some.injEq] at records
        exact .inl ⟨rfl, records.symm⟩
      · rw [List.getElem?_set_ne (Ne.symm same)] at records
        exact .inr ⟨same, records⟩
    refine ⟨⟨caller, client, found, ?_⟩, ?_, ?_⟩
    · refine ⟨linked.distinct, ?_, ?_, ?_⟩
      · intro i' call records'
        rcases records records' with ⟨-, rfl⟩ | ⟨-, before⟩
        · exact ⟨slot, attempt, its, List.mem_append_right _ (List.mem_singleton.mpr rfl)⟩
        · obtain ⟨slot', attempt', its', mem⟩ := linked.recorded i' call before
          exact ⟨slot', attempt', its', List.mem_append_left _ mem⟩
      · intro i' i'' call call' records' records'' same
        rcases records records' with ⟨here, rfl⟩ | ⟨-, before⟩
        · rcases records records'' with ⟨here', -⟩ | ⟨-, before'⟩
          · rw [here, here']
          · exact absurd same.symm (differ i'' call' before')
        · rcases records records'' with ⟨-, rfl⟩ | ⟨-, before'⟩
          · exact absurd same (differ i' call before)
          · exact linked.single i' i'' call call' before before' same
      · intro thread' via' seqNo' attempt' there'
        rcases setStage_cases there' with ⟨-, no⟩ | before
        · cases no
        · -- the lock was this thread's alone
          have same := kept.counted.lock thread' thread _ _ before there rfl rfl
          subst same
          have inside := (List.getElem?_eq_some_iff.mp there).1
          have idle : (s.threads.set thread' .idle)[thread']? = some .idle := List.getElem?_set_self inside
          rw [show (s.threads.set thread' .idle)[thread']? = some (.called via' .ok seqNo' attempt') from there'] at idle
          cases idle
    · have le := kept.ids.returned_le
      have filed_le := kept.ids.filed_le
      refine ⟨?_, ?_, kept.ids.filed, ?_, ?_, ?_⟩
      · change ((s.returned ++ [_]).map Prod.fst).Nodup
        rw [List.map_append, List.map_singleton]
        refine List.nodup_append.mpr ⟨kept.ids.returned, List.nodup_singleton _, ?_⟩
        intro id mem id' mem' equal
        rw [List.mem_singleton] at mem'
        have := le id mem
        simp only at mem'
        omega
      · intro id mem
        change id ∈ (s.returned ++ [_]).map Prod.fst at mem
        rw [List.map_append, List.mem_append, List.map_singleton, List.mem_singleton] at mem
        change id ≤ s.nextSequenceId + 1
        rcases mem with before | new
        · have := le id before
          omega
        · simp only at new
          omega
      · intro id mem
        have := filed_le id mem
        change id ≤ s.nextSequenceId + 1
        omega
      · intro i' call records' mem
        rcases records records' with ⟨-, rfl⟩ | ⟨-, before⟩
        · have := filed_le _ mem
          simp only at this
          omega
        · exact kept.ids.pending i' call before mem
      · intro i' i'' call call' records' records'' same
        rcases records records' with ⟨here, rfl⟩ | ⟨-, before⟩
        · rcases records records'' with ⟨here', -⟩ | ⟨-, before'⟩
          · rw [here, here']
          · have := linked.id_le kept.ids before'
            simp only at same
            omega
        · rcases records records'' with ⟨-, rfl⟩ | ⟨-, before'⟩
          · have := linked.id_le kept.ids before
            simp only at same
            omega
          · exact kept.ids.single i' i'' call call' before before' same
    · have more := @countP_set_add _ Option.isSome s.calls i none (some ⟨seqNo, s.nextSequenceId + 1⟩) vacant
      have fewer := @countP_set_add _ SendStage.between s.threads thread _ .idle there
      have count := kept.counted.inFlight
      simp only [Option.isSome_some, if_true, Option.isSome_none, Bool.false_eq_true, if_false] at more
      simp only [SendStage.between, if_true, Bool.false_eq_true, if_false] at fewer
      refine ⟨?_, ?_, kept.counted.bound, ?_⟩
      · change (s.calls.set i _).length = _
        rw [List.length_set]
        exact kept.counted.length
      · change s.callsInFlight = (s.calls.set i (some ⟨seqNo, s.nextSequenceId + 1⟩)).countP Option.isSome +
          (s.threads.set thread .idle).countP SendStage.between
        omega
      · intro thread' thread'' stage stage' there' there'' holds holds'
        rcases setStage_cases there' with ⟨-, rfl⟩ | before
        · cases holds
        · rcases setStage_cases there'' with ⟨-, rfl⟩ | before'
          · cases holds'
          · exact kept.counted.lock thread' thread'' stage stage' before before' holds holds'
  · rw [if_neg accepted]
    have bound := kept.counted.bound
    have next : ∀ {new : SendStage}, new.holdsContext = false → new.between = false →
        Kept options { s.setStage thread new with callsInFlight := s.callsInFlight - 1 } := by
      intro new free between
      apply kept.setStage there free
      · rw [between]
        simp only [SendStage.between, if_true, Bool.false_eq_true, if_false]
        omega
      · omega
    dsimp only
    split
    · cases via with
      | none => exact next rfl rfl
      | some round => exact next rfl rfl
    · exact next rfl rfl

/-! ## A run -/

/-- A response reported was made for the call it is reported for, as long as core is consistent. -/
theorem reported_own {event : ExchangeEvent α ρ} (consistent : (core.step event).Consistent) {report : Client.Report (Named ρ)}
    (mem : report ∈ Client.reports (clientOutputs options core event)) {answer : Named ρ} (response : report.response = some answer) :
    answer.name = ⟨options.caller, options.client, report.attempt⟩ := by
  have unanswered : report.response ≠ none := by
    rw [response]
    simp
  cases event with
  | retry k j read due reached room =>
    simp only [clientOutputs] at mem
    split at mem
    · split at mem
      · cases mem
      · exact absurd (Client.timer_reports _ _ _ _ _ report mem) unanswered
    · cases mem
  | endOldest k j =>
    simp only [clientOutputs] at mem
    split at mem
    · split at mem
      · cases mem
      · exact absurd (Client.endOldestCall_reports _ report mem) unanswered
    · cases mem
  | response i k read decodes =>
    simp only [clientOutputs] at mem
    split at mem
    next here =>
      split at mem
      next copy found hcopy hcaller =>
        split at mem
        next addressed =>
          obtain ⟨receiver, dest, calling⟩ := addressed
          split at mem
          · cases mem
          next client hclient =>
            have body := (Client.response_reports client read copy.response decodes report mem).resolve_left unanswered
            have shown := Client.callback_of_report mem
            have handed : (⟨k, options.client, report.attempt⟩, copy.response.body.name) ∈
                (core.step (.response i k read decodes)).handed := by
              simp only [Exchange.step]
              rw [hcopy, hcaller]
              dsimp only
              rw [if_pos ⟨receiver, dest⟩, calling]
              dsimp only
              rw [hclient]
              apply List.mem_append_right
              exact List.mem_filterMap.mpr ⟨_, shown, rfl⟩
            have own := consistent.handed _ handed
            rw [body, Option.some.injEq] at response
            rw [← response, ← here]
            exact own
        · cases mem
      · cases mem
    · cases mem
  | call => cases mem
  | elsewhere => cases mem
  | destroy => cases mem
  | request => cases mem
  | answer => cases mem
  | deferredTimeout => cases mem
  | announced => cases mem
  | requestLost => cases mem
  | responseLost => cases mem

theorem Kept.step (kept : Kept options s) (event : RmwClientEvent α ρ) : Kept options (s.step options event) := by
  have moves : ∀ {thread : Nat} {old new : SendStage}, s.threads[thread]? = some old → new.holdsContext = false →
      old.between = new.between → Kept options (s.setStage thread new) := by
    intro thread old new there free same
    exact @Kept.setStage _ _ _ _ _ _ _ kept there free s.callsInFlight (by rw [same]) kept.counted.bound
  have reserves : ∀ {thread : Nat} {old new : SendStage}, s.threads[thread]? = some old → new.holdsContext = false →
      old.between = false → new.between = true → s.callsInFlight < options.maxOutstanding →
      Kept options { s.setStage thread new with callsInFlight := s.callsInFlight + 1 } := by
    intro thread old new there free before after room
    apply kept.setStage there free
    · rw [before, after]
      simp
    · omega
  cases event with
  | send thread =>
    simp only [RmwClient.step]
    split
    next idle =>
      split
      · exact moves idle rfl rfl
      · exact moves idle rfl rfl
    · exact kept
  | proceed thread timedOut encoded read flushed room converts =>
    simp only [RmwClient.step]
    split
    · exact kept
    next stage there =>
      cases stage with
      | idle => exact kept
      | reserving =>
        simp only [RmwClient.proceed]
        split
        next room => exact reserves there rfl rfl rfl room
        · split
          · exact moves there rfl rfl
          · exact kept
      | trying round =>
        simp only [RmwClient.proceed]
        split
        · exact moves there rfl rfl
        · split
          next room => exact reserves there rfl rfl rfl room
          · exact moves there rfl rfl
      | reserved via =>
        simp only [RmwClient.proceed]
        split
        next free =>
          split
          · exact kept
          next result called => exact kept.call there free called
        · exact kept
      | called via ret seqNo attempt => exact kept.recordCall there
      | ending round =>
        simp only [RmwClient.proceed]
        split
        next free =>
          obtain ⟨stepped, threads, -⟩ := @Kept.coreStep _ _ _ _ kept free (.endOldest options.caller options.client) (.inr rfl) converts
          have there' : (s.coreStep options (.endOldest options.caller options.client) converts).threads[thread]? = some (.ending round) := by
            rw [threads]
            exact there
          have next : ∀ {new : SendStage}, new.holdsContext = false → new.between = false →
              Kept options ((s.coreStep options (.endOldest options.caller options.client) converts).setStage thread new) := by
            intro new free between
            apply stepped.setStage there' free
            · rw [between]
              rfl
            · exact stepped.counted.bound
          split
          · exact next rfl rfl
          · exact next rfl rfl
        · exact kept
      | waiting =>
        simp only [RmwClient.proceed]
        split
        · exact moves there rfl rfl
        · exact moves there rfl rfl
  | core event converts =>
    simp only [RmwClient.step]
    split
    next may => exact (kept.coreStep may.1 (.inl may.2) converts).1
    · exact kept

/-- Every call of core goes out under a number nothing is left of. -/
def Meets (options : RmwClientOptions) (s : RmwClient α ρ) : RmwClientEvent α ρ → Prop
  | .send _ => True
  | .proceed thread _ encoded read flushed room _ =>
    (s.threads[thread]?.any fun stage => stage.between && !stage.holdsContext) = true →
      s.core.Numbered (.call options.caller options.client (encoded.mapError EncodeFailure.ret) read flushed room)
  | .core event _ => s.core.Numbered event

instance (s : RmwClient α ρ) : (event : RmwClientEvent α ρ) → Decidable (Meets options s event)
  | .send _ => isTrue trivial
  | .proceed thread _ encoded read flushed room _ =>
    inferInstanceAs (Decidable ((s.threads[thread]?.any fun stage => stage.between && !stage.holdsContext) = true →
      s.core.Numbered (.call options.caller options.client (encoded.mapError EncodeFailure.ret) read flushed room)))
  | .core event _ => inferInstanceAs (Decidable (s.core.Numbered event))

/-- Every response filed is under the id returned for the request it answers. -/
structure Answered (options : RmwClientOptions) (s : RmwClient α ρ) : Prop where
  kept : Kept options s
  consistent : s.core.Consistent
  filed : ∀ pair ∈ s.filed, pair ∈ s.returned

theorem Answered.coreStep (answered : Answered options s) (free : s.contextFree = true) {event : ExchangeEvent α ρ}
    (made : outside options event = true ∨ event = .endOldest options.caller options.client) (numbered : s.core.Numbered event)
    (converts : Bool) :
    (s.coreStep options event converts).core.Consistent ∧
      ∀ pair ∈ (s.coreStep options event converts).filed, pair ∈ (s.coreStep options event converts).returned := by
  obtain ⟨-, -, core, returned, filed⟩ := answered.kept.coreStep free made converts
  have consistent := answered.consistent.step numbered
  refine ⟨core ▸ consistent, ?_⟩
  intro pair mem
  rw [returned]
  rcases filed pair mem with before | ⟨report, told, answer, response, name, own⟩
  · exact answered.filed pair before
  · rw [← reported_own consistent told response, ← name] at own
    exact own

theorem Answered.step (answered : Answered options s) {event : RmwClientEvent α ρ} (meets : Meets options s event) :
    Answered options (s.step options event) := by
  suffices both : (s.step options event).core.Consistent ∧ ∀ pair ∈ (s.step options event).filed, pair ∈ (s.step options event).returned from
    ⟨answered.kept.step event, both.1, both.2⟩
  cases event with
  | send thread =>
    simp only [RmwClient.step]
    split
    · exact ⟨answered.consistent, answered.filed⟩
    · exact ⟨answered.consistent, answered.filed⟩
  | proceed thread timedOut encoded read flushed room converts =>
    simp only [RmwClient.step]
    split
    · exact ⟨answered.consistent, answered.filed⟩
    next stage there =>
      cases stage with
      | idle => exact ⟨answered.consistent, answered.filed⟩
      | reserving =>
        simp only [RmwClient.proceed]
        split
        · exact ⟨answered.consistent, answered.filed⟩
        · split
          · exact ⟨answered.consistent, answered.filed⟩
          · exact ⟨answered.consistent, answered.filed⟩
      | trying round =>
        simp only [RmwClient.proceed]
        split
        · exact ⟨answered.consistent, answered.filed⟩
        · split
          · exact ⟨answered.consistent, answered.filed⟩
          · exact ⟨answered.consistent, answered.filed⟩
      | reserved via =>
        have numbered : s.core.Numbered
            (.call options.caller options.client (encoded.mapError EncodeFailure.ret) read flushed room) := by
          apply meets
          rw [there]
          rfl
        simp only [RmwClient.proceed]
        split
        · split
          · exact ⟨answered.consistent, answered.filed⟩
          · exact ⟨answered.consistent.step numbered, answered.filed⟩
        · exact ⟨answered.consistent, answered.filed⟩
      | called via ret seqNo attempt =>
        simp only [RmwClient.proceed, RmwClient.recordCall]
        split
        · exact ⟨answered.consistent, fun pair mem => List.mem_append_left _ (answered.filed pair mem)⟩
        · exact ⟨answered.consistent, answered.filed⟩
      | ending round =>
        simp only [RmwClient.proceed]
        split
        next free => exact answered.coreStep free (.inr rfl) trivial converts
        · exact ⟨answered.consistent, answered.filed⟩
      | waiting => exact ⟨answered.consistent, answered.filed⟩
  | core event converts =>
    simp only [RmwClient.step]
    split
    next may => exact answered.coreStep may.1 (.inl may.2) meets converts
    · exact ⟨answered.consistent, answered.filed⟩

/-- A client just created, in contexts that have not called yet. -/
theorem Kept.created {callers : List (Caller α)} (unused : Exchange.Unused callers) {server : Server (Named ρ)} {threads : Nat}
    (there : (Exchange.start callers server).client options.caller options.client = some (caller, client)) :
    Kept options (RmwClient.create options (Exchange.start callers server) threads) := by
  have none_ : ∀ slot, client.number slot = none := by
    intro slot
    obtain ⟨hcaller, hclient⟩ := Exchange.client_eq_some.mp there
    unfold Client.number
    cases found : client.calls[slot]? with
    | none => rfl
    | some call =>
      have free := unused caller (List.mem_of_getElem? hcaller) client (List.mem_of_getElem? hclient) call (List.mem_of_getElem? found)
      rw [Option.bind_some, free, Option.map_none]
  have records : ∀ i call, ¬ (RmwClient.create options (Exchange.start callers server) threads).Records i call := by
    intro i call records
    have mem := List.mem_of_getElem? records
    have no := List.eq_of_mem_replicate mem
    cases no
  have idle : ∀ (thread : Nat) stage,
      (RmwClient.create options (Exchange.start callers server) threads).threads[thread]? = some stage → stage = SendStage.idle := by
    intro thread stage found
    exact List.eq_of_mem_replicate (List.mem_of_getElem? found)
  refine ⟨⟨caller, client, there, ?_⟩, ?_, ?_⟩
  · refine ⟨?_, fun i call its => absurd its (records i call), fun i _ call _ its => absurd its (records i call), ?_⟩
    · intro slot _ _ _ _ one
      rw [none_] at one
      cases one
    · intro thread via seqNo attempt found
      cases idle thread _ found
  · refine ⟨List.nodup_nil, fun id mem => absurd mem List.not_mem_nil, List.nodup_nil, fun id mem => absurd mem List.not_mem_nil,
      fun i call its => absurd its (records i call), fun i _ call _ its => absurd its (records i call)⟩
  · refine ⟨List.length_replicate, ?_, Nat.zero_le _, ?_⟩
    · change 0 = (List.replicate _ none).countP Option.isSome + (List.replicate _ SendStage.idle).countP SendStage.between
      rw [List.countP_replicate, List.countP_replicate]
      rfl
    · intro thread thread' stage stage' found found' holds
      rw [idle thread stage found] at holds
      cases holds

/-- In every run: each id is returned once and filed once, and the counter is what is recorded and reserved, within the slots; and as long
as calls go out under numbers nothing is left of, each response filed is under the id returned for the request it answers. -/
theorem filed_under_own_request {callers : List (Caller α)} (unused : Exchange.Unused callers) (server : ServiceOptions)
    (service : RetrySettings) (maxOutstanding endpointId slots : Nat)
    (there : ((Exchange.start callers (.create (ρ := Named ρ) server service maxOutstanding endpointId slots)).client options.caller
      options.client).isSome) (threads : Nat) (events : List (RmwClientEvent α ρ)) :
    let start := create options (Exchange.start callers (.create (ρ := Named ρ) server service maxOutstanding endpointId slots)) threads
    let s := Run.after (step options) start events
    (s.returned.map Prod.fst).Nodup ∧ (s.filed.map Prod.fst).Nodup ∧
      s.callsInFlight = s.calls.countP Option.isSome + s.threads.countP SendStage.between ∧ s.callsInFlight ≤ options.maxOutstanding ∧
      (Run.Sound (step options) (Meets options) start events → ∀ pair ∈ s.filed, pair ∈ s.returned) := by
  intro start s
  obtain ⟨⟨caller, client⟩, found⟩ := Option.isSome_iff_exists.mp there
  have created : Kept options start := Kept.created unused found
  have kept : Kept options s := @Run.always _ _ (step options) (Kept options) (fun st event kept => kept.step event) start created events
  refine ⟨kept.ids.returned, kept.ids.filed, kept.counted.inFlight, kept.counted.bound, ?_⟩
  intro sound
  have answered : Answered options start :=
    ⟨created, unused.consistent server service maxOutstanding endpointId slots, fun pair mem => absurd mem List.not_mem_nil⟩
  exact (@Run.keeps _ _ (step options) (Meets options) (Answered options) (fun st event answered meets => answered.step meets) start events
    answered sound).filed

/-! Two threads and one request, and a request whose send fails after it has reached the Server. -/

def oneRequest : List (RmwClientEvent Nat Nat) :=
  [.send 0, .proceed 0 false (.ok 7) ⟨10, 1⟩ .all true true, .send 1, .proceed 0 false (.ok 7) ⟨10, 1⟩ .all true true,
    .proceed 1 false (.ok 8) ⟨11, 1⟩ .all true true, .proceed 0 false (.ok 7) ⟨10, 1⟩ .all true true,
    .core (.request 0 (Exchange.hostAt 20) ⟨0, 70, true, true, true⟩ []) true, .core (.response 0 0 ⟨30, 1⟩ true) true]

def oneSlot : RmwClientOptions := ⟨0, 0, 1, 10, true⟩

/-- The second thread waits for the first one's slot, whose response is filed under 1. -/
theorem filed_one :
    let s := Run.after (step oneSlot) (create oneSlot (Exchange.start Exchange.oneCaller (.create .build ⟨0, 0⟩ 1 1 2)) 2) oneRequest
    s.filed = [(1, ⟨0, 0, 0⟩)] ∧ (1, (⟨0, 0, 0⟩ : CallName)) ∈ s.returned ∧ s.callsInFlight ≤ 1 := by
  intro s
  have filed : s.filed = [(1, ⟨0, 0, 0⟩)] := by decide +kernel
  have all := @filed_under_own_request Nat Nat oneSlot Exchange.oneCaller (by decide +kernel) .build ⟨0, 0⟩ 1 1 2 (by decide +kernel) 2
    oneRequest
  refine ⟨filed, ?_, all.2.2.2.1⟩
  apply all.2.2.2.2 (by decide +kernel)
  change _ ∈ s.filed
  rw [filed]
  exact List.mem_singleton.mpr rfl

/-- The response to a request that was never accepted is filed under the id of the next one. -/
theorem filed_under_next_request :
    let s := Run.after (step oneSlot) (create oneSlot (Exchange.start Exchange.oneCaller (.create .build ⟨0, 0⟩ 1 1 2)) 1)
      [.send 0, .proceed 0 false (.ok 7) ⟨10, 1⟩ ⟨true, false, by decide⟩ true true,
        .proceed 0 false (.ok 7) ⟨10, 1⟩ ⟨true, false, by decide⟩ true true, .proceed 0 false (.ok 7) ⟨10, 1⟩ .all true true,
        .core (.request 0 (Exchange.hostAt 20) ⟨0, 70, true, true, true⟩ []) true,
        .send 0, .proceed 0 false (.ok 8) ⟨30, 1⟩ .all true true, .proceed 0 false (.ok 8) ⟨30, 1⟩ .all true true,
        .proceed 0 false (.ok 8) ⟨30, 1⟩ .all true true, .core (.request 1 (Exchange.hostAt 40) ⟨0, 80, true, true, true⟩ []) true,
        .core (.responseLost 0) true, .core (.response 0 0 ⟨50, 1⟩ true) true]
    s.filed = [(1, ⟨0, 0, 0⟩)] ∧ s.returned = [(1, ⟨0, 0, 1⟩)] := by
  decide +kernel

end RmwClient

end Rmw

end Tickle
