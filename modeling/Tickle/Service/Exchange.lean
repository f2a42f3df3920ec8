import Tickle.Run
import Tickle.Service.Calls
import Tickle.Service.Deferred

/-! # Clients, a Server and the network between them

Any number of contexts, each with any number of Clients of one service, call one Server. Requests and
responses on the way stay until they are lost: they arrive in any order, any number of times. Every
call has a name of its own, which its request's body carries and the answer to it repeats: the name is
not in the source, where the two ends know a call by 16 bits of its context's counter.
-/

namespace Tickle

/-- Which call of which Client of which context. -/
structure CallName where
  caller : Nat
  client : Nat
  attempt : Nat
  deriving DecidableEq, Repr

/-- A body and the call it is for. -/
structure Named (β : Type) where
  name : CallName
  value : β
  deriving DecidableEq, Repr

def CallAnswer.named {ρ : Type} (answer : CallAnswer ρ) (name : CallName) : CallAnswer (Named ρ) :=
  ⟨answer.returnCode, ⟨name, answer.body⟩, answer.encodes, answer.fits, answer.flushed⟩

/-- A context: its id, its address, `tt_Context.call_seq_no` and its Clients of the service. -/
structure Caller (α : Type) where
  id : BitVec 8
  sender : Sender
  callSeqNo : CallSeqNo
  clients : List (Client (Named α))

structure RequestCopy (α : Type) where
  source : BitVec 8
  sender : Sender
  request : CallRequest (Named α)
  deriving DecidableEq, Repr

structure ResponseCopy (ρ : Type) where
  dest : Sender
  response : CallResponse (Named ρ)
  deriving DecidableEq, Repr

/-- Both ends and the copies on their way. Beside the source: the requests the application has put off
and not answered, the calls whose callback has run, and the responses handed over, as the call and the
call the response was made for. -/
structure Exchange (α ρ : Type) where
  callers : List (Caller α)
  server : Server (Named ρ)
  serverTime : Nat
  requests : List (RequestCopy α)
  responses : List (ResponseCopy ρ)
  deferred : List (RequestId × CallName)
  executed : List CallName
  handed : List (CallName × CallName)

/-- What can happen. `elsewhere` is a call of another service of the context, which draws from the same
counter; `answered` are the requests the callback answers that were put off before. -/
inductive ExchangeEvent (α ρ : Type) where
  | call (k j : Nat) (encoded : Except CallRet α) (read : Reading) (flushed : Flushed) (room : Bool)
  | elsewhere (k : Nat) (seqNo : CallSeqNo)
  | retry (k j : Nat) (read : Reading) (due : Nat × Nat) (reached room : Bool)
  | endOldest (k j : Nat)
  | destroy (k j : Nat)
  | request (i : Nat) (host : Server.Host) (answer : CallAnswer ρ) (answered : List (Nat × CallAnswer ρ))
  | response (i k : Nat) (read : Reading) (decodes : Bool)
  | answer (i : Nat) (answer : CallAnswer ρ) (now : Nat)
  | deferredTimeout (due : Nat × Nat)
  | announced (clients : List (BitVec 8 × Nat)) (source : BitVec 8) (farewell : Bool)
  | requestLost (i : Nat)
  | responseLost (i : Nat)

namespace Caller

variable {α : Type}

/-- `find_calling_call()`: the Client with the outstanding call `seqNo`. -/
def callingClient (caller : Caller α) (seqNo : CallSeqNo) : Option Nat :=
  caller.clients.findIdx? fun client => (client.callingSlot seqNo).isSome

/-- The loop of `client_call_locked()`: the counter, past the numbers of outstanding calls. -/
def drawSeqNo (caller : Caller α) : CallSeqNo :=
  Loop.whileN (fun seqNo => (caller.callingClient seqNo).isSome) (· + 1) 65536 caller.callSeqNo

def setClient (caller : Caller α) (j : Nat) (client : Client (Named α)) : Caller α :=
  { caller with clients := caller.clients.set j client }

end Caller

namespace Exchange

variable {α ρ : Type}

/-- The contexts with their Clients, nothing called, nothing on the way. -/
def start (callers : List (Caller α)) (server : Server (Named ρ)) : Exchange α ρ where
  callers := callers
  server := server
  serverTime := 0
  requests := []
  responses := []
  deferred := []
  executed := []
  handed := []

def client (st : Exchange α ρ) (k j : Nat) : Option (Caller α × Client (Named α)) :=
  match st.callers[k]? with
  | none => none
  | some caller => (caller.clients[j]?).map fun client => (caller, client)

/-- The copies of requests among what a Client's step shows. -/
def copiesOf (caller : Caller α) (outputs : List (CallOutput (Named α) (Named ρ))) :
    List (RequestCopy α) :=
  outputs.filterMap fun
    | .request _ copy => some ⟨caller.id, caller.sender, copy⟩
    | _ => none

/-- A Client's step taken: its state, and its copies on the way. -/
def clientStepped (st : Exchange α ρ) (k j : Nat) (caller : Caller α)
    (result : Client (Named α) × List (CallOutput (Named α) (Named ρ))) : Exchange α ρ :=
  { st with
    callers := st.callers.set k (caller.setClient j result.1)
    requests := st.requests ++ copiesOf caller result.2 }

/-- The calls a Client's step reports to its callback with this response. -/
def handedBy (k j : Nat) (response : CallResponse (Named ρ))
    (outputs : List (CallOutput (Named α) (Named ρ))) : List (CallName × CallName) :=
  outputs.filterMap fun
    | .callback attempt _ _ _ => some (⟨k, j, attempt⟩, response.body.name)
    | _ => none

def responsesOf (outputs : List (ServerOutput (Named α) (Named ρ))) : List (ResponseCopy ρ) :=
  outputs.filterMap fun
    | .response response dest => some ⟨dest, response⟩
    | _ => none

def executedBy (outputs : List (ServerOutput (Named α) (Named ρ))) : List CallName :=
  outputs.filterMap fun
    | .executed _ request => some request.body.name
    | _ => none

def step (st : Exchange α ρ) : ExchangeEvent α ρ → Exchange α ρ
  | .call k j encoded read flushed room =>
    match st.client k j with
    | none => st
    | some (caller, client) =>
      let seqNo := caller.drawSeqNo
      -- With every number outstanding the source does not come back.
      if (caller.callingClient seqNo).isSome then st
      else
        let body := encoded.map fun value => ⟨⟨k, j, client.attempts⟩, value⟩
        let result := client.call (ρ := Named ρ) seqNo body read flushed room
        let drawn := result.2.2 = .ok ∨ result.2.2 = .outOfSchedule
        st.clientStepped k j { caller with callSeqNo := if drawn then seqNo + 1 else caller.callSeqNo }
          (result.1, result.2.1)
  | .elsewhere k seqNo =>
    { st with callers := st.callers.modify k fun caller => { caller with callSeqNo := seqNo } }
  | .retry k j read due reached room =>
    match st.client k j with
    | none => st
    | some (caller, client) => st.clientStepped k j caller (client.step read (.timer due reached room))
  | .endOldest k j =>
    match st.client k j with
    | none => st
    | some (caller, client) => st.clientStepped k j caller client.endOldestCall
  | .destroy k j =>
    match st.client k j with
    | none => st
    | some (caller, client) => st.clientStepped k j caller (client.destroy, [])
  | .request i host answer answered =>
    match st.requests[i]? with
    | none => st
    | some copy =>
      let entries := answered.filterMap fun (i, given) => (st.deferred[i]?).map (·, given)
      let ran : Server.Ran (Named ρ) :=
        ⟨answer.named copy.request.body.name,
          entries.map fun (put, given) => (put.1, given.named put.2)⟩
      let result := st.server.processCallrequest copy.source copy.sender copy.request host ran
      let ranFor := executedBy result.2
      { st with
        server := result.1
        serverTime := max st.serverTime host.later
        responses := st.responses ++ responsesOf result.2
        executed := st.executed ++ ranFor
        deferred :=
          if ranFor.isEmpty then st.deferred
          else st.deferred.filter (· ∉ entries.map (·.1)) ++
            (if answer.returnCode = callDeferred then
              [(⟨copy.source, copy.request.seqNo⟩, copy.request.body.name)] else []) }
  | .response i k read decodes =>
    match st.responses[i]?, st.callers[k]? with
    | some copy, some caller =>
      if copy.response.receiver = caller.id ∧ copy.dest = caller.sender then
        match caller.callingClient copy.response.seqNo with
        | none => st
        | some j =>
          match caller.clients[j]? with
          | none => st
          | some client =>
            let result := client.step read (.response copy.response decodes)
            { st.clientStepped k j caller result with
              handed := st.handed ++ handedBy k j copy.response result.2 }
      else st
    | _, _ => st
  | .answer i answer now =>
    match st.deferred[i]? with
    | none => st
    | some put =>
      let result := st.server.sendResponse (α := Named α) put.1 (answer.named put.2) now
      { st with
        server := result.1
        serverTime := max st.serverTime now
        responses := st.responses ++ responsesOf result.2.2
        deferred := st.deferred.filter (· ≠ put) }
  | .deferredTimeout due => { st with server := (st.server.step (α := Named α) (.timeout due)).1 }
  | .announced clients source farewell =>
    { st with server := (st.server.step (α := Named α) (.announced clients source farewell)).1 }
  | .requestLost i => { st with requests := st.requests.eraseIdx i }
  | .responseLost i => { st with responses := st.responses.eraseIdx i }

def run (st : Exchange α ρ) (events : List (ExchangeEvent α ρ)) : Exchange α ρ :=
  Run.after step st events

end Exchange

end Tickle
