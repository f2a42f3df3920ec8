import Tickle.Service.Call

/-! # A Client

`struct tt_Client` with its call slots, the schedule of a call's sends, and the four things that
happen to a call: it is made, its timer runs, a response comes for it, the caller ends it. The
scheduler holds one kind of entry here, `call_retry` of one slot; the rest of the heap is seen only
through whether it had room.
-/

namespace Tickle

/-- `struct tt_ClientCall`. `attempt` is not in the source: it numbers the calls handed to the
network, so that a call keeps its name when its seq_no comes round. -/
structure ClientCall (α : Type) where
  cache : Option (CallRequest α)
  cacheTime : Nat
  index : Nat
  attempt : Nat
  deriving DecidableEq, Repr

def ClientCall.free {α : Type} : ClientCall α := ⟨none, 0, 0, 0⟩

structure ClientOptions where
  reliable : Bool
  callRetryOwn : Bool
  own : RetrySettings
  service : RetrySettings
  context : ServiceOptions
  maxOutstanding : Nat

structure Client (α : Type) where
  options : ClientOptions
  endpointId : Nat
  clientTag : BitVec 8
  calls : List (ClientCall α)
  callsMade : Nat
  latency : Nat
  latencyVar : Nat
  latencyBackedOff : Bool
  latencyBackedOffAt : Nat
  callBackoff : Nat
  /-- The scheduler's `call_retry` entries for this Client: when, and for which slot. -/
  timers : List (Nat × Nat)
  attempts : Nat

inductive CallRet where
  | ok | illegalStatus | outOfBuffer | protocolError | ioError | outOfSchedule
  deriving DecidableEq, Repr

/-- What a step of a Client shows outside it. -/
inductive CallOutput (α ρ : Type) where
  | accepted (attempt : Nat)
  | request (attempt : Nat) (copy : CallRequest α)
  | callback (attempt : Nat) (seqNo : CallSeqNo) (returnCode : Int) (response : Option ρ)

/-- How a flush ended: whether any destination got the datagram, and whether every one did. A send
that reports success has reached somebody. -/
structure Flushed where
  reached : Bool
  ok : Bool
  reached_of_ok : ok = true → reached = true

def Flushed.all : Flushed := ⟨true, true, fun _ => rfl⟩

namespace Client

variable {α ρ : Type}

def create (options : ClientOptions) (endpointId : Nat) (clientTag : BitVec 8) : Client α where
  options := options
  endpointId := endpointId
  clientTag := clientTag
  calls := List.replicate options.maxOutstanding .free
  callsMade := 0
  latency := 0
  latencyVar := 0
  latencyBackedOff := false
  latencyBackedOffAt := 0
  callBackoff := 0
  timers := []
  attempts := 0

/-- `tt_CLIENT_CALL_WINDOW`. -/
def callWindow (c : Client α) : Nat := 2 * c.options.maxOutstanding

/-! ## The schedule of a call -/

def retrySettings (c : Client α) : RetrySettings :=
  if c.options.callRetryOwn then c.options.own else c.options.service

def clientRetryInterval (c : Client α) : Nat := c.retrySettings.interval.toNat

def callRetryCount (c : Client α) : Nat :=
  if c.retrySettings.count ≠ 0 then c.retrySettings.count.toNat
  else c.options.context.callRetryCount.toNat

/-- `call_retry_bounds()`: the first wait and the ceiling of each. -/
def callRetryBounds (c : Client α) (granularity : Nat) : Nat × Nat :=
  let multiple := c.options.context.callRetryMaxSrttMultiple.toNat
  if c.latency = 0 then
    let first := c.options.context.callRetryInterval.toNat
    (first, first * multiple)
  else
    let spread := max (4 * c.latencyVar) granularity
    (c.latency + spread, max c.latency granularity * multiple)

/-- The doubling both wait computations share: `k` times, stopping at the ceiling. -/
def backedOff (ceiling : Nat) : Nat → Nat → Nat
  | 0, wait => wait
  | k + 1, wait =>
    if wait < ceiling then backedOff ceiling k (if ceiling / 2 < wait then ceiling else wait * 2)
    else wait

def computeRetryInterval (c : Client α) (retry granularity : Nat) : Nat :=
  if c.clientRetryInterval ≠ 0 then c.clientRetryInterval
  else
    let (first, ceiling) := c.callRetryBounds granularity
    backedOff ceiling (retry + c.callBackoff) (min first ceiling)

def callDeadline (c : Client α) : Nat :=
  if c.clientRetryInterval ≠ 0 then uint64Max
  else (c.callRetryCount + 1) * c.options.context.callDeadlinePerSend.toNat

def callNextWake (c : Client α) (cacheTime retry : Nat) (read : Reading) : Nat :=
  let deadline := c.callDeadline
  let deadlineAt := saturatingAdd cacheTime deadline
  let wait :=
    -- The wait after the last send is the ceiling: nothing follows it on the wire.
    if deadline ≠ uint64Max ∧ c.callRetryCount ≤ retry then (c.callRetryBounds read.granularity).2
    else c.computeRetryInterval retry read.granularity
  min (saturatingAdd read.now wait) deadlineAt

def callPastDeadline (c : Client α) (cacheTime now : Nat) : Bool :=
  c.callDeadline ≠ uint64Max && cacheTime ≤ now && c.callDeadline ≤ now - cacheTime

def backOffRetryInterval (c : Client α) (cacheTime now : Nat) : Client α :=
  if c.clientRetryInterval ≠ 0 then c
  else if cacheTime < c.latencyBackedOffAt then c
  else
    let limit := min c.callDeadline uint32Max
    let latency := if c.latency = 0 then c.options.context.callRetryInterval.toNat else c.latency
    let latency := if latency < limit then min (latency * 2) limit else latency
    { c with latency := latency, latencyBackedOff := true, latencyBackedOffAt := now }

/-- `call_give_up_span()`. -/
def callGiveUpSpan (c : Client α) : Nat :=
  if c.callDeadline ≠ uint64Max then c.callDeadline
  else
    let sends := c.callRetryCount + 1
    if uint64Max / c.clientRetryInterval < sends then uint64Max else sends * c.clientRetryInterval

/-! ## The scheduler's entries -/

def schedule (c : Client α) (time slot : Nat) : Client α :=
  { c with timers := c.timers ++ [(time, slot)] }

def unschedule (c : Client α) (slot : Nat) : Client α :=
  { c with timers := c.timers.filter (·.2 ≠ slot) }

def setCall (c : Client α) (slot : Nat) (call : ClientCall α) : Client α :=
  { c with calls := c.calls.set slot call }

/-! ## Making a call -/

def freeSlot (c : Client α) : Option Nat := c.calls.findIdx? (·.cache.isNone)

def clientWindowClosed (c : Client α) : Bool :=
  c.calls.any fun call =>
    call.cache.isSome && c.callWindow ≤ (c.callsMade - call.index) % 2 ^ 32

/-- The slot of this Client's outstanding call `seqNo`: its part of `find_calling_call()`. -/
def callingSlot (c : Client α) (seqNo : CallSeqNo) : Option Nat :=
  c.calls.findIdx? fun call => call.cache.any (·.seqNo = seqNo)

/-- `client_call_locked()` with the seq_no its context drew. `encoded` is what the request's codec
and the client's cache area made of it; `room` whether the scheduler took the retry entry. -/
def call (c : Client α) (seqNo : CallSeqNo) (encoded : Except CallRet α) (read : Reading)
    (flushed : Flushed) (room : Bool) : Client α × List (CallOutput α ρ) × CallRet :=
  match c.freeSlot with
  | none => (c, [], .illegalStatus)
  | some slot =>
    if c.clientWindowClosed then (c, [], .illegalStatus)
    else match encoded with
      | .error ret => (c, [], ret)
      | .ok body =>
        let request : CallRequest α := ⟨c.endpointId, seqNo, 0, c.clientTag, body⟩
        let sent := if flushed.reached then [.request c.attempts request] else []
        let number := c.attempts
        let c := { c with attempts := c.attempts + 1 }
        if !flushed.ok then (c, sent, .ioError)
        else
          let made : ClientCall α := ⟨some request, read.now, c.callsMade, number⟩
          let c := { c.setCall slot made with callsMade := c.callsMade + 1 }
          if !room then (c.setCall slot { made with cache := none }, sent, .outOfSchedule)
          else (c.schedule (c.callNextWake read.now 0 read) slot, sent ++ [.accepted number], .ok)

/-! ## The timer of a call -/

def endCallUnanswered (c : Client α) (slot : Nat) (call : ClientCall α) (seqNo : CallSeqNo) :
    Client α × List (CallOutput α ρ) :=
  (c.setCall slot { call with cache := none },
    [.callback call.attempt seqNo callTimeout none])

def bestEffortCallTimer (c : Client α) (slot : Nat) (call : ClientCall α) (seqNo : CallSeqNo)
    (now : Nat) (room : Bool) : Client α × List (CallOutput α ρ) :=
  let finish := saturatingAdd call.cacheTime c.callGiveUpSpan
  if finish ≤ now then c.endCallUnanswered slot call seqNo
  else if room then (c.schedule finish slot, [])
  else c.endCallUnanswered slot call seqNo

/-- `call_retry()`, its entry already popped. `reached` is whether `resend_call_request()` put the
copy on the wire: a copy that does not go out is left to the next round. -/
def callRetry (c : Client α) (slot : Nat) (read : Reading) (reached room : Bool) :
    Client α × List (CallOutput α ρ) :=
  match c.calls[slot]? with
  | none => (c, [])
  | some call =>
    match call.cache with
    | none => (c, [])
    | some request =>
      if !c.options.reliable then c.bestEffortCallTimer slot call request.seqNo read.now room
      else
        -- `++callrequest_header->retry` is a byte, whatever `call_retry_count` is
        let request := { request with retry := request.retry + 1 }
        let call := { call with cache := some request }
        let c := c.setCall slot call
        if c.callRetryCount < request.retry.toNat || c.callPastDeadline call.cacheTime read.now then
          (c.backOffRetryInterval call.cacheTime read.now).endCallUnanswered slot call request.seqNo
        else
          let sent := if reached then [.request call.attempt request] else []
          if room then
            (c.schedule (c.callNextWake call.cacheTime request.retry.toNat read) slot, sent)
          else
            let (c, reported) := c.endCallUnanswered slot call request.seqNo
            (c, sent ++ reported)

/-! ## A response, and the caller's own end -/

/-- `calculate_latency()`, at least 1 ns as the estimator takes it. -/
def callLatency (cacheTime now : Nat) : Nat :=
  let latency := if now ≤ cacheTime then 0 else min (now - cacheTime) uint32Max
  if latency = 0 then 1 else latency

/-- The estimator of `process_callresponse()`: RFC 6298's, with Karn's rule for a call resent. -/
def noteLatency (c : Client α) (resent latency : Nat) : Client α :=
  if resent ≠ 0 then { c with callBackoff := min (c.callBackoff + resent) 6 }
  else if c.latency = 0 || c.latencyBackedOff then
    { c with
      callBackoff := 0, latency := latency, latencyVar := latency / 2, latencyBackedOff := false }
  else
    let deviation := if latency < c.latency then c.latency - latency else latency - c.latency
    { c with
      callBackoff := 0
      latencyVar := (3 * c.latencyVar + deviation) / 4
      latency := (7 * c.latency + latency) / 8 }

/-- `process_callresponse()` from the call it found on. `decodes` is the codec's verdict, asked only
when the return code says there is a body. -/
def processCallresponse (c : Client α) (slot : Nat) (response : CallResponse ρ) (decodes : Bool)
    (now : Nat) : Client α × List (CallOutput α ρ) :=
  match c.calls[slot]? with
  | none => (c, [])
  | some call =>
    match call.cache with
    | none => (c, [])
    | some request =>
      if response.returnCode = 0 && !decodes then (c, [])
      else
        let body := if response.returnCode = 0 then some response.body else none
        let latency := callLatency call.cacheTime now
        let c := (c.setCall slot { call with cache := none }).unschedule slot
        (c.noteLatency request.retry.toNat latency,
          [.callback call.attempt response.seqNo response.returnCode body])

/-- How many calls ago the call in `slot` was made, `none` for a free slot. -/
def callAge (c : Client α) (call : ClientCall α) : Nat := (c.callsMade - call.index) % 2 ^ 32

/-- `client_oldest_call()`: the first of the outstanding calls none is older than. -/
def oldestSlot (c : Client α) : Option Nat :=
  (List.range c.calls.length).foldl (fun oldest slot =>
    match c.calls[slot]? with
    | none => oldest
    | some call =>
      if call.cache.isNone then oldest
      else match oldest.bind (c.calls[·]?) with
        | none => some slot
        | some old => if c.callAge old < c.callAge call then some slot else oldest) none

def endOldestCall (c : Client α) : Client α × List (CallOutput α ρ) :=
  match c.oldestSlot with
  | none => (c, [])
  | some slot =>
    match c.calls[slot]? with
    | none => (c, [])
    | some call =>
      match call.cache with
      | none => (c, [])
      | some request => (c.unschedule slot).endCallUnanswered slot call request.seqNo

/-- `client_destroy_locked()`: the outstanding calls go without a word to the callback. -/
def destroy (c : Client α) : Client α :=
  { c with
    calls := c.calls.map fun call => { call with cache := none }
    timers := c.timers.filter fun entry => (c.calls[entry.2]?.bind (·.cache)).isNone }

end Client

end Tickle
