import Tickle.Service.Call

/-! # A Server

`struct tt_Server`: the answers it keeps for retrying clients, and the requests whose callback has
put its answer off. A request is turned away, answered from the kept answers, answered by the
callback, or held until `tt_Server_send_response()`. The callback's own doings are an input of the
step (`Ran`): what it returned, and what it answered itself while it ran.
-/

namespace Tickle

/-- `tt_RequestId`. -/
structure RequestId where
  receiver : BitVec 8
  seqNo : CallSeqNo
  deriving DecidableEq, Repr

/-- Where a datagram came from. -/
structure Sender where
  ip : Nat
  port : Nat
  deriving DecidableEq, Repr

/-- Slot `i` of the answer cache: `cache[i]` is the entry while `live`, NULL otherwise; the bytes and
`sentAt` outlast it, so that a late retry can still be recognised. -/
structure CacheSlot (ρ : Type) where
  entry : Option (CallResponse ρ)
  live : Bool
  expiresAt : Nat
  sentAt : Nat
  clientEntity : Nat
  clientTag : BitVec 8
  clientPort : Nat
  deriving DecidableEq, Repr

def CacheSlot.clear {ρ : Type} (slot : CacheSlot ρ) : CacheSlot ρ :=
  { slot with
    live := false, expiresAt := 0, sentAt := 0, clientEntity := 0, clientTag := 0, clientPort := 0 }

inductive SlotState where
  | empty | pending | ready
  deriving DecidableEq, Repr

structure PendingSlot where
  state : SlotState
  requestId : RequestId
  clientTag : BitVec 8
  sender : Sender
  returnCode : Int
  timeoutScheduled : Bool
  deriving DecidableEq, Repr

structure Server (ρ : Type) where
  options : ServiceOptions
  service : RetrySettings
  maxOutstanding : Nat
  endpointId : Nat
  cache : List (CacheSlot ρ)
  pending : List PendingSlot
  clientRetryGap : Nat
  /-- The clients of this service discovery knows: their context and entity id, oldest entry first. -/
  clients : List (BitVec 8 × Nat)
  /-- The scheduler's `pending_response_timeout` entries: when, and for which slot. -/
  timers : List (Nat × Nat)

/-- What a step of a Server shows outside it: a callback run, or a response put on the wire. -/
inductive ServerOutput (α ρ : Type) where
  | executed (source : BitVec 8) (request : CallRequest α)
  | response (response : CallResponse ρ) (dest : Sender)

/-- An answer on its way out. `encodes` is the codec's verdict, `fits` whether the encoded response
fits a cache entry, `flushed` whether it went out. -/
structure CallAnswer (ρ : Type) where
  returnCode : Int
  body : ρ
  encodes : Bool
  fits : Bool
  flushed : Bool
  deriving DecidableEq, Repr

namespace Server

variable {α ρ : Type}

def create (options : ServiceOptions) (service : RetrySettings) (maxOutstanding endpointId slots : Nat) :
    Server ρ where
  options := options
  service := service
  maxOutstanding := maxOutstanding
  endpointId := endpointId
  cache := List.replicate slots ⟨none, false, 0, 0, 0, 0, 0⟩
  pending := List.replicate slots ⟨.empty, ⟨0, 0⟩, 0, ⟨0, 0⟩, 0, false⟩
  clientRetryGap := 0
  clients := []
  timers := []

def callWindow (s : Server ρ) : Nat := 2 * s.maxOutstanding

/-! ## How long an answer is kept -/

/-- `call_retry_window()`. -/
def callRetryWindow (ceiling : Nat) : Nat → Nat → Nat → Nat
  | 0, _, total => total
  | waits + 1, wait, total =>
    if ceiling ≤ wait then
      let left := waits + 1
      if ceiling ≠ 0 ∧ (uint64Max - total) / ceiling < left then uint64Max
      else total + left * ceiling
    else callRetryWindow ceiling waits (if ceiling / 2 < wait then ceiling else wait * 2) (total + wait)

def clientCount (s : Server ρ) : Nat :=
  if s.service.count ≠ 0 then s.service.count.toNat else s.options.callRetryCount.toNat

def serverClientWindow (s : Server ρ) : Nat :=
  let waits := if s.clientCount = uint32Max then s.clientCount else s.clientCount + 1
  if s.service.interval ≠ 0 then
    let interval := s.service.interval.toNat
    callRetryWindow interval waits interval 0
  else (waits + 1) * s.options.callDeadlinePerSend.toNat

def serverCacheLifetime (s : Server ρ) : Nat :=
  let learnt :=
    if uint64Max / 65535 < s.clientRetryGap then uint64Max
    else s.clientRetryGap * s.options.serverCacheGapMultiple.toNat
  max learnt s.serverClientWindow

def noteClientRetryGap (s : Server ρ) (gap : Nat) : Server ρ :=
  { s with clientRetryGap := max gap (s.clientRetryGap - s.clientRetryGap / 8) }

/-! ## Finding a kept answer -/

/-- `server_cache_slot_names()` of a slot that holds or held something. -/
def slotNames (slot : CacheSlot ρ) (receiver : BitVec 8) (clientTag : BitVec 8)
    (seqNo : CallSeqNo) : Bool :=
  slot.entry.any fun entry =>
    entry.receiver = receiver && slot.clientTag = clientTag && entry.seqNo = seqNo

/-- `server_cache_live()` at `now`, the slot's part: an expired answer leaves `cache[i]`. -/
def expire (now : Nat) (slot : CacheSlot ρ) : CacheSlot ρ :=
  if slot.live && slot.expiresAt ≤ now then { slot with live := false } else slot

/-- `find_server_cache_slot()`: the first live slot that names the call, dropping the expired ones it
names on the way. -/
def findServerCacheSlot (receiver clientTag : BitVec 8) (seqNo : CallSeqNo) (now : Nat) :
    List (CacheSlot ρ) → List (CacheSlot ρ) × Option Nat
  | [] => ([], none)
  | slot :: rest =>
    if slot.live && slotNames slot receiver clientTag seqNo then
      if now < slot.expiresAt then (slot :: rest, some 0)
      else
        let (rest, found) := findServerCacheSlot receiver clientTag seqNo now rest
        ({ slot with live := false } :: rest, found.map (· + 1))
    else
      let (rest, found) := findServerCacheSlot receiver clientTag seqNo now rest
      (slot :: rest, found.map (· + 1))

/-- `server_client_entity()`, 0 for unknown. -/
def serverClientEntity (s : Server ρ) (receiver : BitVec 8) : Nat :=
  ((s.clients.find? (·.1 = receiver)).map (·.2)).getD 0

def serverClientKnown (s : Server ρ) (receiver : BitVec 8) (entity : Nat) : Bool :=
  s.clients.contains (receiver, entity)

/-- 0 on either side is a port not known. -/
def serverPortDiffers (cached asking : Nat) : Bool :=
  cached ≠ asking && cached ≠ 0 && asking ≠ 0

def slotIsStale (s : Server ρ) (slot : CacheSlot ρ) (receiver : BitVec 8) (port : Nat) : Bool :=
  if serverPortDiffers slot.clientPort port then true
  else if slot.clientEntity = 0 then false
  else s.serverClientEntity receiver ≠ 0 && !s.serverClientKnown receiver slot.clientEntity

def expiryFrom (s : Server ρ) (now : Nat) : Nat := saturatingAdd now s.serverCacheLifetime

def modifySlot (s : Server ρ) (i : Nat) (f : CacheSlot ρ → CacheSlot ρ) : Server ρ :=
  { s with cache := s.cache.modify i f }

/-- `note_server_cache_hit()`. -/
def noteServerCacheHit (s : Server ρ) (i now : Nat) : Server ρ :=
  match s.cache[i]? with
  | none => s
  | some slot =>
    let s := if slot.sentAt < now then s.noteClientRetryGap (now - slot.sentAt) else s
    let expiry := s.expiryFrom now
    s.modifySlot i fun slot => { slot with sentAt := now, expiresAt := expiry }

/-- `learn_from_expired_response()`: the first slot whose expired answer was to this call. -/
def learnFromExpiredResponse (s : Server ρ) (receiver clientTag : BitVec 8) (seqNo : CallSeqNo)
    (port now : Nat) : Server ρ :=
  match s.cache.findIdx? fun slot =>
      !slot.live && slot.sentAt ≠ 0 && slotNames slot receiver clientTag seqNo with
  | none => s
  | some i =>
    match s.cache[i]? with
    | none => s
    | some slot =>
      let s :=
        if slot.sentAt < now && !s.slotIsStale slot receiver port then
          let lifetime := s.serverCacheLifetime
          let bound := if uint64Max / 2 < lifetime then uint64Max else 2 * lifetime
          s.noteClientRetryGap (min (now - slot.sentAt) bound)
        else s
      s.modifySlot i fun slot => { slot with sentAt := 0 }

/-! ## Keeping an answer -/

/-- `struct server_cache_pick`, slots by index. -/
structure Pick where
  emptySlot : Option Nat
  expiredSlot : Option Nat
  oldestLive : Option Nat
  ownOldest : Option Nat
  ownLive : Nat
  ownOldestAge : Nat
  newAge : Nat

/-- The first index among `candidates` with the least `key`. -/
def argLeast (key : Nat → Nat) : List Nat → Option Nat
  | [] => none
  | i :: rest =>
    match argLeast key rest with
    | none => some i
    | some j => if key j < key i then some j else some i

/-- The first index among `candidates` with the greatest `key`. -/
def argGreatest (key : Nat → Nat) : List Nat → Option Nat
  | [] => none
  | i :: rest =>
    match argGreatest key rest with
    | none => some i
    | some j => if key i < key j then some j else some i

def slotAt (slots : List (CacheSlot ρ)) (i : Nat) : CacheSlot ρ :=
  slots.getD i ⟨none, false, 0, 0, 0, 0, 0⟩

/-- The indices of the slots that satisfy `p`, in order. -/
def slotsWhere (slots : List (CacheSlot ρ)) (p : CacheSlot ρ → Bool) : List Nat :=
  (List.range slots.length).filter fun i => p (slotAt slots i)

def entrySeqNo (slot : CacheSlot ρ) : CallSeqNo := (slot.entry.map (·.seqNo)).getD 0

/-- `seq_no_ahead()`. -/
def seqNoAhead (seqNo newest : CallSeqNo) : Nat :=
  let ahead := (seqNo - newest).toNat
  if ahead ≤ 32767 then ahead else 0

def slotIsOwn (slot : CacheSlot ρ) (receiver clientTag : BitVec 8) (port : Nat) : Bool :=
  slot.live && slot.entry.any (·.receiver = receiver) && slot.clientTag = clientTag &&
    !serverPortDiffers slot.clientPort port

/-- `pick_server_cache_slots()` over slots whose liveness is decided. -/
def pickServerCacheSlots (slots : List (CacheSlot ρ)) (receiver clientTag : BitVec 8) (port : Nat)
    (seqNo : CallSeqNo) (maxOutstanding : Nat) : Pick :=
  let sentAt i := (slotAt slots i).sentAt
  let own := if 1 < maxOutstanding then slotsWhere slots (slotIsOwn · receiver clientTag port) else []
  let newestAhead := own.foldl (fun m i => max m (seqNoAhead (entrySeqNo (slotAt slots i)) seqNo)) 0
  let newest := seqNo + BitVec.ofNat 16 newestAhead
  let age i := (newest - entrySeqNo (slotAt slots i)).toNat
  let ownOldest := argGreatest age own
  { emptySlot := (slotsWhere slots fun slot => !slot.live && slot.sentAt = 0).head?
    expiredSlot := argLeast sentAt (slotsWhere slots fun slot => !slot.live && slot.sentAt ≠ 0)
    oldestLive := argLeast sentAt (slotsWhere slots fun slot => slot.live)
    ownOldest := ownOldest
    ownLive := own.length
    ownOldestAge := (ownOldest.map age).getD 0
    newAge := newestAhead }

/-- Where `set_server_cache()` puts the answer, `none` when it is sent and not kept. -/
def cacheTarget (s : Server ρ) (pick : Pick) : Option Nat :=
  if s.callWindow ≤ pick.ownLive then
    if pick.ownOldestAge ≤ pick.newAge then none else pick.ownOldest
  else (pick.emptySlot.or pick.expiredSlot).or
    (if s.maxOutstanding ≤ pick.ownLive then pick.ownOldest else pick.oldestLive)

/-- `set_server_cache()`. -/
def setServerCache (s : Server ρ) (response : CallResponse ρ) (clientTag : BitVec 8) (port : Nat)
    (fits : Bool) (now : Nat) : Server ρ :=
  -- One call per Client: the Client's previous answer goes.
  let slots := s.cache.map (expire now)
  let slots :=
    if s.maxOutstanding = 1 then
      slots.map fun slot =>
        if slot.live && slot.entry.any (·.receiver = response.receiver) && slot.clientTag = clientTag
        then slot.clear else slot
    else slots
  let s := { s with cache := slots }
  if !fits then s
  else
    match s.cacheTarget
        (pickServerCacheSlots slots response.receiver clientTag port response.seqNo s.maxOutstanding) with
    | none => s
    | some i =>
      { s with
        cache := slots.set i
          ⟨some response, true, s.expiryFrom now, now, s.serverClientEntity response.receiver,
            clientTag, port⟩ }

/-- `server_cache_can_keep()`, with the slots as it leaves them. -/
def serverCacheCanKeep (s : Server ρ) (receiver clientTag : BitVec 8) (port : Nat)
    (seqNo : CallSeqNo) (now : Nat) : Server ρ × Bool :=
  if s.cache.any (!·.live) then (s, true)
  else
    match s.cache.findIdx? (·.expiresAt ≤ now) with
    | some i => (s.modifySlot i fun slot => { slot with live := false }, true)
    | none =>
      if s.maxOutstanding = 1 then (s, s.cache.any (slotIsOwn · receiver clientTag port))
      else
        (s, s.callWindow ≤
          (pickServerCacheSlots s.cache receiver clientTag port seqNo s.maxOutstanding).ownLive)

/-- `server_can_take_request()`; `schedHasRoom` is `sched_has_room()`. -/
def serverCanTakeRequest (s : Server ρ) (receiver clientTag : BitVec 8) (port : Nat)
    (seqNo : CallSeqNo) (schedHasRoom : Bool) (now : Nat) : Server ρ × Bool :=
  if !schedHasRoom then (s, false) else s.serverCacheCanKeep receiver clientTag port seqNo now

/-- `encode_call_response()`: the response, kept before it is flushed. -/
def encodeCallResponse (s : Server ρ) (receiver clientTag : BitVec 8) (port : Nat)
    (seqNo : CallSeqNo) (answer : CallAnswer ρ) (now : Nat) : Server ρ × Option (CallResponse ρ) :=
  if answer.returnCode = 0 && !answer.encodes then (s, none)
  else
    let response : CallResponse ρ :=
      ⟨receiver, s.endpointId, seqNo, 0, answer.returnCode, answer.body⟩
    (s.setServerCache response clientTag port answer.fits now, some response)

/-! ## Answers put off -/

def findPendingSlot (s : Server ρ) (receiver clientTag : BitVec 8) (seqNo : CallSeqNo) : Option Nat :=
  s.pending.findIdx? fun slot =>
    slot.state ≠ .empty && slot.requestId = ⟨receiver, seqNo⟩ && slot.clientTag = clientTag

/-- `defer_call_response()`; `room` is whether the scheduler took the timeout. -/
def deferCallResponse (s : Server ρ) (requestId : RequestId) (clientTag : BitVec 8) (sender : Sender)
    (now : Nat) (room : Bool) : Server ρ × Bool :=
  match s.pending.findIdx? (·.state = .empty) with
  | none => (s, false)
  | some i =>
    let slot (state : SlotState) (scheduled : Bool) : PendingSlot → PendingSlot := fun old =>
      { old with
        state := state, requestId := requestId, clientTag := clientTag, sender := sender
        timeoutScheduled := scheduled || old.timeoutScheduled }
    if !room then ({ s with pending := s.pending.modify i (slot .empty false) }, false)
    else
      ({ s with
          pending := s.pending.modify i (slot .pending true)
          timers := s.timers ++ [(now + s.options.serverDeferredResponseTimeout, i)] }, true)

/-- `pending_response_timeout()`, its entry already popped. -/
def pendingResponseTimeout (s : Server ρ) (i : Nat) : Server ρ :=
  { s with
    pending := s.pending.modify i fun slot =>
      { slot with
        state := if slot.state = .pending then .empty else slot.state
        timeoutScheduled := false } }

/-- `tt_Server_send_response()` and the `send_ready_slot()` it ends in: whether it found the request,
and what went out. -/
def sendResponse (s : Server ρ) (requestId : RequestId) (answer : CallAnswer ρ) (now : Nat) :
    Server ρ × Bool × List (ServerOutput α ρ) :=
  match s.pending.findIdx? fun slot => slot.state = .pending && slot.requestId = requestId with
  | none => (s, false, [])
  | some i =>
    match s.pending[i]? with
    | none => (s, false, [])
    | some slot =>
      -- Under the state lock the slot passes through READY and is empty again at the end.
      let s := { s with
        pending := s.pending.set i
          { slot with state := .empty, returnCode := answer.returnCode, timeoutScheduled := false }
        timers := if slot.timeoutScheduled then s.timers.filter (·.2 ≠ i) else s.timers }
      let (s, response) :=
        s.encodeCallResponse requestId.receiver slot.clientTag slot.sender.port requestId.seqNo answer now
      match response with
      | none => (s, true, [])
      | some response => (s, true, if answer.flushed then [.response response slot.sender] else [])

/-! ## A request -/

/-- What the callback did: its return code and answer, and the deferred requests it answered itself
before it returned. -/
structure Ran (ρ : Type) where
  answer : CallAnswer ρ
  answered : List (RequestId × CallAnswer ρ)
  deriving DecidableEq, Repr

/-- What else the host decides while a request is processed: the clock before and after the
callback, the scheduler's room before and after it, whether the request decodes, whether there was
buffer to resend a kept answer, and whether the flush succeeded. -/
structure Host where
  now : Nat
  later : Nat
  schedHasRoom : Bool
  room : Bool
  decodes : Bool
  buffer : Bool
  flushed : Bool
  deriving DecidableEq, Repr

/-- The answers a callback gives to requests it put off before. -/
def answerAll (s : Server ρ) (now : Nat) :
    List (RequestId × CallAnswer ρ) → Server ρ × List (ServerOutput α ρ)
  | [] => (s, [])
  | (requestId, answer) :: rest =>
    let (s, _, outputs) := s.sendResponse requestId answer now
    let (s, more) := answerAll s now rest
    (s, outputs ++ more)

/-- `resend_cached_response()`: the kept answer, its retry counted. -/
def resendCachedResponse (s : Server ρ) (i : Nat) (buffer : Bool) :
    Server ρ × Option (CallResponse ρ) :=
  let s := s.modifySlot i fun slot =>
    { slot with entry := slot.entry.map fun entry => { entry with retry := entry.retry + 1 } }
  (s, if buffer then (slotAt s.cache i).entry else none)

/-- The kept answer to a request, if it is still good: one kept for an earlier incarnation of the
client is dropped. -/
def checkCache (s : Server ρ) (source : BitVec 8) (sender : Sender) (request : CallRequest α)
    (now : Nat) : Server ρ × Option Nat :=
  let (slots, found) := findServerCacheSlot source request.clientTag request.seqNo now s.cache
  let s := { s with cache := slots }
  match found with
  | none => (s, none)
  | some i =>
    if s.slotIsStale (slotAt s.cache i) source sender.port then (s.modifySlot i .clear, none)
    else (s, some i)

/-- A request with no kept answer, up to the callback: whether it may run. -/
def takesRequest (s : Server ρ) (source : BitVec 8) (sender : Sender) (request : CallRequest α)
    (host : Host) : Server ρ × Bool :=
  let s :=
    if request.retry ≠ 0 then
      s.learnFromExpiredResponse source request.clientTag request.seqNo sender.port host.now
    else s
  s.serverCanTakeRequest source request.clientTag sender.port request.seqNo host.schedHasRoom host.now

/-- A request answered from slot `i`. -/
def answerFromCache (s : Server ρ) (i : Nat) (sender : Sender) (host : Host) :
    Server ρ × List (ServerOutput α ρ) :=
  let (s, response) := (s.noteServerCacheHit i host.now).resendCachedResponse i host.buffer
  match response with
  | none => (s, [])
  | some response => (s, if host.flushed then [.response response sender] else [])

/-- The callback has run: its request is put off, turned away or answered. -/
def afterCallback (s : Server ρ) (source : BitVec 8) (sender : Sender) (request : CallRequest α)
    (host : Host) (answer : CallAnswer ρ) : Server ρ × List (ServerOutput α ρ) :=
  if answer.returnCode = callDeferred then
    ((s.deferCallResponse ⟨source, request.seqNo⟩ request.clientTag sender host.later host.room).1, [])
  else if answer.returnCode = callIgnored then (s, [])
  else
    let (s, response) :=
      s.encodeCallResponse source request.clientTag sender.port request.seqNo answer host.later
    match response with
    | none => (s, [])
    | some response => (s, if answer.flushed then [.response response sender] else [])

/-- `process_callrequest()` of a request for this Server. -/
def processCallrequest (s : Server ρ) (source : BitVec 8) (sender : Sender) (request : CallRequest α)
    (host : Host) (ran : Ran ρ) : Server ρ × List (ServerOutput α ρ) :=
  if (s.findPendingSlot source request.clientTag request.seqNo).isSome then (s, [])
  else
    let (s, cached) := s.checkCache source sender request host.now
    match cached with
    | some i => s.answerFromCache i sender host
    | none =>
      let (s, canTake) := s.takesRequest source sender request host
      if !canTake then (s, [])
      else if !host.decodes then (s, [])
      else
        let (s, meanwhile) := s.answerAll host.now ran.answered
        let (s, outputs) := s.afterCallback source sender request host ran.answer
        (s, .executed source request :: (meanwhile ++ outputs))

/-- `drop_cached_responses_from_source()` for this Server. -/
def dropCachedResponsesFromSource (s : Server ρ) (source : BitVec 8) (farewell : Bool) : Server ρ :=
  { s with
    cache := s.cache.map fun slot =>
      if !slot.live && slot.sentAt = 0 then slot
      else if !slot.entry.any (·.receiver = source) then slot
      else if farewell || (slot.clientEntity ≠ 0 && !s.serverClientKnown source slot.clientEntity) then
        slot.clear
      else slot }

end Server

end Tickle
