import Tickle.Service.Deferred

/-! # Service answers through rmw

`rmw_tickle`'s service puts every request off, hands it out under a sequence number of its own, and
finds the request again from the low 24 bits of that number: the calling context and its 16-bit
seq_no. The count above them, which tells two requests of one seq_no apart, is not looked at
(`respond_iff`).
-/

namespace Tickle

/-- `pack_sequence_id()`: the fields do not overlap, so the sum is the bitwise or. -/
def packSequenceId (count : Nat) (requestId : RequestId) : BitVec 64 :=
  BitVec.ofNat 64 (count * 2 ^ 24 + requestId.receiver.toNat * 2 ^ 16 + requestId.seqNo.toNat)

/-- `unpack_request_id()`. -/
def unpackRequestId (sequenceId : BitVec 64) : RequestId :=
  ⟨BitVec.ofNat 8 (sequenceId.toNat / 2 ^ 16), BitVec.ofNat 16 sequenceId.toNat⟩

theorem unpack_pack (count : Nat) (requestId : RequestId) :
    unpackRequestId (packSequenceId count requestId) = requestId := by
  obtain ⟨receiver, seqNo⟩ := requestId
  have hr := receiver.isLt
  have hs := seqNo.isLt
  simp only [unpackRequestId, packSequenceId, BitVec.toNat_ofNat]
  congr 1
  · apply BitVec.eq_of_toNat_eq
    rw [BitVec.toNat_ofNat]
    omega
  · apply BitVec.eq_of_toNat_eq
    rw [BitVec.toNat_ofNat]
    omega

/-- The request a sequence number was handed out for. -/
structure Issued where
  requestId : RequestId
  clientTag : BitVec 8
  sender : Sender
  deriving DecidableEq, Repr

/-- `rmw_tickle_service_t`. `issued` and `owner` are not in the source: the requests handed out so
far, and which of them each pending slot was last filled for. -/
structure RmwService (α ρ : Type) where
  server : Server ρ
  capacity : Nat
  requests : List (BitVec 64 × α)
  nextSequenceId : Nat
  issued : List Issued
  owner : Nat → Nat

/-- `RMW_TICKLE_SERVER_CALLBACK_ERROR`. -/
def serverCallbackError : Int := -1

inductive RmwEvent (α ρ : Type) where
  | request (source : BitVec 8) (sender : Sender) (request : CallRequest α) (host : Server.Host)
      (fromTickle : Bool) (blank : CallAnswer ρ)
  | takeRequest
  | sendResponse (sequenceNumber : BitVec 64) (toTickle : Bool) (answer : CallAnswer ρ) (now : Nat)
  | timeout (due : Nat × Nat)
  | announced (clients : List (BitVec 8 × Nat)) (source : BitVec 8) (farewell : Bool)

namespace RmwService

variable {α ρ : Type}

def create (server : Server ρ) (capacity : Nat) : RmwService α ρ := ⟨server, capacity, [], 0, [], fun _ => 0⟩

/-- `server_callback()`: what it returns. -/
def serverCallback (svc : RmwService α ρ) (fromTickle : Bool) : Int :=
  if svc.requests.length = svc.capacity then callIgnored
  else if !fromTickle then serverCallbackError
  else callDeferred

/-- A request for the service: core's step, and the callback's own where it runs. -/
def processRequest (svc : RmwService α ρ) (source : BitVec 8) (sender : Sender)
    (request : CallRequest α) (host : Server.Host) (fromTickle : Bool) (blank : CallAnswer ρ) :
    RmwService α ρ :=
  let code := svc.serverCallback fromTickle
  let requestId : RequestId := ⟨source, request.seqNo⟩
  let server := (svc.server.processCallrequest source sender request host
    ⟨{ blank with returnCode := code }, []⟩).1
  if svc.server.runsCallback source sender request host && code = callDeferred then
    let count := svc.nextSequenceId + 1
    { svc with
      server := server
      requests := svc.requests ++ [(packSequenceId count requestId, request.body)]
      nextSequenceId := count
      issued := svc.issued ++ [⟨requestId, request.clientTag, sender⟩]
      owner := fun i =>
        if svc.server.pending.findIdx? (·.state = .empty) = some i then count else svc.owner i }
  else { svc with server := server }

/-- `rmw_send_response()`: whether it returns `RMW_RET_OK`, and what went out. -/
def sendResponse (svc : RmwService α ρ) (sequenceNumber : BitVec 64) (toTickle : Bool)
    (answer : CallAnswer ρ) (now : Nat) : RmwService α ρ × Bool × List (ServerOutput α ρ) :=
  if sequenceNumber.toInt ≤ 0 then (svc, false, [])
  else if !toTickle then (svc, false, [])
  else
    let (server, found, outputs) := svc.server.sendResponse (unpackRequestId sequenceNumber)
      { answer with returnCode := 0 } now
    ({ svc with server := server }, found, outputs)

def step (svc : RmwService α ρ) : RmwEvent α ρ → RmwService α ρ
  | .request source sender request host fromTickle blank =>
    svc.processRequest source sender request host fromTickle blank
  | .takeRequest => { svc with requests := svc.requests.tail }
  | .sendResponse sequenceNumber toTickle answer now =>
    (svc.sendResponse sequenceNumber toTickle answer now).1
  | .timeout due => { svc with server := (svc.server.step (.timeout due : ServerEvent α ρ)).1 }
  | .announced clients source farewell =>
    { svc with server := (svc.server.step (.announced clients source farewell : ServerEvent α ρ)).1 }

/-- The services reached from a fresh one whose pending slots are empty. -/
inductive Reachable : RmwService α ρ → Prop where
  | start (server : Server ρ) (capacity : Nat) (empty : ∀ slot ∈ server.pending, slot.state = .empty) :
      Reachable (.create server capacity)
  | next {svc : RmwService α ρ} (event : RmwEvent α ρ) : Reachable svc → Reachable (svc.step event)

/-- Slot `i` holds the `count`-th request handed out. -/
def Holding (svc : RmwService α ρ) (i count : Nat) : Prop :=
  ∃ slot, svc.server.pending[i]? = some slot ∧ slot.state = .pending ∧ svc.owner i = count

/-- `sequenceNumber` was handed out for the `count`-th request, `request`. -/
def HandedOut (svc : RmwService α ρ) (sequenceNumber : BitVec 64) (count : Nat) (request : Issued) :
    Prop :=
  0 < count ∧ svc.issued[count - 1]? = some request ∧
    packSequenceId count request.requestId = sequenceNumber

/-- A pending slot holds a request handed out, with that request's own data. -/
def Owned (svc : RmwService α ρ) : Prop :=
  svc.issued.length = svc.nextSequenceId ∧
  ∀ i slot, svc.server.pending[i]? = some slot → slot.state = .pending →
    0 < svc.owner i ∧ svc.issued[svc.owner i - 1]? = some ⟨slot.requestId, slot.clientTag, slot.sender⟩

/-- The slot `tt_Server_send_response()` finds for a sequence number. -/
def slotFor (svc : RmwService α ρ) (sequenceNumber : BitVec 64) : Option Nat :=
  svc.server.pending.findIdx? fun slot =>
    slot.state = .pending && slot.requestId = unpackRequestId sequenceNumber

/-- What the answer does is for the request the number was handed out for: the request it takes out
of its slot is that one, what goes out goes to it, and with that request no longer held the call
fails. -/
def AnswersItsOwn (svc : RmwService α ρ) (sequenceNumber : BitVec 64) (toTickle : Bool)
    (answer : CallAnswer ρ) (now : Nat) : Prop :=
  (∀ i count, svc.Holding i count →
    ¬ (svc.sendResponse sequenceNumber toTickle answer now).1.Holding i count →
    ∃ request, svc.HandedOut sequenceNumber count request ∧
      ∀ response dest, .response response dest ∈
          (svc.sendResponse sequenceNumber toTickle answer now).2.2 →
        response.receiver = request.requestId.receiver ∧ response.seqNo = request.requestId.seqNo ∧
          dest = request.sender) ∧
  ((∀ i count request, svc.Holding i count → ¬ svc.HandedOut sequenceNumber count request) →
    (svc.sendResponse sequenceNumber toTickle answer now).2 = (false, []))

/-- The slot the low 24 bits lead to, if there is one, holds the request the number was handed out
for, and not another with the same context and seq_no. -/
def FindsItsOwn (svc : RmwService α ρ) (sequenceNumber : BitVec 64) (toTickle : Bool) : Prop :=
  0 < sequenceNumber.toInt → toTickle = true → ∀ i, svc.slotFor sequenceNumber = some i →
    ∃ request, svc.HandedOut sequenceNumber (svc.owner i) request

theorem slotFor_spec {svc : RmwService α ρ} {sequenceNumber : BitVec 64} {i : Nat}
    (h : svc.slotFor sequenceNumber = some i) :
    ∃ slot, svc.server.pending[i]? = some slot ∧ slot.state = .pending ∧
      slot.requestId = unpackRequestId sequenceNumber := by
  obtain ⟨hlt, hslot, -⟩ := List.findIdx?_eq_some_iff_getElem.mp h
  simp only [Bool.and_eq_true, decide_eq_true_eq] at hslot
  exact ⟨_, List.getElem?_eq_getElem hlt, hslot.1, hslot.2⟩

/-- An answer that finds its slot empties that slot alone, and goes to the sender kept there. -/
theorem sendResponse_found {svc : RmwService α ρ} {sequenceNumber : BitVec 64} {i : Nat}
    {slot : PendingSlot} (hpos : 0 < sequenceNumber.toInt)
    (hfound : svc.slotFor sequenceNumber = some i) (hslot : svc.server.pending[i]? = some slot)
    (answer : CallAnswer ρ) (now : Nat) :
    (svc.sendResponse sequenceNumber true answer now).1.server.pending = svc.server.pending.set i
      { slot with state := .empty, returnCode := 0, timeoutScheduled := false } ∧
    (svc.sendResponse sequenceNumber true answer now).1.owner = svc.owner ∧
    (svc.sendResponse sequenceNumber true answer now).2.1 = true ∧
    ∀ response dest, .response response dest ∈
        (svc.sendResponse sequenceNumber true answer now).2.2 →
      response.receiver = (unpackRequestId sequenceNumber).receiver ∧
      response.seqNo = (unpackRequestId sequenceNumber).seqNo ∧ dest = slot.sender := by
  unfold slotFor at hfound
  unfold RmwService.sendResponse Server.sendResponse
  rw [if_neg (by omega)]
  simp only [hfound, hslot, Bool.not_true, Bool.false_eq_true, if_false]
  have hpending := fun (s : Server ρ) => s.encodeCallResponse_pending
    (unpackRequestId sequenceNumber).receiver slot.clientTag slot.sender.port
    (unpackRequestId sequenceNumber).seqNo { answer with returnCode := 0 } now
  split
  · exact ⟨hpending _, trivial, rfl, by simp⟩
  · next response hresponse =>
    have hresponse := Server.encodeCallResponse_response _ _ _ _ _ _ _ hresponse
    refine ⟨hpending _, trivial, rfl, ?_⟩
    intro sent dest hmem
    by_cases hflushed : answer.flushed = true
    · simp only [hflushed, if_true, List.mem_singleton, ServerOutput.response.injEq] at hmem
      obtain ⟨rfl, rfl⟩ := hmem
      rw [hresponse]
      exact ⟨rfl, rfl, rfl⟩
    · simp [hflushed] at hmem

theorem sendResponse_missing {svc : RmwService α ρ} {sequenceNumber : BitVec 64}
    (hfound : svc.slotFor sequenceNumber = none) (toTickle : Bool) (answer : CallAnswer ρ)
    (now : Nat) :
    svc.sendResponse sequenceNumber toTickle answer now = (svc, false, []) := by
  unfold slotFor at hfound
  unfold RmwService.sendResponse Server.sendResponse
  simp only [hfound]
  split
  · rfl
  · split <;> rfl

theorem respond_iff_of_owned {svc : RmwService α ρ} (owned : svc.Owned) (sequenceNumber : BitVec 64)
    (toTickle : Bool) (answer : CallAnswer ρ) (now : Nat) :
    svc.AnswersItsOwn sequenceNumber toTickle answer now ↔
      svc.FindsItsOwn sequenceNumber toTickle := by
  have refused : svc.sendResponse sequenceNumber toTickle answer now = (svc, false, []) →
      svc.AnswersItsOwn sequenceNumber toTickle answer now := by
    intro heq
    refine ⟨?_, fun _ => by rw [heq]⟩
    intro i count held gone
    rw [heq] at gone
    exact absurd held gone
  cases hfound : svc.slotFor sequenceNumber with
  | none =>
    constructor
    · intro _ _ _ i hi
      simp [hfound] at hi
    · intro _
      exact refused (sendResponse_missing hfound toTickle answer now)
  | some i =>
    by_cases hpos : 0 < sequenceNumber.toInt
    · cases toTickle with
      | false =>
        constructor
        · intro _ _ h
          simp at h
        · intro _
          apply refused
          unfold RmwService.sendResponse
          simp
      | true =>
        obtain ⟨slot, hslot, hstate, hid⟩ := slotFor_spec hfound
        obtain ⟨hpending, howner, hok, houtputs⟩ := sendResponse_found hpos hfound hslot answer now
        obtain ⟨hcount, hissued⟩ := owned.2 i slot hslot hstate
        have hlt := (List.getElem?_eq_some_iff.mp hslot).1
        have holding : svc.Holding i (svc.owner i) := ⟨slot, hslot, hstate, rfl⟩
        have emptied : ¬ (svc.sendResponse sequenceNumber true answer now).1.Holding i
            (svc.owner i) := by
          rintro ⟨slot', hslot', hstate', -⟩
          rw [hpending, List.getElem?_set_self hlt] at hslot'
          cases hslot'
          simp at hstate'
        constructor
        · rintro ⟨own, -⟩ _ _ j hj
          rw [hfound] at hj
          cases hj
          obtain ⟨request, handed, -⟩ := own i _ holding emptied
          exact ⟨request, handed⟩
        · intro finds
          obtain ⟨request, handed⟩ := finds hpos rfl i hfound
          have hrequest : request = ⟨slot.requestId, slot.clientTag, slot.sender⟩ := by
            have := handed.2.1
            rw [hissued] at this
            exact (Option.some.inj this).symm
          refine ⟨?_, fun none_held => absurd handed (none_held i _ request holding)⟩
          rintro j count ⟨slot', hslot', hstate', rfl⟩ gone
          have hji : j = i := by
            by_contra hne
            apply gone
            refine ⟨slot', ?_, hstate', by rw [howner]⟩
            rw [hpending, List.getElem?_set_ne (Ne.symm hne), hslot']
          subst hji
          refine ⟨request, handed, ?_⟩
          intro response dest hmem
          obtain ⟨hreceiver, hseq, hdest⟩ := houtputs response dest hmem
          rw [hrequest, hreceiver, hseq, hdest, hid]
          exact ⟨rfl, rfl, rfl⟩
    · constructor
      · intro _ h
        exact absurd h hpos
      · intro _
        apply refused
        unfold RmwService.sendResponse
        rw [if_pos (by omega)]

/-! ## Which request a slot holds -/

theorem Owned.congr {svc svc' : RmwService α ρ} (h : svc.Owned) (hissued : svc'.issued = svc.issued)
    (hnext : svc'.nextSequenceId = svc.nextSequenceId) (howner : svc'.owner = svc.owner)
    (hpending : ∀ (i : Nat) (slot : PendingSlot), svc'.server.pending[i]? = some slot → slot.state = .pending →
      svc.server.pending[i]? = some slot) : svc'.Owned := by
  refine ⟨by rw [hissued, hnext, h.1], ?_⟩
  intro i slot hslot hstate
  rw [hissued, howner]
  exact h.2 i slot (hpending i slot hslot hstate) hstate

theorem sendResponse_keeps (s : Server ρ) (requestId : RequestId) (answer : CallAnswer ρ) (now i : Nat)
    {slot : PendingSlot}
    (hslot : (s.sendResponse (α := α) requestId answer now).1.pending[i]? = some slot)
    (hstate : slot.state = .pending) : s.pending[i]? = some slot := by
  obtain hsame | ⟨j, old, hold, -, -, hset⟩ := Server.sendResponse_pending (α := α) s requestId answer now
  · rw [← hsame, hslot]
  · have hlt := (List.getElem?_eq_some_iff.mp hold).1
    by_cases hji : j = i
    · subst hji
      rw [hset, List.getElem?_set_self hlt] at hslot
      cases hslot
      simp at hstate
    · rwa [hset, List.getElem?_set_ne hji] at hslot

/-- After a deferral, a pending slot is the one it was recorded in or one that was pending before. -/
theorem deferCallResponse_slot (s : Server ρ) (requestId : RequestId) (clientTag : BitVec 8)
    (sender : Sender) (now : Nat) (room : Bool) {i : Nat} {slot : PendingSlot}
    (hslot : (s.deferCallResponse requestId clientTag sender now room).1.pending[i]? = some slot)
    (hstate : slot.state = .pending) :
    (s.pending.findIdx? (·.state = .empty) = some i ∧ slot.requestId = requestId ∧
      slot.clientTag = clientTag ∧ slot.sender = sender) ∨
    (s.pending.findIdx? (·.state = .empty) ≠ some i ∧ s.pending[i]? = some slot) := by
  unfold Server.deferCallResponse at hslot
  split at hslot
  · next hnone =>
    rw [hnone]
    exact .inr ⟨by simp, hslot⟩
  · next j hfound =>
    rw [hfound]
    by_cases hji : j = i
    · subst hji
      left
      refine ⟨rfl, ?_⟩
      dsimp only at hslot
      split at hslot
      · simp only [List.getElem?_modify_eq, Option.map_eq_map, Option.map_eq_some_iff] at hslot
        obtain ⟨old, -, rfl⟩ := hslot
        simp at hstate
      · simp only [List.getElem?_modify_eq, Option.map_eq_map, Option.map_eq_some_iff] at hslot
        obtain ⟨old, -, rfl⟩ := hslot
        exact ⟨rfl, rfl, rfl⟩
    · right
      refine ⟨by simpa using hji, ?_⟩
      dsimp only at hslot
      split at hslot <;> simpa [hji] using hslot

theorem Owned.processRequest {svc : RmwService α ρ} (h : svc.Owned) (source : BitVec 8)
    (sender : Sender) (request : CallRequest α) (host : Server.Host) (fromTickle : Bool)
    (blank : CallAnswer ρ) :
    (svc.processRequest source sender request host fromTickle blank).Owned := by
  unfold RmwService.processRequest
  dsimp only
  obtain ⟨hruns, hpending, -⟩ | ⟨hruns, -, s', hpending, hresult⟩ :=
    svc.server.processCallrequest_cases source sender request host
      ⟨{ blank with returnCode := svc.serverCallback fromTickle }, []⟩
  · rw [if_neg (by simp [hruns])]
    exact h.congr rfl rfl rfl fun i slot hslot _ => by rwa [← hpending]
  · simp only [Server.answerAll] at hresult
    by_cases hdeferred : svc.serverCallback fromTickle = callDeferred
    · rw [if_pos (by simp [hruns, hdeferred])]
      refine ⟨by simp [h.1], ?_⟩
      intro i slot hslot hstate
      rw [hresult] at hslot
      simp only [Server.afterCallback, hdeferred, if_true] at hslot
      obtain ⟨hfound, hid, htag, hsender⟩ | ⟨hfound, hold⟩ :=
        deferCallResponse_slot _ _ _ _ _ _ hslot hstate
      · rw [hpending] at hfound
        simp only [hfound, if_true]
        refine ⟨by omega, ?_⟩
        rw [Nat.add_sub_cancel, ← h.1, hid, htag, hsender]
        simp
      · rw [hpending] at hfound hold
        simp only [hfound, if_false]
        obtain ⟨hpos, hissued⟩ := h.2 i slot hold hstate
        refine ⟨hpos, ?_⟩
        rwa [List.getElem?_append_left (List.getElem?_eq_some_iff.mp hissued).1]
    · rw [if_neg (by simp [hdeferred])]
      refine h.congr rfl rfl rfl fun i slot hslot _ => ?_
      rw [hresult] at hslot
      have : ((s'.afterCallback source sender request host
          { blank with returnCode := svc.serverCallback fromTickle }).1).pending = s'.pending := by
        simp only [Server.afterCallback, hdeferred, if_false]
        split
        · rfl
        · split <;> exact Server.encodeCallResponse_pending ..
      rwa [this, hpending] at hslot

theorem Owned.step {svc : RmwService α ρ} (h : svc.Owned) (event : RmwEvent α ρ) :
    (svc.step event).Owned := by
  cases event with
  | request source sender request host fromTickle blank =>
    exact h.processRequest source sender request host fromTickle blank
  | takeRequest => exact h.congr rfl rfl rfl fun _ _ hslot _ => hslot
  | sendResponse sequenceNumber toTickle answer now =>
    simp only [RmwService.step, RmwService.sendResponse]
    split
    · exact h
    · split
      · exact h
      · exact h.congr rfl rfl rfl fun i slot hslot hstate =>
          sendResponse_keeps (α := α) _ _ _ _ _ hslot hstate
  | timeout due =>
    refine h.congr rfl rfl rfl fun i slot hslot hstate => ?_
    simp only [RmwService.step, Server.step, Server.pendingResponseTimeout] at hslot
    by_cases hdue : due.2 = i
    · subst hdue
      simp only [List.getElem?_modify_eq, Option.map_eq_map, Option.map_eq_some_iff] at hslot
      obtain ⟨old, -, rfl⟩ := hslot
      simp only at hstate
      split at hstate
      · simp at hstate
      · next hne => exact absurd hstate hne
    · rwa [List.getElem?_modify_ne _ _ hdue] at hslot
  | announced clients source farewell => exact h.congr rfl rfl rfl fun _ _ hslot _ => hslot

theorem Reachable.owned {svc : RmwService α ρ} (h : svc.Reachable) : svc.Owned := by
  induction h with
  | start server capacity empty =>
    refine ⟨rfl, ?_⟩
    intro i slot hslot hstate
    have := empty slot (List.mem_of_getElem? hslot)
    rw [hstate] at this
    simp at this
  | next event _ ih => exact ih.step event

/-- In every state reached, an answer is for the request its sequence number was handed out for
exactly when the slot its low 24 bits lead to holds that request. -/
theorem respond_iff {svc : RmwService α ρ} (h : svc.Reachable) (sequenceNumber : BitVec 64)
    (toTickle : Bool) (answer : CallAnswer ρ) (now : Nat) :
    svc.AnswersItsOwn sequenceNumber toTickle answer now ↔
      svc.FindsItsOwn sequenceNumber toTickle :=
  respond_iff_of_owned h.owned sequenceNumber toTickle answer now

/-- Context 1's call 5 to the service, put off. -/
def callFive (clientTag : BitVec 8) : RmwEvent Unit Unit :=
  .request 1 ⟨1, 1000⟩ ⟨7, 5, 0, clientTag, ()⟩ ⟨0, 0, true, true, true, true, true⟩ true
    ⟨0, (), true, true, true⟩

def freshService : RmwService Unit Unit := .create (.create .build ⟨0, 0⟩ 4 7 64) 64

theorem freshService_reachable : freshService.Reachable := .start _ _ (by decide +kernel)

/-- The number the first request is handed out under. -/
def firstNumber : BitVec 64 := packSequenceId 1 ⟨1, 5⟩

theorem respond_iff_once :
    (freshService.step (callFive 1)).AnswersItsOwn firstNumber true ⟨0, (), true, true, true⟩ 0 := by
  have reachable : (freshService.step (callFive 1)).Reachable :=
    .next (callFive 1) freshService_reachable
  apply (respond_iff reachable firstNumber true ⟨0, (), true, true, true⟩ 0).mpr
  intro _ _ i hi
  have hslot : (freshService.step (callFive 1)).slotFor firstNumber = some 0 := by decide +kernel
  rw [hslot] at hi
  obtain rfl := Option.some.inj hi
  exact ⟨⟨⟨1, 5⟩, 1, ⟨1, 1000⟩⟩, by decide, rfl, rfl⟩

/-- The first request times out; the context's next call 5, its counter come round, is pending; the
late answer to the first goes to the second. -/
theorem late_answer_misdirected :
    ¬ ∀ (svc : RmwService Unit Unit), svc.Reachable → ∀ sequenceNumber toTickle answer now,
      svc.AnswersItsOwn sequenceNumber toTickle answer now := by
  intro h
  have reachable : (((freshService.step (callFive 1)).step (.timeout (5000000000, 0))).step
      (callFive 1)).Reachable :=
    .next _ (.next _ (.next _ freshService_reachable))
  have own := h _ reachable firstNumber true ⟨0, (), true, true, true⟩ 0
  rw [respond_iff_of_owned reachable.owned] at own
  have hslot : (((freshService.step (callFive 1)).step (.timeout (5000000000, 0))).step
      (callFive 1)).slotFor firstNumber = some 0 := by decide +kernel
  obtain ⟨request, -, hissued, hnumber⟩ := own (by decide) rfl 0 hslot
  have hsecond : (((freshService.step (callFive 1)).step (.timeout (5000000000, 0))).step
      (callFive 1)).issued[1]? = some ⟨⟨1, 5⟩, 1, ⟨1, 1000⟩⟩ := by decide +kernel
  have howner : (((freshService.step (callFive 1)).step (.timeout (5000000000, 0))).step
      (callFive 1)).owner 0 = 2 := by decide +kernel
  rw [howner] at hissued hnumber
  rw [hsecond] at hissued
  obtain rfl := Option.some.inj hissued
  exact absurd hnumber (by decide)

end RmwService

end Tickle
