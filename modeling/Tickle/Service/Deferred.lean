import Tickle.Service.Server

/-! # Answers put off

A request whose callback defers is held in a pending slot until it is answered or times out
(`HeldAt`). Admission asks the scheduler and the answer cache, never the pending slots: the callback
of a request for which there is no slot runs all the same, and its deferral is lost
(`recorded_iff`). A deferral that was recorded stays, over every later step, until the step that
answers it or its own timeout (`held_until`).
-/

namespace Tickle

/-- What can happen to a Server. -/
inductive ServerEvent (α ρ : Type) where
  | request (source : BitVec 8) (sender : Sender) (request : CallRequest α)
      (host : Server.Host) (ran : Server.Ran ρ)
  | answer (requestId : RequestId) (answer : CallAnswer ρ) (now : Nat)
  | timeout (due : Nat × Nat)
  | announced (clients : List (BitVec 8 × Nat)) (source : BitVec 8) (farewell : Bool)

namespace Server

variable {α ρ : Type}

def step (s : Server ρ) : ServerEvent α ρ → Server ρ × List (ServerOutput α ρ)
  | .request source sender request host ran => s.processCallrequest source sender request host ran
  | .answer requestId answer now =>
    let (s, _, outputs) := s.sendResponse requestId answer now
    (s, outputs)
  | .timeout due => ({ s with timers := s.timers.erase due }.pendingResponseTimeout due.2, [])
  | .announced clients source farewell =>
    ({ s with clients := clients }.dropCachedResponsesFromSource source farewell, [])

/-! ## The pending slots in each step -/

@[simp] theorem setServerCache_pending (s : Server ρ) (response : CallResponse ρ)
    (clientTag : BitVec 8) (port : Nat) (fits : Bool) (now : Nat) :
    (s.setServerCache response clientTag port fits now).pending = s.pending := by
  unfold setServerCache
  dsimp only
  split
  · rfl
  · split <;> rfl

@[simp] theorem encodeCallResponse_pending (s : Server ρ) (receiver clientTag : BitVec 8) (port : Nat)
    (seqNo : CallSeqNo) (answer : CallAnswer ρ) (now : Nat) :
    (s.encodeCallResponse receiver clientTag port seqNo answer now).1.pending = s.pending := by
  unfold encodeCallResponse
  split
  · rfl
  · exact setServerCache_pending ..

theorem encodeCallResponse_response (s : Server ρ) (receiver clientTag : BitVec 8) (port : Nat)
    (seqNo : CallSeqNo) (answer : CallAnswer ρ) (now : Nat) {response : CallResponse ρ}
    (h : (s.encodeCallResponse receiver clientTag port seqNo answer now).2 = some response) :
    response = ⟨receiver, s.endpointId, seqNo, 0, answer.returnCode, answer.body⟩ := by
  unfold encodeCallResponse at h
  split at h
  · simp at h
  · exact (Option.some.inj h).symm

@[simp] theorem checkCache_pending (s : Server ρ) (source : BitVec 8) (sender : Sender)
    (request : CallRequest α) (now : Nat) :
    (s.checkCache source sender request now).1.pending = s.pending := by
  unfold checkCache
  dsimp only
  split
  · rfl
  · split <;> rfl

theorem learnFromExpiredResponse_pending (s : Server ρ) (receiver clientTag : BitVec 8)
    (seqNo : CallSeqNo) (port now : Nat) :
    (s.learnFromExpiredResponse receiver clientTag seqNo port now).pending = s.pending := by
  unfold learnFromExpiredResponse
  split
  · rfl
  · split
    · rfl
    · dsimp only
      split <;> rfl

theorem serverCanTakeRequest_pending (s : Server ρ) (receiver clientTag : BitVec 8) (port : Nat)
    (seqNo : CallSeqNo) (schedHasRoom : Bool) (now : Nat) :
    (s.serverCanTakeRequest receiver clientTag port seqNo schedHasRoom now).1.pending = s.pending := by
  unfold serverCanTakeRequest serverCacheCanKeep
  split
  · rfl
  · split
    · rfl
    · split
      · rfl
      · split <;> rfl

@[simp] theorem takesRequest_pending (s : Server ρ) (source : BitVec 8) (sender : Sender)
    (request : CallRequest α) (host : Host) :
    (s.takesRequest source sender request host).1.pending = s.pending := by
  unfold takesRequest
  rw [serverCanTakeRequest_pending]
  split
  · exact learnFromExpiredResponse_pending ..
  · rfl

@[simp] theorem answerFromCache_pending (s : Server ρ) (i : Nat) (sender : Sender) (host : Host) :
    (s.answerFromCache (α := α) i sender host).1.pending = s.pending := by
  have hhit : (s.noteServerCacheHit i host.now).pending = s.pending := by
    unfold noteServerCacheHit
    split
    · rfl
    · dsimp only
      split <;> rfl
  unfold answerFromCache
  dsimp only
  split <;> exact hhit

/-- Slot `i` holds the request, its answer still to come. -/
def HeldAt (s : Server ρ) (i : Nat) (requestId : RequestId) (clientTag : BitVec 8)
    (sender : Sender) : Prop :=
  ∃ slot, s.pending[i]? = some slot ∧ slot.state = .pending ∧ slot.requestId = requestId ∧
    slot.clientTag = clientTag ∧ slot.sender = sender

def HasEmpty (s : Server ρ) : Prop := ∃ slot ∈ s.pending, slot.state = .empty

theorem HeldAt.congr {s s' : Server ρ} {i : Nat} {requestId : RequestId} {clientTag : BitVec 8}
    {sender : Sender} (h : s.HeldAt i requestId clientTag sender) (hp : s'.pending = s.pending) :
    s'.HeldAt i requestId clientTag sender := by
  simpa only [HeldAt, hp] using h

theorem sendResponse_pending (s : Server ρ) (requestId : RequestId) (answer : CallAnswer ρ) (now : Nat) :
    (s.sendResponse (α := α) requestId answer now).1.pending = s.pending ∨
    ∃ i slot, s.pending[i]? = some slot ∧ slot.state = .pending ∧ slot.requestId = requestId ∧
      (s.sendResponse (α := α) requestId answer now).1.pending = s.pending.set i
        { slot with state := .empty, returnCode := answer.returnCode, timeoutScheduled := false } := by
  unfold sendResponse
  split
  · exact .inl rfl
  · next i hfound =>
    obtain ⟨hlt, hslot, -⟩ := List.findIdx?_eq_some_iff_getElem.mp hfound
    simp only [Bool.and_eq_true, decide_eq_true_eq] at hslot
    rw [List.getElem?_eq_getElem hlt]
    right
    refine ⟨i, s.pending[i], List.getElem?_eq_getElem hlt, hslot.1, hslot.2, ?_⟩
    dsimp only
    split <;> simp

/-- Answering another request leaves the slot. -/
theorem HeldAt.sendResponse {s : Server ρ} {i : Nat} {requestId : RequestId} {clientTag : BitVec 8}
    {sender : Sender} (h : s.HeldAt i requestId clientTag sender) {other : RequestId}
    (hne : other ≠ requestId) (answer : CallAnswer ρ) (now : Nat) :
    (s.sendResponse (α := α) other answer now).1.HeldAt i requestId clientTag sender := by
  obtain hsame | ⟨j, slot, hslot, -, hid, hset⟩ := sendResponse_pending (α := α) s other answer now
  · exact h.congr hsame
  · obtain ⟨held, hheld, hstate, hrequest, hrest⟩ := h
    have hji : j ≠ i := by
      rintro rfl
      rw [hslot] at hheld
      cases hheld
      exact hne (hid.symm.trans hrequest)
    exact ⟨held, by rw [hset, List.getElem?_set_ne hji, hheld], hstate, hrequest, hrest⟩

theorem HasEmpty.sendResponse {s : Server ρ} (h : s.HasEmpty) (requestId : RequestId)
    (answer : CallAnswer ρ) (now : Nat) : (s.sendResponse (α := α) requestId answer now).1.HasEmpty := by
  obtain hsame | ⟨j, slot, hslot, -, -, hset⟩ := sendResponse_pending (α := α) s requestId answer now
  · simpa only [HasEmpty, hsame] using h
  · have hlt := (List.getElem?_eq_some_iff.mp hslot).1
    exact ⟨_, by rw [hset]; exact List.mem_set hlt _, rfl⟩

theorem HeldAt.answerAll {s : Server ρ} {i : Nat} {requestId : RequestId} {clientTag : BitVec 8}
    {sender : Sender} (h : s.HeldAt i requestId clientTag sender) (now : Nat)
    (answered : List (RequestId × CallAnswer ρ)) (hne : requestId ∉ answered.map (·.1)) :
    (s.answerAll (α := α) now answered).1.HeldAt i requestId clientTag sender := by
  induction answered generalizing s with
  | nil => exact h
  | cons answer rest ih =>
    simp only [List.map_cons, List.mem_cons, not_or] at hne
    exact ih (h.sendResponse (Ne.symm hne.1) answer.2 now) hne.2

theorem HasEmpty.answerAll {s : Server ρ} (h : s.HasEmpty) (now : Nat)
    (answered : List (RequestId × CallAnswer ρ)) : (s.answerAll (α := α) now answered).1.HasEmpty := by
  induction answered generalizing s with
  | nil => exact h
  | cons answer rest ih => exact ih (h.sendResponse answer.1 answer.2 now)

theorem deferCallResponse_held (s : Server ρ) (requestId : RequestId) (clientTag : BitVec 8)
    (sender : Sender) (now : Nat) (room : Bool) (h : s.HasEmpty) (hroom : room = true) :
    ∃ i, (s.deferCallResponse requestId clientTag sender now room).1.HeldAt i requestId clientTag
      sender := by
  subst hroom
  unfold deferCallResponse
  cases hfound : s.pending.findIdx? (·.state = .empty) with
  | none =>
    obtain ⟨slot, hmem, hempty⟩ := h
    simpa [hempty] using List.findIdx?_eq_none_iff.mp hfound slot hmem
  | some i =>
    obtain ⟨hlt, -, -⟩ := List.findIdx?_eq_some_iff_getElem.mp hfound
    refine ⟨i, ⟨.pending, requestId, clientTag, sender, s.pending[i].returnCode, true⟩, ?_, rfl, rfl,
      rfl, rfl⟩
    simp [hlt]

/-- Deferring takes an empty slot, or nothing. -/
theorem HeldAt.deferCallResponse {s : Server ρ} {i : Nat} {requestId : RequestId}
    {clientTag : BitVec 8} {sender : Sender} (h : s.HeldAt i requestId clientTag sender)
    (other : RequestId) (tag : BitVec 8) (from_ : Sender) (now : Nat) (room : Bool) :
    (s.deferCallResponse other tag from_ now room).1.HeldAt i requestId clientTag sender := by
  obtain ⟨held, hheld, hstate, hrest⟩ := h
  unfold Server.deferCallResponse
  split
  · exact ⟨held, hheld, hstate, hrest⟩
  · next j hfound =>
    obtain ⟨hlt, hslot, -⟩ := List.findIdx?_eq_some_iff_getElem.mp hfound
    have hji : j ≠ i := by
      rintro rfl
      rw [List.getElem?_eq_getElem hlt] at hheld
      cases hheld
      simp [hstate] at hslot
    dsimp only
    split
    · exact ⟨held, by simp [hji, hheld], hstate, hrest⟩
    · exact ⟨held, by simp [hji, hheld], hstate, hrest⟩

theorem HeldAt.afterCallback {s : Server ρ} {i : Nat} {requestId : RequestId} {clientTag : BitVec 8}
    {sender : Sender} (h : s.HeldAt i requestId clientTag sender) (source : BitVec 8) (from_ : Sender)
    (request : CallRequest α) (host : Host) (answer : CallAnswer ρ) :
    (s.afterCallback source from_ request host answer).1.HeldAt i requestId clientTag sender := by
  unfold Server.afterCallback
  split
  · exact h.deferCallResponse _ _ _ _ _
  · split
    · exact h
    · dsimp only
      split <;> exact h.congr (encodeCallResponse_pending ..)

/-! ## Whether the callback runs, and whether its deferral is recorded -/

/-- What `process_callrequest()` asks before the callback: no answer is pending for the request, none
is kept, the scheduler and the answer cache have room, and it decodes. -/
def runsCallback (s : Server ρ) (source : BitVec 8) (sender : Sender) (request : CallRequest α)
    (host : Host) : Bool :=
  let checked := s.checkCache source sender request host.now
  (s.findPendingSlot source request.clientTag request.seqNo).isNone && checked.2.isNone &&
    (checked.1.takesRequest source sender request host).2 && host.decodes

/-- The callback ran in the step. -/
def Executed (outputs : List (ServerOutput α ρ)) : Prop :=
  ∃ source request, .executed source request ∈ outputs

theorem sendResponse_not_executed (s : Server ρ) (requestId : RequestId) (answer : CallAnswer ρ)
    (now : Nat) : ¬ Executed (s.sendResponse (α := α) requestId answer now).2.2 := by
  rintro ⟨source, request, hmem⟩
  unfold sendResponse at hmem
  split at hmem
  · simp at hmem
  · split at hmem
    · simp at hmem
    · dsimp only at hmem
      split at hmem
      · simp at hmem
      · dsimp only at hmem
        split at hmem <;> simp at hmem

theorem answerFromCache_not_executed (s : Server ρ) (i : Nat) (sender : Sender) (host : Host) :
    ¬ Executed (s.answerFromCache (α := α) i sender host).2 := by
  rintro ⟨source, request, hmem⟩
  unfold answerFromCache at hmem
  dsimp only at hmem
  split at hmem
  · simp at hmem
  · dsimp only at hmem
    split at hmem <;> simp at hmem

/-- `process_callrequest()` by whether the callback runs. -/
theorem processCallrequest_cases (s : Server ρ) (source : BitVec 8) (sender : Sender)
    (request : CallRequest α) (host : Host) (ran : Ran ρ) :
    (s.runsCallback source sender request host = false ∧
      (s.processCallrequest source sender request host ran).1.pending = s.pending ∧
      ¬ Executed (s.processCallrequest source sender request host ran).2) ∨
    (s.runsCallback source sender request host = true ∧
      Executed (s.processCallrequest source sender request host ran).2 ∧
      ∃ s' : Server ρ, s'.pending = s.pending ∧
        (s.processCallrequest source sender request host ran).1 =
          ((s'.answerAll (α := α) host.now ran.answered).1.afterCallback source sender request host
            ran.answer).1) := by
  unfold processCallrequest runsCallback
  have quiet : ¬ Executed ([] : List (ServerOutput α ρ)) := by
    rintro ⟨_, _, hmem⟩
    simp at hmem
  by_cases hpending : (s.findPendingSlot source request.clientTag request.seqNo).isSome = true
  · left
    have hsome : (s.findPendingSlot source request.clientTag request.seqNo).isNone = false := by
      simpa [Option.isNone_iff_eq_none, ← Option.isSome_iff_ne_none] using hpending
    rw [if_pos hpending]
    exact ⟨by simp [hsome], rfl, quiet⟩
  · rw [if_neg hpending]
    have hnone : (s.findPendingSlot source request.clientTag request.seqNo).isNone = true := by
      simpa using hpending
    simp only [hnone, Bool.true_and]
    have hchecked := checkCache_pending s source sender request host.now
    generalize s.checkCache source sender request host.now = checked at hchecked ⊢
    obtain ⟨s₁, cached⟩ := checked
    cases cached with
    | some i =>
      exact .inl ⟨rfl, (answerFromCache_pending ..).trans hchecked,
        answerFromCache_not_executed s₁ i sender host⟩
    | none =>
      have htakes := takesRequest_pending s₁ source sender request host
      dsimp only
      generalize s₁.takesRequest source sender request host = taken at htakes ⊢
      obtain ⟨s₂, canTake⟩ := taken
      cases canTake with
      | false => exact .inl ⟨rfl, htakes.trans hchecked, quiet⟩
      | true =>
        cases hdecodes : host.decodes with
        | false => exact .inl ⟨rfl, htakes.trans hchecked, quiet⟩
        | true =>
          right
          exact ⟨rfl, ⟨source, request, List.mem_cons_self ..⟩, s₂, htakes.trans hchecked, rfl⟩

/-- The step of a request keeps to the contract: a callback that ran and put its answer off is held,
and with no slot to hold it the callback does not run. -/
def Recorded (s : Server ρ) (source : BitVec 8) (sender : Sender) (request : CallRequest α)
    (host : Host) (ran : Ran ρ) : Prop :=
  (Executed (s.processCallrequest source sender request host ran).2 →
    ran.answer.returnCode = callDeferred →
    ∃ i, (s.processCallrequest source sender request host ran).1.HeldAt i ⟨source, request.seqNo⟩
      request.clientTag sender) ∧
  (¬ s.HasEmpty → ¬ Executed (s.processCallrequest source sender request host ran).2)

/-- Exactly when it does: a callback that runs finds a slot empty, and if it defers, the scheduler
still has room for its timeout. -/
def SlotFree (s : Server ρ) (source : BitVec 8) (sender : Sender) (request : CallRequest α)
    (host : Host) (ran : Ran ρ) : Prop :=
  s.runsCallback source sender request host = true →
    s.HasEmpty ∧ (ran.answer.returnCode = callDeferred → host.room = true)

theorem deferCallResponse_room (s : Server ρ) {requestId : RequestId} {clientTag : BitVec 8}
    {sender : Sender} {now i : Nat} {room : Bool}
    (before : ∀ i, ¬ s.HeldAt i requestId clientTag sender)
    (h : (s.deferCallResponse requestId clientTag sender now room).1.HeldAt i requestId clientTag
      sender) : room = true := by
  by_contra hroom
  have hroom : room = false := by simpa using hroom
  subst hroom
  obtain ⟨slot, hslot, hstate, hrest⟩ := h
  apply before i
  unfold deferCallResponse at hslot
  split at hslot
  · exact ⟨slot, hslot, hstate, hrest⟩
  · next j hfound =>
    by_cases hji : j = i
    · subst hji
      simp only [Bool.not_false, if_true, List.getElem?_modify_eq, Option.map_eq_map,
        Option.map_eq_some_iff] at hslot
      obtain ⟨old, -, rfl⟩ := hslot
      simp at hstate
    · exact ⟨slot, by simpa [hji] using hslot, hstate, hrest⟩

theorem HeldAt.of_sendResponse {s : Server ρ} {i : Nat} {requestId other : RequestId}
    {clientTag : BitVec 8} {sender : Sender} {answer : CallAnswer ρ} {now : Nat}
    (h : (s.sendResponse (α := α) other answer now).1.HeldAt i requestId clientTag sender) :
    s.HeldAt i requestId clientTag sender := by
  obtain hsame | ⟨j, slot, hslot, -, -, hset⟩ := sendResponse_pending (α := α) s other answer now
  · exact h.congr hsame.symm
  · obtain ⟨held, hheld, hstate, hrest⟩ := h
    have hlt := (List.getElem?_eq_some_iff.mp hslot).1
    by_cases hji : j = i
    · subst hji
      rw [hset, List.getElem?_set_self hlt] at hheld
      cases hheld
      simp at hstate
    · rw [hset, List.getElem?_set_ne hji] at hheld
      exact ⟨held, hheld, hstate, hrest⟩

theorem HeldAt.of_answerAll {s : Server ρ} {i : Nat} {requestId : RequestId} {clientTag : BitVec 8}
    {sender : Sender} {now : Nat} {answered : List (RequestId × CallAnswer ρ)}
    (h : (s.answerAll (α := α) now answered).1.HeldAt i requestId clientTag sender) :
    s.HeldAt i requestId clientTag sender := by
  induction answered generalizing s with
  | nil => exact h
  | cons answer rest ih => exact (ih h).of_sendResponse

theorem not_held_of_runsCallback {s : Server ρ} {source : BitVec 8} {sender : Sender}
    {request : CallRequest α} {host : Host}
    (h : s.runsCallback source sender request host = true) (i : Nat) (from_ : Sender) :
    ¬ s.HeldAt i ⟨source, request.seqNo⟩ request.clientTag from_ := by
  rintro ⟨slot, hslot, hstate, hid, htag, -⟩
  have hnone : s.findPendingSlot source request.clientTag request.seqNo = none := by
    simp only [runsCallback, Bool.and_eq_true, Option.isNone_iff_eq_none] at h
    exact h.1.1.1
  have := List.findIdx?_eq_none_iff.mp hnone slot (List.mem_of_getElem? hslot)
  simp [hstate, hid, htag] at this

theorem recorded_iff_slotFree (s : Server ρ) (source : BitVec 8) (sender : Sender)
    (request : CallRequest α) (host : Host) (ran : Ran ρ) :
    s.Recorded source sender request host ran ↔ s.SlotFree source sender request host ran := by
  obtain ⟨hruns, -, hquiet⟩ | ⟨hruns, hexecuted, s', hpending, hresult⟩ :=
    s.processCallrequest_cases source sender request host ran
  · constructor
    · intro _ hr
      simp [hruns] at hr
    · intro _
      exact ⟨fun hexec => absurd hexec hquiet, fun _ => hquiet⟩
  · constructor
    · rintro ⟨held, refused⟩ _
      refine ⟨?_, ?_⟩
      · by_contra hfull
        exact refused hfull hexecuted
      · intro hdeferred
        obtain ⟨i, hheld⟩ := held hexecuted hdeferred
        rw [hresult] at hheld
        simp only [afterCallback, hdeferred, if_true] at hheld
        refine deferCallResponse_room _ ?_ hheld
        intro j hj
        exact not_held_of_runsCallback hruns j sender (hj.of_answerAll.congr hpending.symm)
    · intro free
      obtain ⟨hempty, hroom⟩ := free hruns
      refine ⟨?_, fun hfull => absurd hempty hfull⟩
      intro _ hdeferred
      rw [hresult]
      simp only [afterCallback, hdeferred, if_true]
      apply deferCallResponse_held _ _ _ _ _ _ _ (hroom hdeferred)
      apply HasEmpty.answerAll
      simpa only [HasEmpty, hpending] using hempty

/-! ## Held until answered -/

/-- The step answers the request, itself or from within a callback. -/
def Answers (requestId : RequestId) : ServerEvent α ρ → Prop
  | .request _ _ _ _ ran => requestId ∈ ran.answered.map (·.1)
  | .answer other _ _ => other = requestId
  | _ => False

/-- The step is the timeout of slot `i`. -/
def TimesOut (i : Nat) : ServerEvent α ρ → Prop
  | .timeout due => due.2 = i
  | _ => False

theorem HeldAt.step {s : Server ρ} {i : Nat} {requestId : RequestId} {clientTag : BitVec 8}
    {sender : Sender} (h : s.HeldAt i requestId clientTag sender) (event : ServerEvent α ρ)
    (unanswered : ¬ Answers requestId event) (waiting : ¬ TimesOut i event) :
    (s.step event).1.HeldAt i requestId clientTag sender := by
  cases event with
  | request source from_ request host ran =>
    obtain ⟨-, hpending, -⟩ | ⟨-, -, s', hpending, hresult⟩ :=
      s.processCallrequest_cases source from_ request host ran
    · exact h.congr hpending
    · simp only [Server.step, hresult]
      exact ((h.congr hpending).answerAll host.now ran.answered unanswered).afterCallback ..
  | answer other answer now => exact h.sendResponse unanswered answer now
  | timeout due =>
    obtain ⟨held, hheld, hrest⟩ := h
    refine ⟨held, ?_, hrest⟩
    simp only [Server.step, pendingResponseTimeout]
    rw [List.getElem?_modify_ne _ _ waiting, hheld]
  | announced clients source farewell => exact h

/-- A request held alone under its id is the one its answer goes to. -/
theorem HeldAt.answered {s : Server ρ} {i : Nat} {requestId : RequestId} {clientTag : BitVec 8}
    {sender : Sender} (h : s.HeldAt i requestId clientTag sender)
    (alone : ∀ j slot, s.pending[j]? = some slot → slot.state = .pending →
      slot.requestId = requestId → j = i)
    (answer : CallAnswer ρ) (now : Nat) (encodes : answer.returnCode = 0 → answer.encodes = true)
    (flushed : answer.flushed = true) :
    (s.sendResponse (α := α) requestId answer now).2 = (true,
      [.response ⟨requestId.receiver, s.endpointId, requestId.seqNo, 0, answer.returnCode, answer.body⟩
        sender]) := by
  obtain ⟨held, hheld, hstate, hid, -, hsender⟩ := h
  unfold Server.sendResponse
  cases hfound : s.pending.findIdx? (fun slot => slot.state = .pending && slot.requestId = requestId)
  with
  | none =>
    have := List.findIdx?_eq_none_iff.mp hfound held (List.mem_of_getElem? hheld)
    simp [hstate, hid] at this
  | some j =>
    obtain ⟨hlt, hslot, -⟩ := List.findIdx?_eq_some_iff_getElem.mp hfound
    simp only [Bool.and_eq_true, decide_eq_true_eq] at hslot
    have hji := alone j _ (List.getElem?_eq_getElem hlt) hslot.1 hslot.2
    subst hji
    have hcode : (answer.returnCode = 0 && !answer.encodes) = false := by
      by_cases hzero : answer.returnCode = 0
      · simp [encodes hzero]
      · simp [hzero]
    simp only [hheld, encodeCallResponse, hcode, Bool.false_eq_true, if_false, flushed, if_true, hsender]

end Server

/-! ## Runs -/

/-- The states of a Server over a sequence of events, from any state. -/
def serverState {α ρ : Type} (start : Server ρ) (event : Nat → ServerEvent α ρ) : Nat → Server ρ
  | 0 => start
  | t + 1 => ((serverState start event t).step (event t)).1

namespace Server

variable {α ρ : Type}

theorem held_until {start : Server ρ} {event : Nat → ServerEvent α ρ} {t u i : Nat}
    {requestId : RequestId} {clientTag : BitVec 8} {sender : Sender}
    (h : (serverState start event t).HeldAt i requestId clientTag sender) (htu : t ≤ u)
    (quiet : ∀ v, t ≤ v → v < u → ¬ Answers requestId (event v) ∧ ¬ TimesOut i (event v)) :
    (serverState start event u).HeldAt i requestId clientTag sender := by
  induction htu with
  | refl => exact h
  | @step u htu ih =>
    obtain ⟨unanswered, waiting⟩ := quiet u htu (Nat.lt_succ_self u)
    exact (ih fun v htv hvu => quiet v htv (by omega)).step (event u) unanswered waiting

/-- A client whose calls the server's callback puts off, one after the other. -/
def deferringCall (k : Nat) : ServerEvent Unit Unit :=
  .request 1 ⟨1, 1000⟩ ⟨7, BitVec.ofNat 16 k, 0, 1, ()⟩ ⟨0, 0, true, true, true, true, true⟩
    ⟨⟨callDeferred, (), true, true, true⟩, []⟩

end Server

end Tickle
