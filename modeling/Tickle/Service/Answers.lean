import Tickle.Service.Exchange
import Tickle.Service.Kept

/-! # A response answers its own call

The two ends know a call by its context and 16 bits of the context's counter. As long as a number is
not drawn while anything of an earlier call under it is about (a copy on its way, an answer kept that
can still be given, a request put off and not answered), every response handed to a callback was made
for that very call. A send that fails after it has reached the Server leaves such a thing behind and the
counter where it was.
-/

namespace Tickle

namespace Client

variable {α ρ : Type}

/-- The Client holds the call the request is a copy of. -/
def Carries (c : Client α) (attempt : Nat) (request : CallRequest α) : Prop :=
  ∃ slot call held, c.Holds slot call held ∧ call.attempt = attempt ∧ held.seqNo = request.seqNo ∧
    held.clientTag = request.clientTag ∧ held.body = request.body

theorem Holds.carries {c : Client α} {slot : Nat} {call : ClientCall α} {request : CallRequest α}
    (h : c.Holds slot call request) : c.Carries call.attempt request :=
  ⟨slot, call, request, h, rfl, rfl, rfl, rfl⟩

/-- The step goes on with calls the Client had: it holds no other afterwards, and sends no other. -/
structure Continues (c : Client α) (result : Client α × List (CallOutput α ρ)) : Prop where
  held : ∀ slot call request, result.1.Holds slot call request → c.Carries call.attempt request
  sent : ∀ attempt copy, .request attempt copy ∈ result.2 → c.Carries attempt copy

theorem holds_setCall {c : Client α} {slot k : Nat} {call call' : ClientCall α}
    {request : CallRequest α} (h : (c.setCall slot call').Holds k call request) :
    (call = call' ∧ call'.cache = some request) ∨ c.Holds k call request := by
  obtain ⟨hcall, hcache⟩ := h
  simp only [setCall] at hcall
  by_cases hk : slot = k
  · subst hk
    rw [List.getElem?_set_self'] at hcall
    have same : call' = call := by
      obtain ⟨_, _, h⟩ := Option.map_eq_some_iff.mp hcall
      exact h
    subst same
    exact .inl ⟨rfl, hcache⟩
  · rw [List.getElem?_set_ne hk] at hcall
    exact .inr ⟨hcall, hcache⟩

variable {c : Client α}

theorem Continues.refl (c : Client α) : Continues (ρ := ρ) c (c, []) where
  held _ _ _ holds := holds.carries
  sent _ _ hmem := absurd hmem List.not_mem_nil

/-- The slots as they were but one, whose call goes on or ends. -/
theorem continues_of_slot {result : Client α × List (CallOutput α ρ)} {slot : Nat}
    {call : ClientCall α} {held : CallRequest α} (call' : ClientCall α)
    (holds : c.Holds slot call held) (calls : result.1.calls = c.calls.set slot call')
    (same : call'.attempt = call.attempt)
    (goesOn : ∀ request, call'.cache = some request → held.seqNo = request.seqNo ∧
      held.clientTag = request.clientTag ∧ held.body = request.body)
    (sent : ∀ attempt copy, .request attempt copy ∈ result.2 → c.Carries attempt copy) :
    Continues c result where
  held k other request hother := by
    have hset : (c.setCall slot call').Holds k other request := by
      simpa only [Holds, calls, setCall] using hother
    obtain ⟨rfl, hcache⟩ | old := holds_setCall hset
    · rw [same]
      exact ⟨slot, call, held, holds, rfl, goesOn request hcache⟩
    · exact old.carries
  sent := sent

/-- The slots as they were but one, whose call ends. -/
theorem continues_of_end {result : Client α × List (CallOutput α ρ)} {slot : Nat}
    {call : ClientCall α} {held : CallRequest α} (holds : c.Holds slot call held)
    (calls : result.1.calls = c.calls.set slot { call with cache := none })
    (sent : ∀ attempt copy, .request attempt copy ∈ result.2 → c.Carries attempt copy) :
    Continues c result := by
  apply continues_of_slot { call with cache := none } holds calls rfl ?_ sent
  intro request hcache
  simp at hcache

theorem timer_continues (c : Client α) (read : Reading) (due : Nat × Nat) (reached room : Bool) :
    Continues (ρ := ρ) c (c.step read (.timer due reached room)) := by
  have none_sent : ∀ attempt copy, (.request attempt copy : CallOutput α ρ) ∈ [] →
      c.Carries attempt copy := fun _ _ hmem => absurd hmem List.not_mem_nil
  have popped : Continues (ρ := ρ) c ({ c with timers := c.timers.erase due }, []) :=
    ⟨fun _ _ _ holds => Holds.carries (c := c) holds, none_sent⟩
  simp only [step]
  unfold callRetry
  split
  · exact popped
  · next call hcall =>
    split
    · exact popped
    · next request hcache =>
      have holds : c.Holds due.2 call request := ⟨hcall, hcache⟩
      split
      · unfold bestEffortCallTimer
        dsimp only
        split
        · apply continues_of_end holds rfl
          intro attempt copy hmem
          simp [endCallUnanswered] at hmem
        · split
          · exact ⟨fun _ _ _ held => Holds.carries (c := c) held, none_sent⟩
          · apply continues_of_end holds rfl
            intro attempt copy hmem
            simp [endCallUnanswered] at hmem
      · have again : ∀ attempt copy, (.request attempt copy : CallOutput α ρ) ∈
            (if reached then [.request call.attempt { request with retry := request.retry + 1 }]
              else []) → c.Carries attempt copy := by
          intro attempt copy hmem
          split at hmem
          · simp only [List.mem_singleton, CallOutput.request.injEq] at hmem
            obtain ⟨rfl, rfl⟩ := hmem
            exact ⟨due.2, call, request, holds, rfl, rfl, rfl, rfl⟩
          · exact none_sent attempt copy hmem
        dsimp only
        split
        · apply continues_of_end holds
          · simp [endCallUnanswered, setCall, backOffRetryInterval_calls]
          · intro attempt copy hmem
            simp [endCallUnanswered] at hmem
        · split
          · apply continues_of_slot
              { call with cache := some { request with retry := request.retry + 1 } } holds rfl rfl ?_ again
            intro counted hcounted
            cases hcounted
            exact ⟨rfl, rfl, rfl⟩
          · apply continues_of_end holds
            · simp [endCallUnanswered, setCall]
            · intro attempt copy hmem
              obtain hmem | hmem := List.mem_append.mp hmem
              · exact again attempt copy hmem
              · simp [endCallUnanswered] at hmem

theorem response_continues (c : Client α) (read : Reading) (response : CallResponse ρ)
    (decodes : Bool) : Continues c (c.step read (.response response decodes)) := by
  simp only [step]
  split
  · exact .refl c
  · next slot _ =>
    unfold processCallresponse
    split
    · exact .refl c
    · next call hcall =>
      split
      · exact .refl c
      · next request hcache =>
        dsimp only
        split
        · exact .refl c
        · apply continues_of_end (show c.Holds slot call request from ⟨hcall, hcache⟩) (noteLatency_frame _ _ _).1
          intro attempt copy hmem
          simp at hmem

/-- A response is reported for a call the Client holds under its number. -/
theorem response_callback {read : Reading} {response : CallResponse ρ} {decodes : Bool} {attempt : Nat}
    {seqNo : CallSeqNo} {code : Int} {body : Option ρ}
    (h : .callback attempt seqNo code body ∈ (c.step read (.response response decodes)).2) :
    ∃ slot call request, c.Holds slot call request ∧ request.seqNo = response.seqNo ∧
      call.attempt = attempt := by
  simp only [step] at h
  split at h
  · simp at h
  · next slot hslot =>
    unfold processCallresponse at h
    split at h
    · simp at h
    · next call hcall =>
      split at h
      · simp at h
      · next request hcache =>
        dsimp only at h
        split at h
        · simp at h
        · simp only [List.mem_singleton, CallOutput.callback.injEq] at h
          obtain ⟨hlt, hnumber, -⟩ := List.findIdx?_eq_some_iff_getElem.mp hslot
          rw [List.getElem?_eq_getElem hlt] at hcall
          cases hcall
          simp only [hcache, Option.any_some, decide_eq_true_eq] at hnumber
          exact ⟨slot, _, request, ⟨List.getElem?_eq_getElem hlt, hcache⟩, hnumber, h.1.symm⟩

theorem endOldestCall_continues (c : Client α) : Continues (ρ := ρ) c c.endOldestCall := by
  unfold endOldestCall
  split
  · exact .refl c
  · next slot _ =>
    split
    · exact .refl c
    · next call hcall =>
      split
      · exact .refl c
      · next request hcache =>
        apply continues_of_end (show c.Holds slot call request from ⟨hcall, hcache⟩) rfl
        intro attempt copy hmem
        simp [endCallUnanswered] at hmem

theorem destroy_continues (c : Client α) : Continues (ρ := ρ) c (c.destroy, []) where
  held slot call request holds := by
    obtain ⟨hcall, hcache⟩ := holds
    simp only [destroy, List.getElem?_map, Option.map_eq_some_iff] at hcall
    obtain ⟨old, -, rfl⟩ := hcall
    simp at hcache
  sent _ _ hmem := absurd hmem List.not_mem_nil

/-- What a call adds: the call itself, under the number it drew. -/
structure Starts (c : Client α) (seqNo : CallSeqNo) (encoded : Except CallRet α)
    (result : Client α × List (CallOutput α ρ)) : Prop where
  held : ∀ slot call request, result.1.Holds slot call request → c.Holds slot call request ∨
    (call.attempt = c.attempts ∧ request.seqNo = seqNo ∧ request.clientTag = c.clientTag ∧
      encoded = .ok request.body)
  sent : ∀ attempt copy, .request attempt copy ∈ result.2 → attempt = c.attempts ∧
    copy.seqNo = seqNo ∧ copy.clientTag = c.clientTag ∧ encoded = .ok copy.body

theorem call_starts (c : Client α) (seqNo : CallSeqNo) (encoded : Except CallRet α) (read : Reading)
    (flushed : Flushed) (room : Bool) :
    Starts c seqNo encoded ((c.call (ρ := ρ) seqNo encoded read flushed room).1,
      (c.call (ρ := ρ) seqNo encoded read flushed room).2.1) := by
  have refused : Starts (ρ := ρ) c seqNo encoded (c, []) :=
    ⟨fun _ _ _ holds => .inl holds, fun _ _ hmem => absurd hmem List.not_mem_nil⟩
  unfold call
  split
  · exact refused
  · next slot _ =>
    split
    · exact refused
    · split
      · exact refused
      · next body =>
        have copies : ∀ attempt copy, (.request attempt copy : CallOutput α ρ) ∈
            (if flushed.reached then [.request c.attempts ⟨c.endpointId, seqNo, 0, c.clientTag, body⟩]
              else []) →
            attempt = c.attempts ∧ copy.seqNo = seqNo ∧ copy.clientTag = c.clientTag ∧
              (.ok body : Except CallRet α) = .ok copy.body := by
          intro attempt copy hmem
          split at hmem
          · simp only [List.mem_singleton, CallOutput.request.injEq] at hmem
            obtain ⟨rfl, rfl⟩ := hmem
            exact ⟨rfl, rfl, rfl, rfl⟩
          · exact absurd hmem List.not_mem_nil
        dsimp only
        split
        · exact ⟨fun _ _ _ holds => .inl holds, copies⟩
        · split
          · refine ⟨fun k call request holds => ?_, copies⟩
            obtain ⟨rfl, hcache⟩ | old := holds_setCall holds
            · simp at hcache
            · obtain ⟨rfl, hcache⟩ | old := holds_setCall (c := { c with attempts := c.attempts + 1 }) old
              · cases hcache
                exact .inr ⟨rfl, rfl, rfl, rfl⟩
              · exact .inl old
          · refine ⟨fun k call request holds => ?_, fun attempt copy hmem => ?_⟩
            · obtain ⟨rfl, hcache⟩ | old := holds_setCall (c := { c with attempts := c.attempts + 1 }) holds
              · cases hcache
                exact .inr ⟨rfl, rfl, rfl, rfl⟩
              · exact .inl old
            · obtain hmem | hmem := List.mem_append.mp hmem
              · exact copies attempt copy hmem
              · simp at hmem

/-- A call no copy of which has gone out is not there. -/
theorem call_unreached (c : Client α) (seqNo : CallSeqNo) (encoded : Except CallRet α) (read : Reading)
    {flushed : Flushed} (unreached : flushed.reached = false) (room : Bool) :
    Continues c ((c.call (ρ := ρ) seqNo encoded read flushed room).1,
      (c.call (ρ := ρ) seqNo encoded read flushed room).2.1) := by
  have failed : flushed.ok = false := by
    cases hok : flushed.ok with
    | false => rfl
    | true => simp [flushed.reached_of_ok hok] at unreached
  unfold call
  split
  · exact .refl c
  · split
    · exact .refl c
    · split
      · exact .refl c
      · simp only [unreached, failed]
        exact ⟨fun _ _ _ holds => Holds.carries (c := c) holds, fun _ _ hmem => absurd hmem List.not_mem_nil⟩

end Client

namespace Exchange

variable {α ρ : Type} {st : Exchange α ρ}

/-- The call `n` of the context `id` is outstanding under the number `seqNo`. -/
def Outstanding (st : Exchange α ρ) (id : BitVec 8) (seqNo : CallSeqNo) (tag : BitVec 8)
    (n : CallName) : Prop :=
  ∃ caller client slot call request, st.client n.caller n.client = some (caller, client) ∧
    caller.id = id ∧ client.Holds slot call request ∧ request.seqNo = seqNo ∧
    request.clientTag = tag ∧ call.attempt = n.attempt

/-- The body is for whichever call is outstanding under that number, if one is. -/
def Fits (st : Exchange α ρ) (id tag : BitVec 8) (seqNo : CallSeqNo) (body : Named ρ) : Prop :=
  ∀ n, st.Outstanding id seqNo tag n → body.name = n

/-- Whatever is about under the number of an outstanding call is of that call. -/
structure Consistent (st : Exchange α ρ) : Prop where
  named : ∀ k j caller client slot call request, st.client k j = some (caller, client) →
    client.Holds slot call request → request.body.name = ⟨k, j, call.attempt⟩
  unique : ∀ id seqNo tag tag' n n', st.Outstanding id seqNo tag n → st.Outstanding id seqNo tag' n' →
    n = n' ∧ tag = tag'
  requests : ∀ copy ∈ st.requests, ∀ tag n, st.Outstanding copy.source copy.request.seqNo tag n →
    copy.request.body.name = n ∧ copy.request.clientTag = tag
  responses : ∀ copy ∈ st.responses, ∀ tag,
    st.Fits copy.response.receiver tag copy.response.seqNo copy.response.body
  cached : Server.Keeps st.serverTime st.Fits st.server.cache
  deferred : ∀ put ∈ st.deferred, ∀ tag n,
    st.Outstanding put.1.receiver put.1.seqNo tag n → put.2 = n
  handed : ∀ h ∈ st.handed, h.2 = h.1

/-- Nothing is about under the number: no copy on its way, no answer kept that can still be given, no
request put off, and no call of another context that goes by the same id. -/
def Fresh (st : Exchange α ρ) (id tag : BitVec 8) (seqNo : CallSeqNo) : Prop :=
  (∀ copy ∈ st.requests, ¬ (copy.source = id ∧ copy.request.seqNo = seqNo)) ∧
  (∀ copy ∈ st.responses, ¬ (copy.response.receiver = id ∧ copy.response.seqNo = seqNo)) ∧
  (∀ slot ∈ st.server.cache, slot.live = true → st.serverTime < slot.expiresAt →
    Server.slotNames slot id tag seqNo = false) ∧
  (∀ put ∈ st.deferred, put.1 ≠ ⟨id, seqNo⟩) ∧
  ∀ caller ∈ st.callers, caller.id = id → caller.callingClient seqNo = none

/-- A call goes out under a number that is fresh, and the Server's clock does not go back. -/
def Numbered (st : Exchange α ρ) : ExchangeEvent α ρ → Prop
  | .call k j _ _ flushed _ =>
    match st.client k j with
    | none => True
    | some (caller, client) =>
      flushed.reached = true → st.Fresh caller.id client.clientTag caller.drawSeqNo
  | .request _ host _ _ => st.serverTime ≤ host.now
  | _ => True

theorem client_eq_some {k j : Nat} {caller : Caller α} {client : Client (Named α)} :
    st.client k j = some (caller, client) ↔
      st.callers[k]? = some caller ∧ caller.clients[j]? = some client := by
  unfold Exchange.client
  cases hcaller : st.callers[k]? with
  | none => simp
  | some found =>
    simp only [Option.map_eq_some_iff, Prod.mk.injEq, Option.some.injEq]
    constructor
    · rintro ⟨client', hclient, rfl, rfl⟩
      exact ⟨rfl, hclient⟩
    · rintro ⟨rfl, hclient⟩
      exact ⟨client, hclient, rfl, rfl⟩

theorem callingClient_none {caller : Caller α} {seqNo : CallSeqNo}
    (h : caller.callingClient seqNo = none) {j : Nat} {client : Client (Named α)}
    (hclient : caller.clients[j]? = some client) {slot : Nat} {call : ClientCall (Named α)}
    {request : CallRequest (Named α)} (holds : client.Holds slot call request) :
    request.seqNo ≠ seqNo := by
  intro same
  unfold Caller.callingClient at h
  rw [List.findIdx?_eq_none_iff] at h
  have none_calling := h client (List.mem_of_getElem? hclient)
  simp only [Option.isSome_eq_false_iff, Option.isNone_iff_eq_none, Client.callingSlot,
    List.findIdx?_eq_none_iff] at none_calling
  have not_this := none_calling call (List.mem_of_getElem? holds.1)
  simp [holds.2, same] at not_this

/-- The Clients after one of them has taken a step: that one, or as before. -/
theorem client_stepped {k j k' j' : Nat} {caller caller' found : Caller α}
    {client client' : Client (Named α)} {result : Client (Named α) × List (CallOutput (Named α) (Named ρ))}
    (before : st.client k j = some (caller, client)) (same : caller'.clients = caller.clients)
    (id : caller'.id = caller.id)
    (h : (st.clientStepped k j caller' result).client k' j' = some (found, client')) :
    (k' = k ∧ j' = j ∧ found.id = caller.id ∧ client' = result.1) ∨
      ∃ old, st.client k' j' = some (old, client') ∧ old.id = found.id := by
  obtain ⟨hcaller, hclient⟩ := client_eq_some.mp before
  obtain ⟨hfound, hclient'⟩ := client_eq_some.mp h
  simp only [clientStepped] at hfound
  by_cases hk : k = k'
  · subst hk
    rw [List.getElem?_set_self (List.getElem?_eq_some_iff.mp hcaller).1] at hfound
    cases hfound
    simp only [Caller.setClient, same] at hclient'
    by_cases hj : j = j'
    · subst hj
      rw [List.getElem?_set_self (List.getElem?_eq_some_iff.mp hclient).1] at hclient'
      cases hclient'
      exact .inl ⟨rfl, rfl, id, rfl⟩
    · rw [List.getElem?_set_ne hj] at hclient'
      exact .inr ⟨caller, client_eq_some.mpr ⟨hcaller, hclient'⟩, id.symm⟩
  · rw [List.getElem?_set_ne hk] at hfound
    exact .inr ⟨found, client_eq_some.mpr ⟨hfound, hclient'⟩, rfl⟩

/-- Copies a Client's step puts on the way. -/
theorem mem_copiesOf {caller : Caller α} {outputs : List (CallOutput (Named α) (Named ρ))}
    {copy : RequestCopy α} (h : copy ∈ copiesOf caller outputs) :
    copy.source = caller.id ∧ ∃ attempt, .request attempt copy.request ∈ outputs := by
  obtain ⟨output, houtput, hcopy⟩ := List.mem_filterMap.mp h
  cases output with
  | request attempt sent =>
    cases hcopy
    exact ⟨rfl, attempt, houtput⟩
  | accepted attempt => simp at hcopy
  | callback attempt seqNo code body => simp at hcopy

/-- Fewer calls outstanding, and no other. -/
theorem Consistent.fewer (h : st.Consistent) {callers : List (Caller α)}
    (fewer : ∀ id seqNo tag n, { st with callers := callers }.Outstanding id seqNo tag n →
      st.Outstanding id seqNo tag n)
    (named : ∀ k j caller client slot call request,
      { st with callers := callers }.client k j = some (caller, client) →
      client.Holds slot call request → request.body.name = ⟨k, j, call.attempt⟩) :
    { st with callers := callers }.Consistent where
  named := named
  unique id seqNo tag tag' n n' out out' :=
    h.unique id seqNo tag tag' n n' (fewer _ _ _ _ out) (fewer _ _ _ _ out')
  requests copy hcopy tag n out := h.requests copy hcopy tag n (fewer _ _ _ _ out)
  responses copy hcopy tag n out := h.responses copy hcopy tag n (fewer _ _ _ _ out)
  cached slot hslot live unexpired entry hentry n out :=
    h.cached slot hslot live unexpired entry hentry n (fewer _ _ _ _ out)
  deferred put hput tag n out := h.deferred put hput tag n (fewer _ _ _ _ out)
  handed := h.handed

/-- The call the copies are of is outstanding, under the same number and tag. -/
theorem Consistent.outstanding (h : st.Consistent) {k j : Nat} {caller : Caller α}
    {client : Client (Named α)} (before : st.client k j = some (caller, client)) {attempt : Nat}
    {request : CallRequest (Named α)} (carries : client.Carries attempt request) :
    st.Outstanding caller.id request.seqNo request.clientTag ⟨k, j, attempt⟩ ∧
      request.body.name = ⟨k, j, attempt⟩ := by
  obtain ⟨slot, call, held, holds, rfl, number, tag, body⟩ := carries
  exact ⟨⟨caller, client, slot, call, held, before, rfl, holds, number, tag, rfl⟩,
    body ▸ h.named k j caller client slot call held before holds⟩

/-- A step that goes on with calls the Client had. -/
theorem Consistent.continued (h : st.Consistent) {k j : Nat} {caller caller' : Caller α}
    {client : Client (Named α)} (before : st.client k j = some (caller, client))
    (same : caller'.clients = caller.clients) (sameId : caller'.id = caller.id)
    {result : Client (Named α) × List (CallOutput (Named α) (Named ρ))}
    (continues : client.Continues result) : (st.clientStepped k j caller' result).Consistent := by
  have held : ∀ k' j' found client' slot call request,
      (st.clientStepped k j caller' result).client k' j' = some (found, client') →
      client'.Holds slot call request →
      st.Outstanding found.id request.seqNo request.clientTag ⟨k', j', call.attempt⟩ ∧
        request.body.name = ⟨k', j', call.attempt⟩ := by
    intro k' j' found client' slot call request hfound holds
    obtain ⟨rfl, rfl, hid, rfl⟩ | ⟨old, hold, hid⟩ := client_stepped before same sameId hfound
    · rw [hid]
      exact h.outstanding before (continues.held slot call request holds)
    · rw [← hid]
      exact h.outstanding hold holds.carries
  have was : ∀ id seqNo tag n, (st.clientStepped k j caller' result).Outstanding id seqNo tag n →
      st.Outstanding id seqNo tag n := by
    rintro id seqNo tag n ⟨found, client', slot, call, request, hfound, rfl, holds, rfl, rfl, hattempt⟩
    have out := (held _ _ _ _ _ _ _ hfound holds).1
    rw [hattempt] at out
    exact out
  have kept : Consistent { st with callers := (st.clientStepped k j caller' result).callers } :=
    h.fewer was fun k' j' found client' slot call request hfound holds =>
      (held k' j' found client' slot call request hfound holds).2
  refine { kept with requests := ?_ }
  intro copy hcopy tag n out
  obtain old | new := List.mem_append.mp hcopy
  · exact kept.requests copy old tag n out
  · obtain ⟨source, attempt, hsent⟩ := mem_copiesOf new
    obtain ⟨own, name⟩ := h.outstanding before (continues.sent attempt copy.request hsent)
    rw [source, sameId] at out
    obtain ⟨sameCall, sameTag⟩ := h.unique _ _ _ _ _ _ own (was _ _ _ _ out)
    exact ⟨name.trans sameCall, sameTag⟩

theorem Fresh.none_outstanding {id tag : BitVec 8} {seqNo : CallSeqNo} (h : st.Fresh id tag seqNo)
    (tag' : BitVec 8) (n : CallName) : ¬ st.Outstanding id seqNo tag' n := by
  rintro ⟨caller, client, slot, call, request, hclient, hid, holds, number, -, -⟩
  obtain ⟨hcaller, hclient⟩ := client_eq_some.mp hclient
  exact callingClient_none (h.2.2.2.2 caller (List.mem_of_getElem? hcaller) hid) hclient holds number

/-- A call made under a fresh number. -/
theorem Consistent.called (h : st.Consistent) {k j : Nat} {caller caller' : Caller α}
    {client : Client (Named α)} (before : st.client k j = some (caller, client))
    (same : caller'.clients = caller.clients) (sameId : caller'.id = caller.id) {seqNo : CallSeqNo}
    {encoded : Except CallRet α} {result : Client (Named α) × List (CallOutput (Named α) (Named ρ))}
    (starts : client.Starts seqNo (encoded.map fun value => ⟨⟨k, j, client.attempts⟩, value⟩) result)
    (fresh : st.Fresh caller.id client.clientTag seqNo) :
    (st.clientStepped k j caller' result).Consistent := by
  have of_encoded : ∀ body : Named α,
      encoded.map (fun value => (⟨⟨k, j, client.attempts⟩, value⟩ : Named α)) = .ok body →
      body.name = ⟨k, j, client.attempts⟩ := by
    intro body hbody
    cases encoded with
    | error ret => simp [Except.map] at hbody
    | ok value =>
      simp only [Except.map, Except.ok.injEq] at hbody
      rw [← hbody]
  -- Every call outstanding afterwards was so before, or is the one now made.
  have held : ∀ id number tag n, (st.clientStepped k j caller' result).Outstanding id number tag n →
      st.Outstanding id number tag n ∨
        (id = caller.id ∧ number = seqNo ∧ tag = client.clientTag ∧ n = ⟨k, j, client.attempts⟩) := by
    rintro id number tag n ⟨found, client', slot, call, request, hfound, rfl, holds, rfl, rfl, hattempt⟩
    obtain ⟨hk, hj, hid, rfl⟩ | ⟨old, hold, hid⟩ := client_stepped before same sameId hfound
    · obtain was | ⟨attempt, number, tag, -⟩ := starts.held slot call request holds
      · refine .inl ⟨caller, client, slot, call, request, ?_, hid.symm, was, rfl, rfl, hattempt⟩
        rw [hk, hj]
        exact before
      · refine .inr ⟨hid, number, tag, ?_⟩
        cases n
        simp_all
    · exact .inl ⟨old, client', slot, call, request, hold, hid, holds, rfl, rfl, hattempt⟩
  have old_number : ∀ {id number tag n}, (id = caller.id → number ≠ seqNo) →
      (st.clientStepped k j caller' result).Outstanding id number tag n →
      st.Outstanding id number tag n := by
    intro id number tag n other out
    obtain was | ⟨hid, hnumber, -, -⟩ := held id number tag n out
    · exact was
    · exact absurd hnumber (other hid)
  constructor
  case named =>
    intro k' j' found client' slot call request hfound holds
    obtain ⟨rfl, rfl, -, rfl⟩ | ⟨old, hold, -⟩ := client_stepped before same sameId hfound
    · obtain was | ⟨attempt, -, -, body⟩ := starts.held slot call request holds
      · exact h.named k' j' caller client slot call request before was
      · rw [attempt]
        exact of_encoded _ body
    · exact h.named k' j' old client' slot call request hold holds
  case unique =>
    intro id number tag tag' n n' out out'
    obtain was | ⟨rfl, rfl, rfl, rfl⟩ := held id number tag n out
    · obtain was' | ⟨rfl, rfl, rfl, rfl⟩ := held id number tag' n' out'
      · exact h.unique id number tag tag' n n' was was'
      · exact absurd was (fresh.none_outstanding _ _)
    · obtain was' | ⟨-, -, rfl, rfl⟩ := held _ _ tag' n' out'
      · exact absurd was' (fresh.none_outstanding _ _)
      · exact ⟨rfl, rfl⟩
  case requests =>
    intro copy hcopy tag n out
    obtain old | new := List.mem_append.mp hcopy
    · exact h.requests copy old tag n
        (old_number (fun hid hnumber => fresh.1 copy old ⟨hid, hnumber⟩) out)
    · obtain ⟨source, attempt, hsent⟩ := mem_copiesOf new
      obtain ⟨-, number, hasTag, body⟩ := starts.sent attempt copy.request hsent
      rw [source, sameId, number] at out
      obtain was | ⟨-, -, rfl, rfl⟩ := held _ _ tag n out
      · exact absurd was (fresh.none_outstanding _ _)
      · exact ⟨of_encoded _ body, hasTag⟩
  case responses =>
    intro copy hcopy tag n out
    exact h.responses copy hcopy tag n
      (old_number (fun hid hnumber => fresh.2.1 copy hcopy ⟨hid, hnumber⟩) out)
  case cached =>
    intro slot hslot live unexpired entry hentry n out
    obtain was | ⟨hid, hnumber, htag, -⟩ := held _ _ _ n out
    · exact h.cached slot hslot live unexpired entry hentry n was
    · have unnamed := fresh.2.2.1 slot hslot live unexpired
      rw [Option.mem_def] at hentry
      simp [Server.slotNames, hentry, hid, hnumber, htag] at unnamed
  case deferred =>
    intro put hput tag n out
    refine h.deferred put hput tag n (old_number (fun hid hnumber => ?_) out)
    exact fresh.2.2.2.1 put hput (by rw [← hid, ← hnumber])
  case handed => exact h.handed

/-! ## The steps -/

theorem mem_responsesOf {outputs : List (ServerOutput (Named α) (Named ρ))} {copy : ResponseCopy ρ}
    (h : copy ∈ responsesOf outputs) : .response copy.response copy.dest ∈ outputs := by
  obtain ⟨output, houtput, hcopy⟩ := List.mem_filterMap.mp h
  cases output with
  | response response dest =>
    cases hcopy
    exact houtput
  | executed source request => simp at hcopy

/-- The Server answers a request put off before. -/
theorem Consistent.fits_deferred (h : st.Consistent) {put : RequestId × CallName} (hput : put ∈ st.deferred)
    (tag : BitVec 8) (body : ρ) : st.Fits put.1.receiver tag put.1.seqNo ⟨put.2, body⟩ :=
  fun n out => h.deferred put hput tag n out

theorem Consistent.requestArrives (h : st.Consistent) (i : Nat) (host : Server.Host)
    (answer : CallAnswer ρ) (answered : List (Nat × CallAnswer ρ)) (forward : st.serverTime ≤ host.now) :
    (st.step (.request i host answer answered)).Consistent := by
  simp only [step]
  split
  · exact h
  · next copy hcopy =>
    have hcopy := List.mem_of_getElem? hcopy
    generalize hentries : answered.filterMap
      (fun entry => (st.deferred[entry.1]?).map (·, entry.2)) = entries
    have others : ∀ given ∈ entries.map (fun entry => (entry.1.1, entry.2.named entry.1.2)),
        ∀ clientTag, st.Fits given.1.receiver clientTag given.1.seqNo given.2.body := by
      intro given hgiven clientTag
      obtain ⟨⟨put, answer'⟩, hentry, rfl⟩ := List.mem_map.mp hgiven
      rw [← hentries] at hentry
      obtain ⟨⟨place, given'⟩, -, hput⟩ := List.mem_filterMap.mp hentry
      obtain ⟨put', hput', same⟩ := Option.map_eq_some_iff.mp hput
      cases same
      exact h.fits_deferred (List.mem_of_getElem? hput') clientTag _
    have own : st.Fits copy.source copy.request.clientTag copy.request.seqNo
        (answer.named copy.request.body.name).body :=
      fun n out => (h.requests copy hcopy _ n out).1
    obtain ⟨kept, sent⟩ := @Server.processCallrequest_keeps _ _ _ _ _ h.cached _ copy.sender _ _
      ⟨answer.named copy.request.body.name, entries.map fun entry => (entry.1.1, entry.2.named entry.1.2)⟩
      forward own others
    constructor
    case named => exact h.named
    case unique => exact h.unique
    case requests => exact h.requests
    case handed => exact h.handed
    case cached => exact kept.mono (le_max_left _ _)
    case responses =>
      intro response hresponse tag n out
      obtain old | new := List.mem_append.mp hresponse
      · exact h.responses response old tag n out
      · obtain ⟨receiver, number, good⟩ | ⟨given, hgiven, receiver, number, body⟩ :=
          sent _ _ (mem_responsesOf new)
        · have out' : st.Outstanding copy.source copy.request.seqNo tag n := by
            rw [← receiver, ← number]
            exact out
          obtain ⟨-, rfl⟩ := h.requests copy hcopy tag n out'
          exact good n out'
        · rw [body]
          refine others given hgiven tag n ?_
          rw [← receiver, ← number]
          exact out
    case deferred =>
      intro put hput tag n out
      dsimp only at hput
      split at hput
      · exact h.deferred put hput tag n out
      · obtain old | new := List.mem_append.mp hput
        · exact h.deferred put (List.mem_of_mem_filter old) tag n out
        · split at new
          · rw [List.mem_singleton] at new
            subst new
            exact (h.requests copy hcopy tag n out).1
          · exact absurd new List.not_mem_nil

theorem Consistent.answerComes (h : st.Consistent) (i : Nat) (answer : CallAnswer ρ) (now : Nat) :
    (st.step (.answer i answer now)).Consistent := by
  simp only [step]
  split
  · exact h
  · next put hput =>
    have hput := List.mem_of_getElem? hput
    obtain ⟨kept, sent⟩ := Server.sendResponse_keeps (α := Named α) h.cached put.1 (answer.named put.2) now
      fun tag => h.fits_deferred hput tag _
    constructor
    case named => exact h.named
    case unique => exact h.unique
    case requests => exact h.requests
    case handed => exact h.handed
    case cached => exact kept.mono (le_max_left _ _)
    case responses =>
      intro response hresponse tag n out
      obtain old | new := List.mem_append.mp hresponse
      · exact h.responses response old tag n out
      · obtain ⟨receiver, number, body⟩ := sent _ _ (mem_responsesOf new)
        rw [body]
        refine h.fits_deferred hput tag _ n ?_
        rw [← receiver, ← number]
        exact out
    case deferred =>
      intro other hother tag n out
      exact h.deferred other (List.mem_of_mem_filter hother) tag n out

/-- A response that finds its call is for that call. -/
theorem Consistent.responseArrives (h : st.Consistent) (i k : Nat) (read : Reading) (decodes : Bool) :
    (st.step (.response i k read decodes)).Consistent := by
  simp only [step]
  split
  · next copy caller hcopy hcaller =>
    split
    · next toCaller =>
      split
      · exact h
      · next j _ =>
        split
        · exact h
        · next client hclient =>
          have before : st.client k j = some (caller, client) := client_eq_some.mpr ⟨hcaller, hclient⟩
          have stepped := h.continued before rfl rfl
            (Client.response_continues client read copy.response decodes)
          refine { stepped with handed := ?_ }
          intro handed hhanded
          obtain old | new := List.mem_append.mp hhanded
          · exact h.handed handed old
          · obtain ⟨output, houtput, hhanded⟩ := List.mem_filterMap.mp new
            cases output with
            | accepted attempt => simp at hhanded
            | request attempt sent => simp at hhanded
            | callback attempt seqNo code body =>
              cases hhanded
              obtain ⟨slot, call, request, holds, number, rfl⟩ :=
                Client.response_callback houtput
              exact h.responses copy (List.mem_of_getElem? hcopy) request.clientTag _
                ⟨caller, client, slot, call, request, before, toCaller.1.symm, holds, number, rfl, rfl⟩
    · exact h
  · exact h

theorem Consistent.step (h : st.Consistent) {event : ExchangeEvent α ρ} (numbered : st.Numbered event) :
    (st.step event).Consistent := by
  cases event with
  | call k j encoded read flushed room =>
    simp only [Exchange.step, Numbered] at numbered ⊢
    split
    · exact h
    · next caller client before =>
      rw [before] at numbered
      split
      · exact h
      · cases hreached : flushed.reached with
        | true =>
          apply h.called before ?_ ?_ (Client.call_starts client _ _ read flushed room)
            (numbered hreached)
          · rfl
          · rfl
        | false =>
          apply h.continued before ?_ ?_ (Client.call_unreached client _ _ read hreached room)
          · rfl
          · rfl
  | elsewhere k seqNo =>
    have client_same : ∀ k' j' caller client,
        (st.step (.elsewhere k seqNo)).client k' j' = some (caller, client) →
        ∃ old, st.client k' j' = some (old, client) ∧ old.id = caller.id := by
      intro k' j' caller client hclient
      obtain ⟨hcaller, hclient⟩ := client_eq_some.mp hclient
      simp only [Exchange.step, List.getElem?_modify] at hcaller
      obtain ⟨old, hold, rfl⟩ := Option.map_eq_some_iff.mp hcaller
      refine ⟨old, client_eq_some.mpr ⟨hold, ?_⟩, ?_⟩
      · split at hclient
        · exact hclient
        · exact hclient
      · split <;> rfl
    apply @Exchange.Consistent.fewer _ _ _ h (st.callers.modify k fun caller => { caller with callSeqNo := seqNo })
    · rintro id number tag n ⟨caller, client, slot, call, request, hclient, hid, held⟩
      obtain ⟨old, hold, sameId⟩ := client_same _ _ _ _ hclient
      exact ⟨old, client, slot, call, request, hold, sameId.trans hid, held⟩
    · intro k' j' caller client slot call request hclient holds
      obtain ⟨old, hold, -⟩ := client_same _ _ _ _ hclient
      exact h.named k' j' old client slot call request hold holds
  | retry k j read due reached room =>
    simp only [Exchange.step]
    split
    · exact h
    · next caller client before =>
      exact h.continued before rfl rfl (Client.timer_continues client read due reached room)
  | endOldest k j =>
    simp only [Exchange.step]
    split
    · exact h
    · next caller client before =>
      exact h.continued before rfl rfl (Client.endOldestCall_continues client)
  | destroy k j =>
    simp only [Exchange.step]
    split
    · exact h
    · next caller client before =>
      exact h.continued before rfl rfl (Client.destroy_continues client)
  | request i host answer answered => exact h.requestArrives i host answer answered numbered
  | response i k read decodes => exact h.responseArrives i k read decodes
  | answer i answer now => exact h.answerComes i answer now
  | deferredTimeout due => exact { h with }
  | announced clients source farewell =>
    exact { h with cached := Server.announced_keeps (α := Named α) h.cached clients source farewell }
  | requestLost i =>
    exact { h with requests := fun copy hcopy => h.requests copy (List.mem_of_mem_eraseIdx hcopy) }
  | responseLost i =>
    exact { h with responses := fun copy hcopy => h.responses copy (List.mem_of_mem_eraseIdx hcopy) }

instance (id tag : BitVec 8) (seqNo : CallSeqNo) : Decidable (st.Fresh id tag seqNo) :=
  inferInstanceAs (Decidable (_ ∧ _ ∧ _ ∧ _ ∧ _))

instance : (event : ExchangeEvent α ρ) → Decidable (st.Numbered event)
  | .call k j _ _ flushed _ =>
    match h : st.client k j with
    | none => isTrue (by simp [Numbered, h])
    | some (caller, client) =>
      decidable_of_iff (flushed.reached = true → st.Fresh caller.id client.clientTag caller.drawSeqNo)
        (by simp [Numbered, h])
  | .request _ host _ _ => inferInstanceAs (Decidable (st.serverTime ≤ host.now))
  | .elsewhere .. => isTrue trivial
  | .retry .. => isTrue trivial
  | .endOldest .. => isTrue trivial
  | .destroy .. => isTrue trivial
  | .response .. => isTrue trivial
  | .answer .. => isTrue trivial
  | .deferredTimeout .. => isTrue trivial
  | .announced .. => isTrue trivial
  | .requestLost .. => isTrue trivial
  | .responseLost .. => isTrue trivial

/-- The contexts' Clients as `tt_Node_create_client()` makes them. -/
def Unused (callers : List (Caller α)) : Prop :=
  ∀ caller ∈ callers, ∀ client ∈ caller.clients, ∀ call ∈ client.calls, call.cache = none

instance (callers : List (Caller α)) : Decidable (Unused callers) :=
  inferInstanceAs (Decidable (∀ caller ∈ callers, ∀ client ∈ caller.clients, ∀ call ∈ client.calls, _ = _))

theorem Unused.consistent {callers : List (Caller α)} (unused : Unused callers)
    (options : ServiceOptions) (service : RetrySettings) (maxOutstanding endpointId slots : Nat) :
    (start (ρ := ρ) callers (.create options service maxOutstanding endpointId slots)).Consistent := by
  have none_held : ∀ k j caller client slot call request,
      (start (ρ := ρ) callers (.create options service maxOutstanding endpointId slots)).client k j =
        some (caller, client) → ¬ client.Holds slot call request := by
    intro k j caller client slot call request hclient holds
    obtain ⟨hcaller, hclient⟩ := client_eq_some.mp hclient
    have free := unused caller (List.mem_of_getElem? hcaller) client (List.mem_of_getElem? hclient) call
      (List.mem_of_getElem? holds.1)
    simp [holds.2] at free
  have none_outstanding : ∀ id seqNo tag n,
      ¬ (start (ρ := ρ) callers (.create options service maxOutstanding endpointId slots)).Outstanding
        id seqNo tag n := by
    rintro id seqNo tag n ⟨caller, client, slot, call, request, hclient, -, holds, -⟩
    exact none_held _ _ _ _ _ _ _ hclient holds
  constructor
  case named =>
    intro k j caller client slot call request hclient holds
    exact absurd holds (none_held _ _ _ _ _ _ _ hclient)
  case unique => exact fun id seqNo tag tag' n n' out => absurd out (none_outstanding _ _ _ _)
  case requests => exact fun copy hcopy => absurd hcopy List.not_mem_nil
  case responses => exact fun copy hcopy => absurd hcopy List.not_mem_nil
  case cached => exact fun slot _ _ _ entry _ n out => absurd out (none_outstanding _ _ _ _)
  case deferred => exact fun put hput => absurd hput List.not_mem_nil
  case handed => exact fun h hh => absurd hh List.not_mem_nil

/-- Every response handed over was made for the call it is handed over for, in every run whose calls
go out under numbers nothing is left of. -/
theorem handed_to_own_call {callers : List (Caller α)} (unused : Unused callers)
    (options : ServiceOptions) (service : RetrySettings) (maxOutstanding endpointId slots : Nat)
    {events : List (ExchangeEvent α ρ)}
    (numbered : Run.Sound step Numbered
      (start callers (.create options service maxOutstanding endpointId slots)) events) :
    ∀ handed ∈ ((start callers (.create options service maxOutstanding endpointId slots)).run events).handed,
      handed.2 = handed.1 := by
  have kept : Consistent ((start callers (.create options service maxOutstanding endpointId slots)).run
      events) := by
    apply Run.keeps (fun _ _ kept ok => Consistent.step kept ok) ?_ numbered
    exact unused.consistent options service maxOutstanding endpointId slots
  exact kept.handed

/-- One context with one Client that may have one call outstanding. -/
def oneCaller : List (Caller Nat) :=
  [⟨5, ⟨1, 7400⟩, 0, [.create ⟨true, false, ⟨0, 0⟩, ⟨0, 0⟩, .build, 1⟩ 1 1]⟩]

def hostAt (now : Nat) : Server.Host := ⟨now, now, true, true, true, true, true⟩

/-- Two calls; what the first has left is gone when the second draws its number. -/
def twoCalls : List (ExchangeEvent Nat Nat) :=
  [.call 0 0 (.ok 7) ⟨10, 1⟩ .all true,
    .request 0 (hostAt 20) ⟨0, 70, true, true, true⟩ [],
    .response 0 0 ⟨30, 1⟩ true,
    .call 0 0 (.ok 8) ⟨40, 1⟩ .all true,
    .request 1 (hostAt 50) ⟨0, 80, true, true, true⟩ [],
    .response 0 0 ⟨60, 1⟩ true,
    .response 1 0 ⟨70, 1⟩ true]

theorem handed_to_own_call_two :
    ((start oneCaller (.create .build ⟨0, 0⟩ 1 1 2)).run twoCalls).handed =
        [(⟨0, 0, 0⟩, ⟨0, 0, 0⟩), (⟨0, 0, 1⟩, ⟨0, 0, 1⟩)] ∧
      (((start oneCaller (.create .build ⟨0, 0⟩ 1 1 2)).run twoCalls).handed.all
        fun handed => handed.2 = handed.1) = true :=
  ⟨by decide +kernel, List.all_eq_true.mpr fun handed hmem => decide_eq_true
    (handed_to_own_call (by decide +kernel) .build ⟨0, 0⟩ 1 1 2 (by decide +kernel) handed hmem)⟩

/-- The send of a call fails after the Server has got the request: the next call takes the same number
and is handed the first one's answer, out of the Server's cache. -/
theorem handed_other_calls_response :
    ((start oneCaller (.create .build ⟨0, 0⟩ 1 1 2)).run
      [.call 0 0 (.ok 7) ⟨10, 1⟩ ⟨true, false, by decide⟩ true,
        .request 0 (hostAt 20) ⟨0, 70, true, true, true⟩ [],
        .call 0 0 (.ok 8) ⟨30, 1⟩ .all true,
        .request 1 (hostAt 40) ⟨0, 80, true, true, true⟩ [],
        .responseLost 0,
        .response 0 0 ⟨50, 1⟩ true]).handed = [(⟨0, 0, 1⟩, ⟨0, 0, 0⟩)] := by
  decide +kernel

end Exchange

end Tickle
