import Tickle.Service.Deferred

/-! # The answers a Server keeps

What is true of every kept answer that can still be given, `Keeps`, stays true over every step: an
answer is given again only to the call it names and before it expires, and a new one is kept under the
call it was made for. What a request brings out is a kept answer to it, the callback's answer to it, or
an answer the callback gave to a request put off before.
-/

namespace Tickle

theorem mem_modify {β : Type} {f : β → β} {l : List β} {i : Nat} {x : β} (h : x ∈ l.modify i f) :
    x ∈ l ∨ ∃ y, l[i]? = some y ∧ x = f y := by
  obtain ⟨k, hk, rfl⟩ := List.getElem_of_mem h
  rw [List.length_modify] at hk
  rw [List.getElem_modify]
  split
  · next same =>
    subst same
    exact .inr ⟨l[i], List.getElem?_eq_getElem hk, rfl⟩
  · exact .inl (List.getElem_mem hk)

namespace Server

variable {α ρ : Type}

/-- Every kept answer that has not expired at `t` satisfies `P` with the call it is kept for. -/
def Keeps (t : Nat) (P : BitVec 8 → BitVec 8 → CallSeqNo → ρ → Prop) (slots : List (CacheSlot ρ)) :
    Prop :=
  ∀ slot ∈ slots, slot.live = true → t < slot.expiresAt → ∀ entry ∈ slot.entry,
    P entry.receiver slot.clientTag entry.seqNo entry.body

variable {t : Nat} {P : BitVec 8 → BitVec 8 → CallSeqNo → ρ → Prop} {s : Server ρ}
  {slots : List (CacheSlot ρ)}

theorem Keeps.mono (h : Keeps t P slots) {t' : Nat} (hle : t ≤ t') : Keeps t' P slots :=
  fun slot hslot live unexpired => h slot hslot live (lt_of_le_of_lt hle unexpired)

/-- Slots that were there, or give no answer. -/
theorem Keeps.of_sub (h : Keeps t P slots) {slots' : List (CacheSlot ρ)}
    (sub : ∀ slot' ∈ slots', slot'.live = true → ∃ slot ∈ slots, slot.live = true ∧
      slot.expiresAt = slot'.expiresAt ∧ slot.entry = slot'.entry ∧ slot.clientTag = slot'.clientTag) :
    Keeps t P slots' := by
  intro slot' hslot' live unexpired entry hentry
  obtain ⟨slot, hslot, lived, expiry, same, tag⟩ := sub slot' hslot' live
  rw [← tag]
  exact h slot hslot lived (expiry ▸ unexpired) entry (same ▸ hentry)

theorem Keeps.of_mem (h : Keeps t P slots) {slots' : List (CacheSlot ρ)}
    (sub : ∀ slot' ∈ slots', slot' ∈ slots ∨ slot'.live = false) : Keeps t P slots' := by
  apply h.of_sub
  intro slot' hslot' live
  obtain old | dead := sub slot' hslot'
  · exact ⟨slot', old, live, rfl, rfl, rfl⟩
  · simp [live] at dead

theorem Keeps.modify_dead (h : Keeps t P slots) (i : Nat) {f : CacheSlot ρ → CacheSlot ρ}
    (dead : ∀ slot, (f slot).live = false) : Keeps t P (slots.modify i f) := by
  apply h.of_mem
  intro slot' hslot'
  obtain old | ⟨slot, -, rfl⟩ := mem_modify hslot'
  · exact .inl old
  · exact .inr (dead slot)

theorem findServerCacheSlot_sub (receiver clientTag : BitVec 8) (seqNo : CallSeqNo) (now : Nat)
    {slot' : CacheSlot ρ} (h : slot' ∈ (findServerCacheSlot receiver clientTag seqNo now slots).1) :
    slot' ∈ slots ∨ slot'.live = false := by
  induction slots with
  | nil => exact absurd h List.not_mem_nil
  | cons slot rest ih =>
    unfold findServerCacheSlot at h
    split at h
    · split at h
      · exact .inl h
      · obtain rfl | h := List.mem_cons.mp h
        · exact .inr rfl
        · obtain old | dead := ih h
          · exact .inl (List.mem_cons_of_mem _ old)
          · exact .inr dead
    · obtain rfl | h := List.mem_cons.mp h
      · exact .inl (List.mem_cons_self ..)
      · obtain old | dead := ih h
        · exact .inl (List.mem_cons_of_mem _ old)
        · exact .inr dead

/-- The slot found is live, names the call and has not expired. -/
theorem findServerCacheSlot_found {receiver clientTag : BitVec 8} {seqNo : CallSeqNo} {now i : Nat}
    (h : (findServerCacheSlot receiver clientTag seqNo now slots).2 = some i) :
    ∃ slot, (findServerCacheSlot receiver clientTag seqNo now slots).1[i]? = some slot ∧
      slot ∈ slots ∧ slot.live = true ∧ now < slot.expiresAt ∧
      slotNames slot receiver clientTag seqNo = true := by
  induction slots generalizing i with
  | nil => simp [findServerCacheSlot] at h
  | cons slot rest ih =>
    have deeper : ∀ {head : CacheSlot ρ} {k : Nat},
        (findServerCacheSlot receiver clientTag seqNo now rest).2.map (· + 1) = some k →
        ∃ found, (head :: (findServerCacheSlot receiver clientTag seqNo now rest).1)[k]? = some found ∧
          found ∈ slot :: rest ∧ found.live = true ∧ now < found.expiresAt ∧
          slotNames found receiver clientTag seqNo = true := by
      intro head k hk
      obtain ⟨j, hj, rfl⟩ := Option.map_eq_some_iff.mp hk
      obtain ⟨found, hget, hmem, hrest⟩ := ih hj
      exact ⟨found, by simpa using hget, List.mem_cons_of_mem _ hmem, hrest⟩
    unfold findServerCacheSlot at h ⊢
    by_cases named : (slot.live && slotNames slot receiver clientTag seqNo) = true
    · rw [if_pos named] at h ⊢
      simp only [Bool.and_eq_true] at named
      by_cases unexpired : now < slot.expiresAt
      · rw [if_pos unexpired] at h ⊢
        cases h
        exact ⟨slot, rfl, List.mem_cons_self .., named.1, unexpired, named.2⟩
      · rw [if_neg unexpired] at h ⊢
        exact deeper h
    · rw [if_neg named] at h ⊢
      exact deeper h

theorem slotAt_of_getElem? {i : Nat} {slot : CacheSlot ρ} (h : slots[i]? = some slot) :
    slotAt slots i = slot := by
  simp [slotAt, List.getD_eq_getElem?_getD, h]

theorem slotNames_entry {slot : CacheSlot ρ} {receiver clientTag : BitVec 8} {seqNo : CallSeqNo}
    (h : slotNames slot receiver clientTag seqNo = true) :
    ∃ entry, slot.entry = some entry ∧ entry.receiver = receiver ∧ slot.clientTag = clientTag ∧
      entry.seqNo = seqNo := by
  unfold slotNames at h
  cases hentry : slot.entry with
  | none => simp [hentry] at h
  | some entry =>
    simp only [hentry, Option.any_some, Bool.and_eq_true, decide_eq_true_eq] at h
    exact ⟨entry, rfl, h.1.1, h.1.2, h.2⟩

theorem checkCache_keeps (h : Keeps t P s.cache) (source : BitVec 8) (sender : Sender)
    (request : CallRequest α) (now : Nat) :
    Keeps t P (s.checkCache source sender request now).1.cache := by
  have found : Keeps t P (findServerCacheSlot source request.clientTag request.seqNo now s.cache).1 :=
    h.of_mem fun slot' => findServerCacheSlot_sub _ _ _ _
  unfold checkCache
  dsimp only
  split
  · exact found
  · split
    · exact found.modify_dead _ fun _ => rfl
    · exact found

/-- A kept answer that `checkCache` finds is one kept for the request's call, not expired. -/
theorem checkCache_found {source : BitVec 8} {sender : Sender} {request : CallRequest α} {now i : Nat}
    (h : (s.checkCache source sender request now).2 = some i) :
    ∃ slot, (s.checkCache source sender request now).1.cache[i]? = some slot ∧ slot ∈ s.cache ∧
      slot.live = true ∧ now < slot.expiresAt ∧
      slotNames slot source request.clientTag request.seqNo = true := by
  unfold checkCache at h ⊢
  dsimp only at h ⊢
  cases hfound : (findServerCacheSlot source request.clientTag request.seqNo now s.cache).2 with
  | none => simp [hfound] at h
  | some k =>
    simp only [hfound] at h ⊢
    by_cases stale : slotIsStale { s with cache :=
        (findServerCacheSlot source request.clientTag request.seqNo now s.cache).1 }
        (slotAt (findServerCacheSlot source request.clientTag request.seqNo now s.cache).1 k) source
        sender.port = true
    · rw [if_pos stale] at h
      simp at h
    · rw [if_neg stale] at h ⊢
      cases h
      exact findServerCacheSlot_found hfound

/-- A hit changes when its answer was sent and expires, not what it is. -/
theorem noteServerCacheHit_cache {i : Nat} {slot : CacheSlot ρ} (h : s.cache[i]? = some slot)
    (now : Nat) : ∃ expiry, (s.noteServerCacheHit i now).cache =
      s.cache.modify i fun slot => { slot with sentAt := now, expiresAt := expiry } := by
  unfold noteServerCacheHit
  rw [h]
  dsimp only
  split
  · exact ⟨_, rfl⟩
  · exact ⟨_, rfl⟩

/-- A request answered from a kept answer to it. -/
theorem answerFromCache_keeps (h : Keeps t P s.cache) {i : Nat} {slot : CacheSlot ρ}
    (hslot : s.cache[i]? = some slot) (live : slot.live = true) (unexpired : t < slot.expiresAt)
    {source clientTag : BitVec 8} {seqNo : CallSeqNo}
    (named : slotNames slot source clientTag seqNo = true) (sender : Sender) (host : Host) :
    Keeps t P (s.answerFromCache (α := α) i sender host).1.cache ∧
      ∀ response dest, .response response dest ∈ (s.answerFromCache (α := α) i sender host).2 →
        response.receiver = source ∧ response.seqNo = seqNo ∧ P source clientTag seqNo response.body := by
  obtain ⟨entry, hentry, rfl, rfl, rfl⟩ := slotNames_entry named
  have given : P entry.receiver slot.clientTag entry.seqNo entry.body :=
    h slot (List.mem_of_getElem? hslot) live unexpired entry hentry
  obtain ⟨expiry, hit⟩ := noteServerCacheHit_cache hslot host.now
  have kept : Keeps t P (s.noteServerCacheHit i host.now).cache := by
    intro slot' hslot' live' unexpired' entry' hentry'
    rw [hit] at hslot'
    obtain old | ⟨before, hbefore, rfl⟩ := mem_modify hslot'
    · exact h slot' old live' unexpired' entry' hentry'
    · rw [hslot] at hbefore
      cases hbefore
      rw [Option.mem_def, hentry] at hentry'
      cases hentry'
      exact given
  have resent : Keeps t P ((s.noteServerCacheHit i host.now).resendCachedResponse i host.buffer).1.cache := by
    intro slot' hslot' live' unexpired' entry' hentry'
    obtain old | ⟨before, hbefore, rfl⟩ := mem_modify hslot'
    · exact kept slot' old live' unexpired' entry' hentry'
    · obtain ⟨entry₀, hentry₀, rfl⟩ := Option.map_eq_some_iff.mp hentry'
      exact kept before (List.mem_of_getElem? hbefore) live' unexpired' entry₀ hentry₀
  have sent : ∀ response,
      ((s.noteServerCacheHit i host.now).resendCachedResponse i host.buffer).2 = some response →
      response.receiver = entry.receiver ∧ response.seqNo = entry.seqNo ∧ response.body = entry.body := by
    intro response hresponse
    have hmodified : ((s.noteServerCacheHit i host.now).modifySlot i fun slot =>
        { slot with entry := slot.entry.map fun entry => { entry with retry := entry.retry + 1 } }).cache[i]? =
        some { slot with
          sentAt := host.now
          expiresAt := expiry
          entry := slot.entry.map fun entry => { entry with retry := entry.retry + 1 } } := by
      simp [modifySlot, hit, hslot]
    unfold resendCachedResponse at hresponse
    dsimp only at hresponse
    split at hresponse
    · rw [slotAt_of_getElem? hmodified] at hresponse
      simp only [hentry, Option.map_some, Option.some.injEq] at hresponse
      subst hresponse
      exact ⟨rfl, rfl, rfl⟩
    · simp at hresponse
  unfold answerFromCache
  dsimp only
  split
  · refine ⟨resent, fun response dest hmem => ?_⟩
    simp at hmem
  · next response hresponse =>
    refine ⟨resent, fun response' dest hmem => ?_⟩
    dsimp only at hmem
    split at hmem
    · simp only [List.mem_singleton, ServerOutput.response.injEq] at hmem
      obtain ⟨rfl, -⟩ := hmem
      obtain ⟨receiver, number, body⟩ := sent _ hresponse
      exact ⟨receiver, number, body ▸ given⟩
    · simp at hmem

theorem takesRequest_keeps (h : Keeps t P s.cache) (source : BitVec 8) (sender : Sender)
    (request : CallRequest α) (host : Host) :
    Keeps t P (s.takesRequest source sender request host).1.cache := by
  have learnt : Keeps t P (s.learnFromExpiredResponse source request.clientTag request.seqNo sender.port
      host.now).cache := by
    unfold learnFromExpiredResponse
    split
    · exact h
    · next i hfound =>
      obtain ⟨hlt, hslot, -⟩ := List.findIdx?_eq_some_iff_getElem.mp hfound
      simp only [Bool.and_eq_true, Bool.not_eq_true'] at hslot
      rw [List.getElem?_eq_getElem hlt]
      have still : ∀ slot', slot' ∈ s.cache.modify i (fun slot => { slot with sentAt := 0 }) →
          slot' ∈ s.cache ∨ slot'.live = false := by
        intro slot' hslot'
        obtain old | ⟨before, hbefore, rfl⟩ := mem_modify hslot'
        · exact .inl old
        · rw [List.getElem?_eq_getElem hlt] at hbefore
          cases hbefore
          exact .inr hslot.1.1
      dsimp only
      split
      · exact h.of_mem still
      · exact h.of_mem still
  unfold takesRequest serverCanTakeRequest serverCacheCanKeep
  dsimp only
  generalize hlearnt : (if request.retry ≠ 0 then
    s.learnFromExpiredResponse source request.clientTag request.seqNo sender.port host.now else s) = s'
  have h' : Keeps t P s'.cache := by
    rw [← hlearnt]
    split
    · exact learnt
    · exact h
  split
  · exact h'
  · split
    · exact h'
    · split
      · exact h'.modify_dead _ fun _ => rfl
      · split
        · exact h'
        · exact h'

/-- An answer is kept under the call it was made for. -/
theorem setServerCache_keeps (h : Keeps t P s.cache) (response : CallResponse ρ) (clientTag : BitVec 8)
    (port : Nat) (fits : Bool) (now : Nat)
    (own : P response.receiver clientTag response.seqNo response.body) :
    Keeps t P (s.setServerCache response clientTag port fits now).cache := by
  have expired : Keeps t P (s.cache.map (expire now)) := by
    apply h.of_mem
    intro slot' hslot'
    obtain ⟨slot, hslot, rfl⟩ := List.mem_map.mp hslot'
    unfold expire
    split
    · exact .inr rfl
    · exact .inl hslot
  have cleared : Keeps t P (if s.maxOutstanding = 1 then
      (s.cache.map (expire now)).map fun slot =>
        if slot.live && slot.entry.any (·.receiver = response.receiver) && slot.clientTag = clientTag
        then slot.clear else slot
      else s.cache.map (expire now)) := by
    split
    · apply expired.of_mem
      intro slot' hslot'
      obtain ⟨slot, hslot, rfl⟩ := List.mem_map.mp hslot'
      split
      · exact .inr rfl
      · exact .inl hslot
    · exact expired
  unfold setServerCache
  dsimp only
  split
  · exact cleared
  · split
    · exact cleared
    · intro slot' hslot' live unexpired entry hentry
      obtain old | rfl := List.mem_or_eq_of_mem_set hslot'
      · exact cleared slot' old live unexpired entry hentry
      · cases hentry
        exact own

theorem encodeCallResponse_keeps (h : Keeps t P s.cache) (receiver clientTag : BitVec 8) (port : Nat)
    (seqNo : CallSeqNo) (answer : CallAnswer ρ) (now : Nat)
    (own : P receiver clientTag seqNo answer.body) :
    Keeps t P (s.encodeCallResponse receiver clientTag port seqNo answer now).1.cache := by
  unfold encodeCallResponse
  split
  · exact h
  · exact setServerCache_keeps h _ clientTag port _ now own

/-- The response answers the call of `source` numbered `seqNo`, with a body that is `good`. -/
def Replies (source : BitVec 8) (seqNo : CallSeqNo) (good : ρ → Prop) (response : CallResponse ρ) : Prop :=
  response.receiver = source ∧ response.seqNo = seqNo ∧ good response.body

/-- A request put off is answered, or there is none of that id. -/
theorem sendResponse_keeps (h : Keeps t P s.cache) (requestId : RequestId) (answer : CallAnswer ρ)
    (now : Nat) (own : ∀ clientTag, P requestId.receiver clientTag requestId.seqNo answer.body) :
    Keeps t P (s.sendResponse (α := α) requestId answer now).1.cache ∧
      ∀ response dest, .response response dest ∈ (s.sendResponse (α := α) requestId answer now).2.2 →
        Replies requestId.receiver requestId.seqNo (· = answer.body) response := by
  unfold sendResponse
  split
  · refine ⟨h, fun response dest hmem => ?_⟩
    simp at hmem
  · next i _ =>
    split
    · refine ⟨h, fun response dest hmem => ?_⟩
      simp at hmem
    · next slot _ =>
      dsimp only
      split
      · refine ⟨encodeCallResponse_keeps (by exact h) _ _ _ _ answer now (own _), ?_⟩
        intro response dest hmem
        simp at hmem
      · next response hresponse =>
        refine ⟨encodeCallResponse_keeps (by exact h) _ _ _ _ answer now (own _), ?_⟩
        intro response' dest hmem
        dsimp only at hmem
        split at hmem
        · simp only [List.mem_singleton, ServerOutput.response.injEq] at hmem
          obtain ⟨rfl, -⟩ := hmem
          rw [encodeCallResponse_response _ _ _ _ _ _ _ hresponse]
          exact ⟨rfl, rfl, rfl⟩
        · simp at hmem

theorem answerAll_keeps (h : Keeps t P s.cache) (now : Nat)
    {answered : List (RequestId × CallAnswer ρ)}
    (own : ∀ given ∈ answered, ∀ clientTag, P given.1.receiver clientTag given.1.seqNo given.2.body) :
    Keeps t P (s.answerAll (α := α) now answered).1.cache ∧
      ∀ response dest, .response response dest ∈ (s.answerAll (α := α) now answered).2 →
        ∃ given ∈ answered, Replies given.1.receiver given.1.seqNo (· = given.2.body) response := by
  induction answered generalizing s with
  | nil =>
    refine ⟨h, fun response dest hmem => ?_⟩
    simp [answerAll] at hmem
  | cons given rest ih =>
    obtain ⟨kept, sent⟩ :=
      sendResponse_keeps (α := α) h given.1 given.2 now (own given (List.mem_cons_self ..))
    obtain ⟨keptAll, sentAll⟩ := ih kept fun other hother => own other (List.mem_cons_of_mem _ hother)
    refine ⟨keptAll, fun response dest hmem => ?_⟩
    obtain hmem | hmem := List.mem_append.mp hmem
    · exact ⟨given, List.mem_cons_self .., sent response dest hmem⟩
    · obtain ⟨other, hother, answers⟩ := sentAll response dest hmem
      exact ⟨other, List.mem_cons_of_mem _ hother, answers⟩

theorem deferCallResponse_cache (s : Server ρ) (requestId : RequestId) (clientTag : BitVec 8)
    (sender : Sender) (now : Nat) (room : Bool) :
    (s.deferCallResponse requestId clientTag sender now room).1.cache = s.cache := by
  unfold deferCallResponse
  split
  · rfl
  · dsimp only
    split <;> rfl

theorem afterCallback_keeps (h : Keeps t P s.cache) (source : BitVec 8) (sender : Sender)
    (request : CallRequest α) (host : Host) (answer : CallAnswer ρ)
    (own : P source request.clientTag request.seqNo answer.body) :
    Keeps t P (s.afterCallback source sender request host answer).1.cache ∧
      ∀ response dest, .response response dest ∈ (s.afterCallback source sender request host answer).2 →
        Replies source request.seqNo (· = answer.body) response := by
  unfold afterCallback
  split
  · refine ⟨?_, fun response dest hmem => ?_⟩
    · rw [deferCallResponse_cache]
      exact h
    · simp at hmem
  · split
    · refine ⟨h, fun response dest hmem => ?_⟩
      simp at hmem
    · have kept := encodeCallResponse_keeps h source request.clientTag sender.port request.seqNo answer
        host.later own
      dsimp only
      split
      · refine ⟨kept, fun response dest hmem => ?_⟩
        simp at hmem
      · next response hresponse =>
        refine ⟨kept, fun response' dest hmem => ?_⟩
        dsimp only at hmem
        split at hmem
        · simp only [List.mem_singleton, ServerOutput.response.injEq] at hmem
          obtain ⟨rfl, -⟩ := hmem
          rw [encodeCallResponse_response _ _ _ _ _ _ _ hresponse]
          exact ⟨rfl, rfl, rfl⟩
        · simp at hmem

/-- What a request brings out answers it with what may be kept for its call, or answers a request put
off before. -/
theorem processCallrequest_keeps (h : Keeps t P s.cache) {source : BitVec 8} {sender : Sender}
    {request : CallRequest α} {host : Host} {ran : Ran ρ} (forward : t ≤ host.now)
    (own : P source request.clientTag request.seqNo ran.answer.body)
    (others : ∀ given ∈ ran.answered, ∀ clientTag,
      P given.1.receiver clientTag given.1.seqNo given.2.body) :
    Keeps t P (s.processCallrequest source sender request host ran).1.cache ∧
      ∀ response dest,
        .response response dest ∈ (s.processCallrequest source sender request host ran).2 →
        Replies source request.seqNo (P source request.clientTag request.seqNo) response ∨
          ∃ given ∈ ran.answered, Replies given.1.receiver given.1.seqNo (· = given.2.body) response := by
  have quiet : ∀ response dest, (.response response dest : ServerOutput α ρ) ∈ [] →
      Replies source request.seqNo (P source request.clientTag request.seqNo) response ∨
        ∃ given ∈ ran.answered, Replies given.1.receiver given.1.seqNo (· = given.2.body) response := by
    intro response dest hmem
    exact absurd hmem List.not_mem_nil
  unfold processCallrequest
  split
  · exact ⟨h, quiet⟩
  · have checked := checkCache_keeps h source sender request host.now
    have found : ∀ i, (s.checkCache source sender request host.now).2 = some i → _ := fun i =>
      checkCache_found
    dsimp only
    split
    · next i hfound =>
      obtain ⟨slot, hslot, -, live, unexpired, named⟩ := found i hfound
      obtain ⟨kept, sent⟩ := answerFromCache_keeps (α := α) checked hslot live
        (lt_of_le_of_lt forward unexpired) named sender host
      exact ⟨kept, fun response dest hmem => .inl (sent response dest hmem)⟩
    · have taken := takesRequest_keeps checked source sender request host
      split
      · exact ⟨taken, quiet⟩
      · split
        · exact ⟨taken, quiet⟩
        · obtain ⟨kept, sent⟩ := answerAll_keeps (α := α) taken host.now others
          obtain ⟨keptAll, answered⟩ := afterCallback_keeps kept source sender request host ran.answer own
          refine ⟨keptAll, fun response dest hmem => ?_⟩
          obtain hmem | hmem := List.mem_cons.mp hmem
          · simp at hmem
          · obtain hmem | hmem := List.mem_append.mp hmem
            · exact .inr (sent response dest hmem)
            · obtain ⟨receiver, number, body⟩ := answered response dest hmem
              exact .inl ⟨receiver, number, body ▸ own⟩

theorem announced_keeps (h : Keeps t P s.cache) (clients : List (BitVec 8 × Nat)) (source : BitVec 8)
    (farewell : Bool) :
    Keeps t P (s.step (α := α) (.announced clients source farewell)).1.cache := by
  apply h.of_mem
  intro slot' hslot'
  obtain ⟨slot, hslot, rfl⟩ := List.mem_map.mp hslot'
  split
  · exact .inl hslot
  · split
    · exact .inl hslot
    · split
      · exact .inr rfl
      · exact .inl hslot

end Server

end Tickle
