import Tickle.Reader.Serves

/-! # Handed over in order

The seq_nos handed to the application of one writer's samples only rise, as long as the writer stays in the table and what it sends is
named within 2^29 of the watermark. Where a drain starts lags behind the watermark by little, whatever is held.
-/

namespace Tickle

namespace Reader

open Bits Serial

namespace Subscriber

variable {sub sub' sub₁ sub₂ : Subscriber} {a writer : Writer} {w n m h : Nat} {proxy new : TrackedWriter} {seqNo : SeqNo} {ctx : Datagram}

/-! ## The invariant -/

/-- What is kept of a writer: it tracks with the Subscriber's window, its next drain starts at most 2^29 behind the watermark, a sample of
it in the scratch has its fragments where the watermark went by, and before it is known nothing of it is held. -/
structure Following (a : Writer) (sub : Subscriber) : Prop where
  bounded : sub.Bounded
  tracking : 0 < sub.words ∧ sub.words < 2 ^ 16
  tracked : ∀ proxy, sub.findWriterProxy a = some proxy →
    proxy.track.words = sub.words ∧ steps (drainStart sub proxy) proxy.track.ackSeqNo ≤ 2 ^ 29
  taking : ∀ proxy fast, sub.findWriterProxy a = some proxy → sub.fast = some fast → fast.writer = a →
    fast.placed < fast.count ∧ steps fast.seqNo proxy.track.ackSeqNo ≤ fast.placed * 2 ^ 23
  free : sub.findWriterProxy a = none → sub.Free a

theorem following_tracked (bounded : sub.Bounded) (tracking : 0 < sub.words ∧ sub.words < 2 ^ 16)
    (found : sub.findWriterProxy a = some proxy) (words : proxy.track.words = sub.words)
    (near : steps (drainStart sub proxy) proxy.track.ackSeqNo ≤ 2 ^ 29)
    (taking : ∀ fast, sub.fast = some fast → fast.writer = a →
      fast.placed < fast.count ∧ steps fast.seqNo proxy.track.ackSeqNo ≤ fast.placed * 2 ^ 23) : Following a sub := by
  refine ⟨bounded, tracking, ?_, ?_, ?_⟩
  · intro proxy' found'
    rw [found] at found'
    cases found'
    exact ⟨words, near⟩
  · intro proxy' fast found' busy own
    rw [found] at found'
    cases found'
    exact taking fast busy own
  · intro none_
    rw [found] at none_
    cases none_

/-- With nothing of the writer in the scratch a drain starts at the cursor. -/
theorem drainStart_cursor (found : sub.findWriterProxy a = some proxy) (idle : ∀ fast, sub.fast = some fast → fast.writer ≠ a) :
    drainStart sub proxy = proxy.reorderCursor := by
  unfold drainStart
  split
  · rfl
  · rename_i fast busy
    rw [find_writer found, if_neg (idle fast busy)]

/-- All that went by is drained. -/
theorem following_level (bounded : sub.Bounded) (tracking : 0 < sub.words ∧ sub.words < 2 ^ 16)
    (found : sub.findWriterProxy a = some proxy) (words : proxy.track.words = sub.words)
    (level : proxy.reorderCursor = proxy.track.ackSeqNo) (idle : ∀ fast, sub.fast = some fast → fast.writer ≠ a) : Following a sub := by
  refine following_tracked bounded tracking found words ?_ fun fast busy own => absurd own (idle fast busy)
  rw [drainStart_cursor found idle, level, steps_self]
  omega

theorem Steady.following (steady : Steady a 0 sub sub') (h : Following a sub) (bounded : sub'.Bounded) : Following a sub' := by
  -- the proxy found after is what the one before became
  have back : ∀ proxy', sub'.findWriterProxy a = some proxy' → ∃ proxy, sub.findWriterProxy a = some proxy ∧
      Onward 0 proxy.track proxy'.track ∧ drainStart sub' proxy' = drainStart sub proxy := by
    intro proxy' found'
    cases found : sub.findWriterProxy a with
    | none =>
      rw [steady.strange found] at found'
      cases found'
    | some proxy =>
      obtain ⟨other, there, onward, start⟩ := steady.track proxy found
      rw [found'] at there
      cases there
      exact ⟨proxy, rfl, onward, start⟩
  refine ⟨bounded, by rw [steady.words]; exact h.tracking, ?_, ?_, ?_⟩
  · intro proxy' found'
    obtain ⟨proxy, found, onward, start⟩ := back proxy' found'
    obtain ⟨words, near⟩ := h.tracked proxy found
    rw [onward.words, steady.words, start, onward.ack, plus_zero]
    exact ⟨words, near⟩
  · intro proxy' fast found' busy own
    obtain ⟨proxy, found, onward, start⟩ := back proxy' found'
    rw [onward.ack, plus_zero]
    exact h.taking proxy fast found (steady.fast fast busy own) own
  · intro none_
    cases found : sub.findWriterProxy a with
    | none => exact steady.free found (h.free found)
    | some proxy =>
      obtain ⟨other, there, _⟩ := steady.track proxy found
      rw [none_] at there
      cases there

/-- The invariant holds again, and what was handed over lies in order. -/
structure Advances (a : Writer) (sub sub' : Subscriber) : Prop where
  following : Following a sub'
  serves : ∃ n < 2 ^ 32, ∀ w, Serves a w n sub sub'

theorem Steady.advances (steady : Steady a 0 sub sub') (h : Following a sub) (bounded : sub'.Bounded) : Advances a sub sub' :=
  ⟨steady.following h bounded, 0, by omega, steady.serves⟩

theorem Advances.after (one : Steady a 0 sub sub₁) (two : Advances a sub₁ sub') : Advances a sub sub' := by
  obtain ⟨n, few, serves⟩ := two.serves
  exact ⟨two.following, n, few, fun w => (one.serves w).next (serves w)⟩

theorem Advances.next (one : Advances a sub sub₁) (two : Steady a 0 sub₁ sub') (bounded : sub'.Bounded) : Advances a sub sub' := by
  obtain ⟨n, few, serves⟩ := one.serves
  refine ⟨two.following one.following bounded, n, few, ?_⟩
  intro w
  have whole := (serves w).trans (two.serves (w + n))
  rwa [Nat.add_zero] at whole

theorem Drains.following (drains : Drains a sub proxy sub') (tracking : 0 < sub.words ∧ sub.words < 2 ^ 16)
    (words : proxy.track.words = sub.words) (taking : ∀ fast, sub.fast = some fast → fast.writer = a → fast.placed < fast.count)
    (bounded : sub'.Bounded) : Following a sub' := by
  obtain ⟨left, found, leftWords, leftAck, near⟩ := drains.own
  have scratch : ∀ fast, sub'.fast = some fast → fast.writer = a →
      fast.placed < fast.count ∧ fast.count ≤ 64 ∧ steps fast.seqNo left.track.ackSeqNo = fast.placed := by
    intro fast busy own
    obtain ⟨before, level⟩ := drains.fast fast busy own
    have less := taking fast before own
    have few := bounded.scratch fast busy
    refine ⟨less, few, ?_⟩
    rw [leftAck, level, steps_plus _ (by omega)]
  refine following_tracked bounded (by rw [drains.words]; exact tracking) found (leftWords.trans (words.trans drains.words.symm)) ?_ ?_
  · unfold drainStart
    cases busy : sub'.fast with
    | none =>
      change steps left.reorderCursor _ ≤ _
      rw [leftAck]
      omega
    | some fast =>
      dsimp only
      split
      · rename_i own
        rw [find_writer found] at own
        have := scratch fast busy own
        omega
      · rw [leftAck]
        omega
  · intro fast busy own
    have := scratch fast busy own
    exact ⟨this.1, by omega⟩

/-- The writer's watermark moves on, and a drain follows. -/
theorem Following.drained (h : Following a sub) (found : sub.findWriterProxy a = some proxy) (sets : Sets sub a new sub₂)
    (delivered : sub₂.delivered = sub.delivered) (bounded : sub₂.Bounded) (onward : Onward n proxy.track new.track)
    (cursor : new.reorderCursor = proxy.reorderCursor) (few : n < 2 ^ 30 + 2 ^ 24) {arriving : Option Datagram}
    (hand : ∀ ctx, arriving = some ctx → ctx.writer = a ∧ Past ctx.seqNo new.track.ackSeqNo) :
    Advances a sub (sub₂.drainReorderWith a arriving) := by
  obtain ⟨words, near⟩ := h.tracked proxy found
  have name : new.writer = proxy.writer := (find_writer sets.found).trans (find_writer found).symm
  have start : steps (drainStart sub₂ new) new.track.ackSeqNo ≤ 2 ^ 31 := by
    rw [drainStart_congr sets.same.fast cursor name, onward.ack, steps_plus_of (by omega)]
    omega
  have drains := drains_own bounded sets.found start hand
  have after := (hands_drainReorderWith bounded a arriving).bounded
  refine ⟨?_, n, by omega, ?_⟩
  · refine drains.following ?_ ?_ ?_ after
    · rw [sets.same.words]
      exact h.tracking
    · rw [onward.words, words, sets.same.words]
    · intro fast busy own
      rw [sets.same.fast] at busy
      exact (h.taking proxy fast found busy own).1
  · intro w
    have moved : Serves a w n sub sub₂ := serves_onward found sets.found onward delivered
    have whole := moved.trans (drains.serves (w + n))
    rwa [Nat.add_zero] at whole

/-! ## Other writers' datagrams -/

theorem find_firstContact_other (ne : a ≠ writer) (seqNo : SeqNo) :
    (sub.firstContact writer seqNo).findWriterProxy a = sub.findWriterProxy a := by
  unfold firstContact
  split
  · rfl
  · rename_i fresh
    push Not at fresh
    exact (find_append (Option.not_isSome_iff_eq_none.mp fresh.1)).2 a ne

theorem steady_updateReliableAck_other (ne : a ≠ writer) (seqNo : SeqNo) (span : Nat) :
    Steady a 0 sub (sub.updateReliableAck writer seqNo span).1 := by
  refine (sameRing_updateReliableAck sub writer seqNo span).steady_find (updateReliableAck_delivered sub writer seqNo span) ?_
  unfold updateReliableAck
  dsimp only
  rw [← @find_firstContact_other sub a writer ne seqNo]
  split
  · rfl
  · rename_i old found
    have name := find_writer found
    exact find_setProxy_ne name ne

/-- A sample of another writer is handed over out of turn. -/
theorem steady_hand {sample : Delivery} (ne : a ≠ sample.writer) : Steady a 0 sub { sub with delivered := sub.delivered ++ [sample] } := by
  refine ⟨rfl, ?_, id, fun _ busy _ => busy, fun _ free => free, ?_⟩
  · intro proxy found
    exact ⟨proxy, found, Onward.still rfl rfl rfl, rfl⟩
  · intro w h stands
    exact ⟨h, stands, Goes.nothing rfl (by simpa using Ne.symm ne) (Nat.le_refl h)⟩

theorem steady_declined (ctx : Datagram) (span : Nat) : Steady a 0 sub (sub.deliverDataToSubscriber ctx span false) := by
  unfold deliverDataToSubscriber
  rw [if_pos rfl]
  exact steady_mapTrack (fun track => onward_noteDeclined track ctx.seqNo) ctx.writer

theorem steady_data_other (bounded : sub.Bounded) (ne : a ≠ ctx.writer) (span : Nat) :
    Steady a 0 sub (sub.deliverDataToSubscriber ctx span true) := by
  have updates : Steady a 0 sub (sub.updateReliableAck ctx.writer ctx.seqNo span).1 := steady_updateReliableAck_other ne ctx.seqNo span
  have still := (hands_updateReliableAck bounded ctx.writer ctx.seqNo span).bounded
  unfold deliverDataToSubscriber
  rw [if_neg (by decide)]
  dsimp only
  generalize sub.updateReliableAck ctx.writer ctx.seqNo span = updated at updates still ⊢
  split
  · exact updates
  · split
    · exact updates.next (steady_hand ne)
    · split
      · exact updates.next (steady_holdForReorder still fun own => absurd own.symm ne)
      · apply updates.next
        apply steady_drain still _ ne
        intro other here
        cases here
        rfl

/-! ## The writer's own DATA -/

theorem serves_strange (none_ : sub.findWriterProxy a = none) : Serves a w n sub sub' := by
  rintro h ⟨proxy, found, _⟩
  rw [none_] at found
  cases found

/-- A datagram behind the watermark. -/
theorem past_of_behind {s ack : SeqNo} (behind : ¬ 0 ≤ seqDelta s ack) : Past s ack := by
  have far := (seqDelta_neg _ _).mp (not_le.mp behind)
  have ne : s ≠ ack := by
    rintro rfl
    rw [steps_self] at far
    omega
  have turn := steps_swap ne
  have less := steps_lt ack s
  exact ⟨by omega, by omega⟩

/-- What the writer's own datagram does to a Subscriber that tracks it: `update_reliable_ack`, in one of two ways. -/
theorem updateReliableAck_own (h : Following a sub) (found : sub.findWriterProxy a = some proxy) (close : Close proxy.track.ackSeqNo seqNo)
    (span : Nat) : ∃ new, Sets sub a new (sub.updateReliableAck a seqNo span).1 ∧ new.reorderCursor = proxy.reorderCursor ∧
      ((Onward 0 proxy.track new.track ∧ seqNo ≠ proxy.track.ackSeqNo) ∨
        ∃ k < 2 ^ 22, Onward (steps proxy.track.ackSeqNo seqNo + 1 + k) proxy.track new.track ∧ steps proxy.track.ackSeqNo seqNo < 2 ^ 29 ∧
          (sub.updateReliableAck a seqNo span).2 = true) := by
  have narrow : proxy.track.words < 2 ^ 16 := by
    rw [(h.tracked proxy found).1]
    exact h.tracking.2
  have name := find_writer found
  rw [updateReliableAck_known found]
  refine ⟨_, sets_setProxy found name, rfl, ?_⟩
  rcases onward_update narrow close span with still | ⟨⟨k, few, moved⟩, near, new⟩
  · exact .inl still
  · exact .inr ⟨k, few, moved, near, new⟩

theorem Following.data_known (h : Following a sub) (own : ctx.writer = a) (found : sub.findWriterProxy a = some proxy)
    (close : Close proxy.track.ackSeqNo ctx.seqNo) (span : Nat) : Advances a sub (sub.deliverDataToSubscriber ctx span true) := by
  subst own
  have after := (hands_deliverDataToSubscriber h.bounded ctx span).bounded
  have still := (hands_updateReliableAck h.bounded ctx.writer ctx.seqNo span).bounded
  have delivered := updateReliableAck_delivered sub ctx.writer ctx.seqNo span
  obtain ⟨new, sets, cursor, ways⟩ := updateReliableAck_own h found close span
  have name : new.writer = proxy.writer := (find_writer sets.found).trans (find_writer found).symm
  unfold deliverDataToSubscriber at after ⊢
  rw [if_neg (by decide)] at after ⊢
  dsimp only at after ⊢
  generalize sub.updateReliableAck ctx.writer ctx.seqNo span = updated at still delivered sets ways after ⊢
  rw [sets.found] at after ⊢
  dsimp only at after ⊢
  have hand : ¬ 0 ≤ seqDelta ctx.seqNo new.track.ackSeqNo →
      ∀ other, some ctx = some other → other.writer = ctx.writer ∧ Past other.seqNo new.track.ackSeqNo := by
    intro behind other here
    cases here
    exact ⟨rfl, past_of_behind behind⟩
  rcases ways with ⟨unmoved, _⟩ | ⟨k, few, moved, near, isNew⟩
  · have steady : Steady ctx.writer 0 sub updated.1 := sets.steady delivered found fun _ => ⟨unmoved, cursor, name⟩
    split
    · exact steady.advances h still
    · split
      · rename_i dup ahead
        rw [if_neg dup, if_pos ahead] at after
        have known : ctx.writer = ctx.writer → updated.1.findWriterProxy ctx.writer ≠ none := by
          intro _ none_
          rw [sets.found] at none_
          cases none_
        exact (steady.next (steady_holdForReorder still known)).advances h after
      · rename_i behind
        exact h.drained found sets delivered still unmoved cursor (by omega) (hand behind)
  · rw [if_neg (by rw [isNew]; decide)]
    have behind : ¬ 0 ≤ seqDelta ctx.seqNo new.track.ackSeqNo := by
      rw [seqDelta_nonneg, moved.ack, Nat.add_assoc, plus_add, plus_steps]
      have on : steps ctx.seqNo (plus ctx.seqNo (1 + k)) = 1 + k := steps_plus _ (by omega)
      have ne : ctx.seqNo ≠ plus ctx.seqNo (1 + k) := by
        intro same
        rw [← same, steps_self] at on
        omega
      have := steps_swap ne
      omega
    rw [if_neg behind]
    exact h.drained found sets delivered still moved cursor (by omega) (hand behind)

/-! ## The first contact -/

/-- A writer just met: nothing of it waits in the scratch. -/
theorem following_met (bounded : sub.Bounded) (tracking : 0 < sub.words ∧ sub.words < 2 ^ 16) (fresh : sub.findWriterProxy a = none)
    (idle : ∀ fast, sub.fast = some fast → fast.writer ≠ a) (met : Met sub a seqNo proxy) :
    Following a (sub.firstContact a seqNo) ∧ (sub.firstContact a seqNo).findWriterProxy a = some proxy ∧
      Close proxy.track.ackSeqNo seqNo := by
  have same := sameRing_firstContact sub a seqNo
  have name := met.name
  have found : (sub.firstContact a seqNo).findWriterProxy a = some proxy := by
    rw [met.table]
    subst name
    exact (find_append fresh).1
  refine ⟨?_, found, .inl ?_⟩
  · apply following_level (same.bounded bounded) _ found (met.words.trans same.words.symm) met.level
    · rw [same.fast]
      exact idle
    · rw [same.words]
      exact tracking
  · have near := met.near
    have bits : proxy.track.windowBits < 2 ^ 22 := by
      rw [windowBits_eq, met.words]
      omega
    omega

/-- The table is full. -/
theorem updateReliableAck_full (fresh : sub.findWriterProxy a = none) (full : ¬ sub.writers.length < sub.peers) (seqNo : SeqNo) (span : Nat) :
    sub.updateReliableAck a seqNo span = (sub, true) := by
  have stays : sub.firstContact a seqNo = sub := by
    unfold firstContact
    rw [if_pos (.inr (not_lt.mp full))]
  unfold updateReliableAck
  rw [stays]
  dsimp only
  rw [fresh]

theorem Following.data_strange (h : Following a sub) (own : ctx.writer = a) (fresh : sub.findWriterProxy a = none) (span : Nat) :
    Advances a sub (sub.deliverDataToSubscriber ctx span true) := by
  by_cases room : sub.writers.length < sub.peers
  · obtain ⟨proxy, met⟩ := firstContact_spec h.bounded.counted h.tracking fresh room ctx.seqNo
    obtain ⟨follows, found, close⟩ := following_met h.bounded h.tracking fresh (h.free fresh).2 met
    have known := follows.data_known own found close span
    subst own
    rw [deliverData_firstContact (by rw [found]; rfl)]
    exact ⟨known.following, 0, by omega, fun w => serves_strange fresh⟩
  · -- the sample goes out of turn
    have direct : sub.deliverDataToSubscriber ctx span true = { sub with delivered := sub.delivered ++ [ctx.sample] } := by
      unfold deliverDataToSubscriber
      rw [if_neg (by decide), own, updateReliableAck_full fresh room]
      dsimp only
      rw [if_neg (by decide), fresh]
    have bounded := (hands_deliverDataToSubscriber h.bounded ctx span).bounded
    rw [direct] at bounded ⊢
    refine ⟨⟨bounded, h.tracking, ?_, ?_, fun _ => h.free fresh⟩, 0, by omega, fun w => serves_strange fresh⟩
    · intro proxy found
      change sub.findWriterProxy a = some proxy at found
      rw [fresh] at found
      cases found
    · intro proxy fast found
      change sub.findWriterProxy a = some proxy at found
      rw [fresh] at found
      cases found

/-! ## HEARTBEATs -/

theorem steady_heardHeartbeat_other (ne : a ≠ writer) (first last : SeqNo) : Steady a 0 sub (sub.heardHeartbeat writer first last) := by
  refine (sameRing_heardHeartbeat sub writer first last).steady_find (heardHeartbeat_delivered sub writer first last) ?_
  unfold heardHeartbeat
  split
  · rename_i old found
    have name := find_writer found
    exact find_setProxy_ne name ne
  · rename_i fresh
    split
    · rfl
    · exact (find_append fresh).2 a ne

theorem steady_heartbeat_other (bounded : sub.Bounded) (ne : a ≠ writer) (first last : SeqNo) (isFinal : Bool) (skips : List AcknackSkip) :
    Steady a 0 sub (sub.informSubscriberOfHeartbeat writer first last isFinal skips) := by
  have hears : Steady a 0 sub (sub.heardHeartbeat writer first last) := steady_heardHeartbeat_other ne first last
  have still := (hands_heardHeartbeat bounded writer first last).bounded
  unfold informSubscriberOfHeartbeat drainReorder
  generalize sub.heardHeartbeat writer first last = heard at hears still ⊢
  have drains : Steady a 0 heard (heard.drainReorderWith writer none) := steady_drain still (by simp) ne
  exact (hears.next drains).next (steady_mapTrack (fun track => onward_noteAnnounced track last isFinal skips) writer)

theorem Following.heartbeat_known (h : Following a sub) (found : sub.findWriterProxy a = some proxy) {first last : SeqNo}
    (closeFirst : Close proxy.track.ackSeqNo first) (closeLast : Close proxy.track.ackSeqNo last) (isFinal : Bool)
    (skips : List AcknackSkip) : Advances a sub (sub.informSubscriberOfHeartbeat a first last isFinal skips) := by
  have still := (hands_heardHeartbeat h.bounded a first last).bounded
  have after := (hands_informSubscriberOfHeartbeat h.bounded a first last isFinal skips).bounded
  have delivered := heardHeartbeat_delivered sub a first last
  have narrow : proxy.track.words < 2 ^ 16 := by
    rw [(h.tracked proxy found).1]
    exact h.tracking.2
  have name := find_writer found
  have heard : sub.heardHeartbeat a first last =
      sub.setProxy { proxy with track := (proxy.track.advancePastUnavailable first).jumpToAnnounced last } := by
    unfold heardHeartbeat
    rw [found]
  have sets : Sets sub a { proxy with track := (proxy.track.advancePastUnavailable first).jumpToAnnounced last }
      (sub.heardHeartbeat a first last) := by
    rw [heard]
    exact sets_setProxy found name
  obtain ⟨k, few, onward⟩ := onward_heard narrow closeFirst closeLast
  have drained : Advances a sub ((sub.heardHeartbeat a first last).drainReorderWith a none) :=
    h.drained found sets delivered still onward rfl few (by simp)
  exact drained.next (steady_mapTrack (fun track => onward_noteAnnounced track last isFinal skips) a) after

/-- A walk that finds nothing. -/
theorem drainReorderWalk_bare (bare : ∀ s, sub.heldAt writer s = none) (ack : SeqNo) (rounds left : Nat) (seqNo : SeqNo) :
    drainReorderWalk writer ack rounds left seqNo none sub = ⟨sub, none, ack⟩ := by
  induction rounds generalizing left seqNo with
  | zero => rfl
  | succ rounds ih =>
    unfold drainReorderWalk
    split
    · rfl
    · have past : sub.drainRingAt writer seqNo ack = some (sub, 1) := by
        unfold drainRingAt
        rw [bare]
      rw [past]
      exact ih (left - 1) (plus seqNo 1)

/-- A writer first heard of by a HEARTBEAT: the drain finds nothing, and leaves the cursor at the watermark. -/
theorem Following.heartbeat_strange (h : Following a sub) (fresh : sub.findWriterProxy a = none) (first last : SeqNo) (isFinal : Bool)
    (skips : List AcknackSkip) : Advances a sub (sub.informSubscriberOfHeartbeat a first last isFinal skips) := by
  have after := (hands_informSubscriberOfHeartbeat h.bounded a first last isFinal skips).bounded
  have noted : ∀ left : Subscriber, Steady a 0 left (left.mapTrack a fun track => (track.noteAnnounced last isFinal skips).1) :=
    fun left => steady_mapTrack (fun track => onward_noteAnnounced track last isFinal skips) a
  unfold informSubscriberOfHeartbeat drainReorder at after ⊢
  by_cases full : sub.peers ≤ sub.writers.length
  · have heard : sub.heardHeartbeat a first last = sub := by
      unfold heardHeartbeat
      rw [fresh]
      exact if_pos full
    rw [heard] at after ⊢
    have spills : Steady a 0 sub (sub.fragFastSpillIfOvertaken a) := steady_fragFastSpillIfOvertaken h.bounded a
    have drains : sub.drainReorderWith a none = sub.fragFastSpillIfOvertaken a := by
      unfold drainReorderWith
      dsimp only
      rw [spills.strange fresh]
    rw [drains] at after ⊢
    exact (spills.next (noted _)).advances h after
  · have heard : sub.heardHeartbeat a first last = { sub with writers := sub.writers ++ [reorderPlacePivot sub.reorderSlots
        { sub.newProxy a with
          track := ((sub.newProxy a).track.moveAck (if sub.durable then first else last + 1)).clearReceived }
        (((sub.newProxy a).track.moveAck (if sub.durable then first else last + 1)).clearReceived).ackSeqNo] } := by
      unfold heardHeartbeat
      rw [fresh]
      exact if_neg full
    have same := sameRing_heardHeartbeat sub a first last
    obtain ⟨met, found, words⟩ : ∃ met, (sub.heardHeartbeat a first last).findWriterProxy a = some met ∧ met.track.words = sub.words := by
      rw [heard]
      exact ⟨_, (find_append fresh).1, rfl⟩
    have still := same.bounded h.bounded
    generalize sub.heardHeartbeat a first last = left at same found still after ⊢
    obtain ⟨none_, idle⟩ := h.free fresh
    rw [← same.ring] at none_
    rw [← same.fast] at idle
    -- nothing is there to drain
    have bare : ∀ s, left.heldAt a s = none := by
      intro s
      cases here : left.heldAt a s with
      | none => rfl
      | some held => exact absurd (heldAt_some here).2.2 (none_ _ _ (heldAt_some here).1)
    have level : left.fragFastSpillIfOvertaken a = left := by
      unfold fragFastSpillIfOvertaken
      rw [found]
      split
      · rename_i fast _ busy _
        rw [if_neg fun both => idle fast busy both.1]
      · rfl
    have drains : left.drainReorderWith a none = left.putCursor a met.track.ackSeqNo := by
      unfold drainReorderWith
      rw [level]
      dsimp only
      rw [found]
      dsimp only
      rw [drainReorderWalk_bare bare, ite_self]
    rw [drains] at after ⊢
    have sets := sets_putCursor found met.track.ackSeqNo
    have put := (hands_putCursor still a met.track.ackSeqNo).bounded
    have follows : Following a (left.putCursor a met.track.ackSeqNo) := by
      apply following_level put _ sets.found (words.trans (same.words.symm.trans sets.same.words.symm)) rfl
      · rw [sets.same.fast]
        exact idle
      · rw [sets.same.words, same.words]
        exact h.tracking
    exact ⟨(noted _).following follows after, 0, by omega, fun w => serves_strange fresh⟩

/-! ## A writer that goes -/

theorem steady_forget_other (bounded : sub.Bounded) (ne : a ≠ writer) : Steady a 0 sub (sub.forgetWriter writer) := by
  cases found : sub.findWriterProxy writer with
  | none =>
    unfold forgetWriter
    rw [found]
    exact Steady.refl a sub
  | some old =>
    have forgotten := forgotten_forgetWriter bounded.counted found
    have delivered := forgetWriter_delivered sub writer
    generalize sub.forgetWriter writer = left at forgotten delivered ⊢
    have find := forgotten.others a ne
    refine ⟨forgotten.words, ?_, ?_, ?_, ?_, ?_⟩
    · intro proxy found
      refine ⟨proxy, find.trans found, Onward.still rfl rfl rfl, ?_⟩
      -- the scratch of the writer forgotten was none of this one's
      have name := find_writer found
      unfold drainStart
      cases busy : sub.fast with
      | none =>
        cases busy' : left.fast with
        | none => rfl
        | some fast =>
          rw [((forgotten.fast fast).mp busy').1] at busy
          cases busy
      | some fast =>
        dsimp only
        by_cases own : fast.writer = writer
        · have differ : ¬ fast.writer = proxy.writer := by
            rw [own, name]
            exact Ne.symm ne
          rw [if_neg differ]
          cases busy' : left.fast with
          | none => rfl
          | some other =>
            obtain ⟨same, away⟩ := (forgotten.fast other).mp busy'
            rw [busy] at same
            cases same
            exact absurd own away
        · rw [(forgotten.fast fast).mpr ⟨busy, own⟩]
    · rw [find]
      exact id
    · intro fast busy _
      exact ((forgotten.fast fast).mp busy).1
    · intro _ free
      exact ⟨fun i held here => free.1 i held ((forgotten.ring i held).mp here).1,
        fun fast busy => free.2 fast ((forgotten.fast fast).mp busy).1⟩
    · rintro w h ⟨proxy, there, rest⟩
      exact ⟨h, ⟨proxy, find.trans there, rest⟩, Goes.nothing (delivered.trans (List.append_nil _).symm) (by simp) (Nat.le_refl h)⟩

theorem Following.forget (h : Following a sub) : Following a (sub.forgetWriter a) := by
  have bounded := (hands_forgetWriter h.bounded a).bounded
  cases found : sub.findWriterProxy a with
  | none =>
    have same : sub.forgetWriter a = sub := by
      unfold forgetWriter
      rw [found]
      rfl
    rw [same]
    exact h
  | some old =>
    have forgotten := forgotten_forgetWriter h.bounded.counted found
    generalize sub.forgetWriter a = left at forgotten bounded ⊢
    refine ⟨bounded, by rw [forgotten.words]; exact h.tracking, ?_, ?_, ?_⟩
    · intro proxy there
      rw [forgotten.gone] at there
      cases there
    · intro proxy fast there
      rw [forgotten.gone] at there
      cases there
    · intro _
      exact ⟨fun i held here => ((forgotten.ring i held).mp here).2, fun fast busy => ((forgotten.fast fast).mp busy).2⟩

/-! ## Fragments -/

/-- The scratch changes, and neither before nor after it has a sample of the writer. -/
theorem steady_scratch {scratch : Option FastSample} (before : ∀ fast, sub.fast = some fast → fast.writer ≠ a)
    (after : ∀ fast, scratch = some fast → fast.writer ≠ a) : Steady a 0 sub { sub with fast := scratch } := by
  refine ⟨rfl, ?_, id, ?_, ?_, fun w => serves_table rfl rfl⟩
  · intro proxy found
    have found' : { sub with fast := scratch }.findWriterProxy a = some proxy := found
    refine ⟨proxy, found', Onward.still rfl rfl rfl, ?_⟩
    rw [drainStart_cursor found before, drainStart_cursor found' after]
  · intro fast busy own
    exact absurd own (after fast busy)
  · intro _ free
    exact ⟨free.1, after⟩

/-- A fragment taken into the scratch: the sample there has one more, or is whole and handed over. -/
theorem fragFastTake_cases {busy : Bool} (takes : sub.fragFastTake proxy ctx busy = some sub') :
    ∃ fast, sub.fastSampleFor ctx busy = some fast ∧ ctx.seqNo = proxy.track.ackSeqNo ∧
      (fast.placed + 1 < fast.count ∧ sub' = { (sub.updateReliableAck ctx.writer ctx.seqNo 1).1 with fast := some (fast.take ctx) } ∨
      ∃ (sample : Delivery) (left : Subscriber), sample.writer = ctx.writer ∧ sample.seqNo = fast.seqNo ∧
        left = { (sub.updateReliableAck ctx.writer ctx.seqNo 1).1 with fast := none }.deliverInOrder sample ∧
        (left.findWriterProxy ctx.writer = none ∧ sub' = left ∨ ∃ last, left.findWriterProxy ctx.writer = some last ∧
          sub' = left.setProxy { last with reorderCursor := last.track.ackSeqNo })) := by
  unfold fragFastTake at takes
  split at takes
  · cases takes
  next inTurn =>
  rw [not_or, not_not] at inTurn
  split at takes
  · cases takes
  next fast sample =>
  split at takes
  · cases takes
  dsimp only at takes
  refine ⟨fast, sample, inTurn.1, ?_⟩
  split at takes
  next more =>
    cases takes
    exact .inl ⟨more, rfl⟩
  · refine .inr ⟨⟨ctx.writer, (fast.take ctx).seqNo, (fast.take ctx).timestamp, (fast.take ctx).bytes, (fast.take ctx).isNative,
      (fast.take ctx).viaDataPort⟩, _, rfl, rfl, rfl, ?_⟩
    split at takes
    next none_ =>
      cases takes
      exact .inl ⟨none_, rfl⟩
    next last found =>
      cases takes
      exact .inr ⟨last, found, rfl⟩

theorem steady_fragFastTake_other {busy : Bool} (bounded : sub.Bounded) (ne : a ≠ ctx.writer)
    (takes : sub.fragFastTake proxy ctx busy = some sub') : Steady a 0 sub sub' := by
  obtain ⟨fast, sample, _, ways⟩ := fragFastTake_cases takes
  obtain ⟨_, own, _, old⟩ := fastSampleFor_spec bounded.counted sample
  have updates : Steady a 0 sub (sub.updateReliableAck ctx.writer ctx.seqNo 1).1 := steady_updateReliableAck_other ne ctx.seqNo 1
  have same := sameRing_updateReliableAck sub ctx.writer ctx.seqNo 1
  generalize (sub.updateReliableAck ctx.writer ctx.seqNo 1).1 = updated at updates same ways
  have before : ∀ scratch, updated.fast = some scratch → scratch.writer ≠ a := by
    intro scratch there
    rw [same.fast] at there
    rcases old with ⟨idle, _⟩ | here
    · rw [idle] at there
      cases there
    · rw [here] at there
      cases there
      rw [own]
      exact Ne.symm ne
  rcases ways with ⟨_, rfl⟩ | ⟨sample, left, writer, _, given, ends⟩
  · apply updates.next
    apply steady_scratch before
    intro scratch there
    cases there
    change fast.writer ≠ a
    rw [own]
    exact Ne.symm ne
  · have bare : Steady a 0 updated { updated with fast := none } := steady_scratch before (by simp)
    have gives : Steady a 0 { updated with fast := none } left := by
      rw [given]
      refine shed_steady (shed_deliverInOrder _ sample) (fun w => serves_deliverInOrder ?_) (by rw [writer]; exact ne)
      exact fun same => absurd (same.symm.trans writer) ne
    have reached := (updates.next bare).next gives
    rcases ends with ⟨_, rfl⟩ | ⟨last, there, rfl⟩
    · exact reached
    · have name := find_writer there
      have sets := @sets_setProxy _ ctx.writer last there { last with reorderCursor := last.track.ackSeqNo } name
      exact reached.next (sets.steady rfl there fun same => absurd same.symm ne)

theorem steady_reorderStoreFragment (bounded : sub.Bounded) (known : ctx.writer = a → sub.findWriterProxy a ≠ none) :
    Steady a 0 sub (sub.reorderStoreFragment ctx).1 := by
  have spills : Steady a 0 sub sub.fragFastSpill := steady_fragFastSpill bounded
  unfold reorderStoreFragment
  dsimp only
  generalize sub.fragFastSpill = spilled at spills ⊢
  split
  · exact spills
  · have follows : Steady a 0 spilled (spilled.reorderFollowPivot ctx.writer ctx.seqNo) := steady_reorderFollowPivot ctx.writer ctx.seqNo
    have reached := spills.next follows
    generalize spilled.reorderFollowPivot ctx.writer ctx.seqNo = followed at reached ⊢
    split
    · exact reached
    · exact reached.occupy known _

theorem steady_overflow : Steady a 0 sub { sub with reorderOverflow := sub.reorderOverflow + 1 } :=
  SameRing.steady_find ⟨rfl, rfl, rfl, rfl, rfl, rfl, rfl, rfl, rfl⟩ rfl rfl

theorem hands_stored (bounded : sub.Bounded) (few : ctx.fragCount ≤ 64) : (sub.reorderStoreFragment ctx).1.Bounded := by
  rcases hands_reorderStoreFragment bounded few with ⟨_, hands⟩ | ⟨_, hands, _⟩
  · exact hands.bounded
  · exact hands.bounded

theorem steady_store_other (bounded : sub.Bounded) (few : ctx.fragCount ≤ 64) (ne : a ≠ ctx.writer) :
    Steady a 0 sub (sub.storeReliableFragment ctx) := by
  have stores : Steady a 0 sub (sub.reorderStoreFragment ctx).1 := steady_reorderStoreFragment bounded fun own => absurd own.symm ne
  have still := hands_stored bounded few
  unfold storeReliableFragment
  dsimp only
  generalize sub.reorderStoreFragment ctx = stored at stores still ⊢
  split
  · exact stores.next steady_overflow
  · have updates : Steady a 0 stored.1 (stored.1.updateReliableAck ctx.writer ctx.seqNo 1).1 :=
      steady_updateReliableAck_other ne ctx.seqNo 1
    have still' := (hands_updateReliableAck still ctx.writer ctx.seqNo 1).bounded
    have reached := stores.next updates
    split
    · exact reached.next (steady_release _)
    · exact reached.next (steady_drain still' (by simp) ne)

/-- The writer's own fragment, once it is stored: recorded and drained, or given back. -/
theorem Following.recorded (h : Following a sub) (own : ctx.writer = a) (found : sub.findWriterProxy a = some proxy)
    (close : Close proxy.track.ackSeqNo ctx.seqNo) (slot : Nat) {sub' : Subscriber} (bounded : sub'.Bounded)
    (result : sub' = if (sub.updateReliableAck ctx.writer ctx.seqNo 1).2 = false ∨
        ((sub.updateReliableAck ctx.writer ctx.seqNo 1).1.findWriterProxy ctx.writer).isNone then
      (sub.updateReliableAck ctx.writer ctx.seqNo 1).1.reorderRelease slot
      else (sub.updateReliableAck ctx.writer ctx.seqNo 1).1.drainReorder ctx.writer) : Advances a sub sub' := by
  subst own
  have still := (hands_updateReliableAck h.bounded ctx.writer ctx.seqNo 1).bounded
  have delivered := updateReliableAck_delivered sub ctx.writer ctx.seqNo 1
  obtain ⟨new, sets, cursor, ways⟩ := updateReliableAck_own h found close 1
  have name : new.writer = proxy.writer := (find_writer sets.found).trans (find_writer found).symm
  generalize sub.updateReliableAck ctx.writer ctx.seqNo 1 = updated at still delivered sets ways result
  rw [sets.found] at result
  subst result
  rcases ways with ⟨unmoved, _⟩ | ⟨k, few, moved, near, isNew⟩
  · have steady : Steady ctx.writer 0 sub updated.1 := sets.steady delivered found fun _ => ⟨unmoved, cursor, name⟩
    split at bounded
    · rw [if_pos ‹_›]
      exact (steady.next (steady_release slot)).advances h bounded
    · rw [if_neg ‹_›]
      exact h.drained found sets delivered still unmoved cursor (by omega) (by simp)
  · have kept : ¬ (updated.2 = false ∨ (some new).isNone = true) := by
      rw [isNew]
      simp
    rw [if_neg kept]
    exact h.drained found sets delivered still moved cursor (by omega) (by simp)

theorem Following.store_known (h : Following a sub) (own : ctx.writer = a) (few : ctx.fragCount ≤ 64)
    (found : sub.findWriterProxy a = some proxy) (close : Close proxy.track.ackSeqNo ctx.seqNo) :
    Advances a sub (sub.storeReliableFragment ctx) := by
  have known : ctx.writer = a → sub.findWriterProxy a ≠ none := by
    intro _ none_
    rw [found] at none_
    cases none_
  have stores : Steady a 0 sub (sub.reorderStoreFragment ctx).1 := steady_reorderStoreFragment h.bounded known
  have still := hands_stored h.bounded few
  have after := (hands_storeReliableFragment h.bounded few).bounded
  unfold storeReliableFragment at after ⊢
  dsimp only at after ⊢
  generalize sub.reorderStoreFragment ctx = stored at stores still after ⊢
  by_cases refused : stored.2 = false
  · rw [if_pos refused] at after ⊢
    exact (stores.next steady_overflow).advances h after
  · rw [if_neg refused] at after ⊢
    obtain ⟨held, heldFound, onward, _⟩ := stores.track proxy found
    have close' : Close held.track.ackSeqNo ctx.seqNo := by
      rw [onward.ack, plus_zero]
      exact close
    exact Advances.after stores ((stores.following h still).recorded own heldFound close' _ after rfl)

/-- The first fragment of a writer not known, stored before its writer is met. -/
theorem Following.store_strange (h : Following a sub) (own : ctx.writer = a) (few : ctx.fragCount ≤ 64)
    (fresh : sub.findWriterProxy a = none) : Advances a sub (sub.storeReliableFragment ctx) := by
  subst own
  have spills : Steady ctx.writer 0 sub sub.fragFastSpill := steady_fragFastSpill h.bounded
  have idle := (hands_fragFastSpill h.bounded).2
  have after := (hands_storeReliableFragment h.bounded few).bounded
  have still := hands_stored h.bounded few
  unfold storeReliableFragment at after ⊢
  unfold reorderStoreFragment at after still ⊢
  dsimp only at after still ⊢
  generalize sub.fragFastSpill = spilled at spills idle after still ⊢
  by_cases large : spilled.reorderPayloadCapacity < ctx.payload.length
  · rw [if_pos large] at after ⊢
    rw [if_pos rfl] at after ⊢
    exact (spills.next steady_overflow).advances h after
  · rw [if_neg large] at after still ⊢
    have follows : Steady ctx.writer 0 spilled (spilled.reorderFollowPivot ctx.writer ctx.seqNo) :=
      steady_reorderFollowPivot ctx.writer ctx.seqNo
    have reached := spills.next follows
    have idle' : (spilled.reorderFollowPivot ctx.writer ctx.seqNo).fast = none :=
      (sameRing_reorderFollowPivot spilled ctx.writer ctx.seqNo).fast.trans idle
    generalize spilled.reorderFollowPivot ctx.writer ctx.seqNo = followed at reached idle' after still ⊢
    -- where the fragment is put, and what is given back when its writer finds no place
    obtain ⟨slot, slot_⟩ : ∃ slot, followed.reorderWriterSlot ctx.writer ctx.seqNo = slot := ⟨_, rfl⟩
    have back : (followed.occupy slot ctx).reorderWriterSlot ctx.writer ctx.seqNo = slot := slot_
    rw [slot_] at after still ⊢
    by_cases taken : (followed.ring slot).isSome
    · rw [if_pos taken] at after ⊢
      rw [if_pos rfl] at after ⊢
      exact (reached.next steady_overflow).advances h after
    · rw [if_neg taken] at after still ⊢
      rw [if_neg (by simp)] at after ⊢
      dsimp only at after still ⊢
      rw [back] at after ⊢
      have gone : (followed.occupy slot ctx).findWriterProxy ctx.writer = none := reached.strange fresh
      have tracking : 0 < (followed.occupy slot ctx).words ∧ (followed.occupy slot ctx).words < 2 ^ 16 := by
        change 0 < followed.words ∧ followed.words < 2 ^ 16
        rw [reached.words]
        exact h.tracking
      by_cases room : (followed.occupy slot ctx).writers.length < (followed.occupy slot ctx).peers
      · obtain ⟨proxy, met⟩ := firstContact_spec still.counted tracking gone room ctx.seqNo
        have none_ : ∀ fast, (followed.occupy slot ctx).fast = some fast → fast.writer ≠ ctx.writer := by
          intro fast busy
          change followed.fast = some fast at busy
          rw [idle'] at busy
          cases busy
        obtain ⟨known, found, close⟩ := following_met still tracking gone none_ met
        have drained := known.recorded rfl found close _ after (by rw [updateReliableAck_known found, updateReliableAck_met rfl found])
        exact ⟨drained.following, 0, by omega, fun w => serves_strange fresh⟩
      · -- the table is full: the slot is given back
        rw [updateReliableAck_full gone room] at after ⊢
        dsimp only at after ⊢
        rw [gone] at after ⊢
        rw [if_pos (.inr rfl)] at after ⊢
        have free : followed.ring slot = none := by simpa using taken
        rw [release_occupied free] at after ⊢
        exact reached.advances h after

/-- A fragment of the writer taken into the scratch, or completing the sample there. -/
theorem Following.fastTake_own {busy : Bool} (h : Following a sub) (own : ctx.writer = a) (few : ctx.fragCount ≤ 64)
    (found : sub.findWriterProxy a = some proxy) (takes : sub.fragFastTake proxy ctx busy = some sub') : Advances a sub sub' := by
  subst own
  have after := (takes_fragFastTake h.bounded few takes).bounded
  obtain ⟨fast, sample, inTurn, taken⟩ := fragFastTake_cases takes
  obtain ⟨_, own, count, old⟩ := fastSampleFor_spec h.bounded.counted sample
  have close : Close proxy.track.ackSeqNo ctx.seqNo := by
    rw [inTurn]
    exact .inl (by rw [steps_self]; omega)
  have delivered := updateReliableAck_delivered sub ctx.writer ctx.seqNo 1
  obtain ⟨new, sets, cursor, ways⟩ := updateReliableAck_own h found close 1
  -- the fragment is the one at the watermark, so that moves on
  obtain ⟨n, some_, short, onward⟩ : ∃ n, 0 < n ∧ n ≤ 2 ^ 22 ∧ Onward n proxy.track new.track := by
    rcases ways with ⟨_, other⟩ | ⟨k, short, moved, _⟩
    · exact absurd inTurn other
    · rw [inTurn, steps_self] at moved
      exact ⟨_, by omega, by omega, moved⟩
  have place : fast.placed < 64 ∧ steps fast.seqNo proxy.track.ackSeqNo ≤ fast.placed * 2 ^ 23 := by
    rcases old with ⟨_, none_, start⟩ | here
    · rw [none_, start, inTurn, steps_self]
      omega
    · have less := h.taking proxy fast found here own
      have limit := h.bounded.scratch fast here
      exact ⟨by omega, less.2⟩
  have moved : steps fast.seqNo new.track.ackSeqNo = steps fast.seqNo proxy.track.ackSeqNo + n := by
    rw [onward.ack]
    exact steps_plus_of (by omega)
  obtain ⟨words, _⟩ := h.tracked proxy found
  generalize (sub.updateReliableAck ctx.writer ctx.seqNo 1).1 = updated at delivered sets taken
  have recorded : ∀ w, Serves ctx.writer w n sub updated := fun w => serves_onward found sets.found onward delivered
  rcases taken with ⟨more, rfl⟩ | ⟨sample, left, writer, number, given, ends⟩
  · have still : Onward 0 new.track new.track := Onward.still rfl rfl rfl
    have found' : { updated with fast := some (fast.take ctx) }.findWriterProxy ctx.writer = some new := sets.found
    have serves : ∀ w, Serves ctx.writer w n sub { updated with fast := some (fast.take ctx) } :=
      fun w => serves_onward found found' onward delivered
    have next : fast.placed + 1 < fast.count := more
    have within : steps fast.seqNo new.track.ackSeqNo ≤ (fast.placed + 1) * 2 ^ 23 := by omega
    have limit : fast.count ≤ 64 := by omega
    refine ⟨following_tracked after (by change 0 < updated.words ∧ _; rw [sets.same.words]; exact h.tracking) found' ?_ ?_ ?_, n, by omega, serves⟩
    · change new.track.words = updated.words
      rw [onward.words, words, sets.same.words]
    · have start : drainStart { updated with fast := some (fast.take ctx) } new = fast.seqNo := by
        unfold drainStart
        change (if fast.writer = new.writer then fast.seqNo else _) = _
        rw [find_writer sets.found, if_pos own]
      rw [start]
      omega
    · intro scratch busy _
      cases busy
      exact ⟨more, within⟩
  · have shed : Shed ctx.writer { updated with fast := none } left := by
      rw [given, ← writer]
      exact shed_deliverInOrder _ sample
    have found' : { updated with fast := none }.findWriterProxy ctx.writer = some new := sets.found
    obtain ⟨high, givenFound⟩ := shed.own new found'
    have served : ∀ w, proxy.track.ackSeqNo = wrap w → Serves ctx.writer w n sub left := by
      intro w at_
      have bare : Serves ctx.writer (w + n) 0 updated { updated with fast := none } := serves_table rfl rfl
      have there : new.track.ackSeqNo = wrap (w + n) := by rw [onward.ack, at_, wrap_add]
      have hands : Serves ctx.writer (w + n) 0 { updated with fast := none } left := by
        rw [given]
        apply serves_deliverInOrder
        intro _
        rw [number, ← there]
        exact ⟨by omega, by omega⟩
      have whole := (recorded w).trans (bare.next hands)
      rwa [Nat.add_zero] at whole
    rw [givenFound] at ends
    obtain ⟨gone, _⟩ | ⟨last, here, rfl⟩ := ends
    · cases gone
    cases here
    have name : new.writer = ctx.writer := find_writer sets.found
    dsimp only at after ⊢
    obtain ⟨closed, closed_⟩ : ∃ closed : TrackedWriter, closed =
        ⟨new.writer, { new.track with highestDelivered := high }, new.track.ackSeqNo, new.reorderPivot, new.reorderBase⟩ := ⟨_, rfl⟩
    have level : closed.reorderCursor = closed.track.ackSeqNo := by rw [closed_]
    have closedWords : closed.track.words = new.track.words := by rw [closed_]
    have still : Onward 0 { new.track with highestDelivered := high } closed.track := by
      rw [closed_]
      exact Onward.still rfl rfl rfl
    have put : Sets left ctx.writer closed (left.setProxy closed) := sets_setProxy givenFound (by rw [closed_]; exact name)
    rw [← closed_] at after ⊢
    have idle : (left.setProxy closed).fast = none := by rw [put.same.fast, shed.fast]
    refine ⟨following_level after ?_ put.found ?_ level ?_, n, by omega, ?_⟩
    · rw [put.same.words, shed.words]
      change 0 < updated.words ∧ updated.words < 2 ^ 16
      rw [sets.same.words]
      exact h.tracking
    · rw [closedWords, put.same.words, shed.words, onward.words, words]
      exact sets.same.words.symm
    · intro scratch busy
      rw [idle] at busy
      cases busy
    · intro w h' stands
      have at_ : proxy.track.ackSeqNo = wrap w := by
        obtain ⟨old, there, at_, _⟩ := stands
        rw [found] at there
        cases there
        exact at_
      have puts : Serves ctx.writer (w + n) 0 left (left.setProxy closed) := serves_onward givenFound put.found still rfl
      have whole := (served w at_).trans puts
      rw [Nat.add_zero] at whole
      exact whole h' stands

/-! ## Any fragment -/

theorem steady_accept_other {busy : Bool} (bounded : sub.Bounded) (few : ctx.fragCount ≤ 64) (ne : a ≠ ctx.writer) :
    Steady a 0 sub (sub.acceptReliableFragment ctx busy) := by
  unfold acceptReliableFragment
  split
  · exact steady_store_other bounded few ne
  · dsimp only
    split
    · exact Steady.refl a sub
    · split
      next taken takes => exact steady_fragFastTake_other bounded ne takes
      · exact steady_store_other bounded few ne

theorem Following.accept {busy : Bool} (h : Following a sub) (own : ctx.writer = a) (few : ctx.fragCount ≤ 64)
    (close : ∀ proxy, sub.findWriterProxy a = some proxy → Close proxy.track.ackSeqNo ctx.seqNo) :
    Advances a sub (sub.acceptReliableFragment ctx busy) := by
  subst own
  unfold acceptReliableFragment
  cases found : sub.findWriterProxy ctx.writer with
  | none => exact h.store_strange rfl few found
  | some proxy =>
    dsimp only
    split
    · exact (Steady.refl _ sub).advances h h.bounded
    · split
      next taken takes => exact h.fastTake_own rfl few found takes
      · exact h.store_known rfl few found (close proxy found)

theorem Following.fragment {isFirst busy : Bool} (h : Following a sub)
    (close : ctx.writer = a → ∀ proxy, sub.findWriterProxy a = some proxy → Close proxy.track.ackSeqNo ctx.seqNo) :
    Advances a sub (sub.deliverUserFragment ctx isFirst busy) := by
  have after := (takes_deliverUserFragment h.bounded ctx isFirst busy).bounded
  have same : (ctx.passedOn isFirst).writer = ctx.writer ∧ (ctx.passedOn isFirst).seqNo = ctx.seqNo := by
    unfold Datagram.passedOn
    split
    · exact ⟨rfl, rfl⟩
    · exact ⟨rfl, rfl⟩
  rw [← same.1, ← same.2] at close
  have delivers : sub.deliverUserFragment ctx isFirst busy = if (ctx.passedOn isFirst).fragCount < 2 ∨
      fragMaxCount < (ctx.passedOn isFirst).fragCount ∨ (ctx.passedOn isFirst).fragCount ≤ (ctx.passedOn isFirst).fragIndex ∨
      (ctx.passedOn isFirst).payload.length = 0 then { sub with fragDropped := sub.fragDropped + 1 }
    else if isFirst = false ∧ (sub.findWriterProxy (ctx.passedOn isFirst).writer).isNone then sub
    else sub.acceptReliableFragment (ctx.passedOn isFirst) busy := rfl
  rw [delivers] at after ⊢
  generalize ctx.passedOn isFirst = part at close after ⊢
  split at after
  next bad =>
    rw [if_pos bad]
    have drops : Steady a 0 sub { sub with fragDropped := sub.fragDropped + 1 } :=
      SameRing.steady_find ⟨rfl, rfl, rfl, rfl, rfl, rfl, rfl, rfl, rfl⟩ rfl rfl
    exact drops.advances h after
  next valid =>
    rw [if_neg valid]
    unfold fragMaxCount at valid
    have few : part.fragCount ≤ 64 := by omega
    split
    · exact (Steady.refl a sub).advances h h.bounded
    · rename_i goes
      rw [if_neg goes] at after
      by_cases own : part.writer = a
      · exact h.accept own few (close own)
      · exact (steady_accept_other h.bounded few (Ne.symm own)).advances h after

/-! ## Whole runs -/

/-- What the event names of `a` lies within 2^29 of its watermark. -/
def Near (a : Writer) (sub : Subscriber) : Event → Prop
  | .data ctx _ _ => ctx.writer = a → ∀ proxy, sub.findWriterProxy a = some proxy → Close proxy.track.ackSeqNo ctx.seqNo
  | .fragment ctx _ _ => ctx.writer = a → ∀ proxy, sub.findWriterProxy a = some proxy → Close proxy.track.ackSeqNo ctx.seqNo
  | .heartbeat writer firstAvailableSeqNo lastSeqNo _ _ =>
    writer = a → ∀ proxy, sub.findWriterProxy a = some proxy →
      Close proxy.track.ackSeqNo firstAvailableSeqNo ∧ Close proxy.track.ackSeqNo lastSeqNo
  | .scratchTaken => True
  | .forget _ => True

theorem Following.advances (h : Following a sub) (event : Event) (near : sub.Near a event) (stays : event ≠ .forget a) :
    Advances a sub (sub.step event) := by
  cases event with
  | data ctx span accepted =>
    cases accepted with
    | false => exact (steady_declined ctx span).advances h (hands_declined h.bounded ctx span).bounded
    | true =>
      by_cases own : ctx.writer = a
      · cases found : sub.findWriterProxy a with
        | none => exact h.data_strange own found span
        | some proxy => exact h.data_known own found (near own proxy found) span
      · have after := (hands_deliverDataToSubscriber h.bounded ctx span).bounded
        exact (steady_data_other h.bounded (Ne.symm own) span).advances h after
  | fragment ctx isFirst busy => exact h.fragment near
  | heartbeat writer firstAvailableSeqNo lastSeqNo isFinal skips =>
    by_cases own : writer = a
    · subst own
      cases found : sub.findWriterProxy writer with
      | none => exact h.heartbeat_strange found firstAvailableSeqNo lastSeqNo isFinal skips
      | some proxy =>
        obtain ⟨first, last⟩ := near rfl proxy found
        exact h.heartbeat_known found first last isFinal skips
    · have after := (hands_informSubscriberOfHeartbeat h.bounded writer firstAvailableSeqNo lastSeqNo isFinal skips).bounded
      exact (steady_heartbeat_other h.bounded (Ne.symm own) firstAvailableSeqNo lastSeqNo isFinal skips).advances h after
  | scratchTaken => exact (steady_fragFastSpill h.bounded).advances h (hands_fragFastSpill h.bounded).1.bounded
  | forget writer =>
    have ne : a ≠ writer := by
      rintro rfl
      exact stays rfl
    exact (steady_forget_other h.bounded ne).advances h (hands_forgetWriter h.bounded writer).bounded

theorem Following.step (h : Following a sub) (event : Event) (near : sub.Near a event) : Following a (sub.step event) := by
  by_cases goes : event = .forget a
  · rw [goes]
    exact h.forget
  · exact (h.advances event near goes).following

theorem following_create (a : Writer) (opts : SubscriberOptions) : Following a (create opts) where
  bounded := by
    refine ⟨counted_create opts, ?_, ?_⟩
    · intro i held here
      cases here
    · intro fast busy
      cases busy
  tracking := opts.tracking
  tracked := by
    intro proxy found
    cases found
  taking := by
    intro proxy fast found
    cases found
  free := by
    intro _
    refine ⟨?_, ?_⟩
    · intro i held here
      cases here
    · intro fast busy
      cases busy

/-- The seq_nos of the samples of `a` handed over so far. -/
def handedOver (sub : Subscriber) (a : Writer) : List SeqNo := (sub.delivered.filter (·.writer = a)).map (·.seqNo)

/-- How far the watermark of `a` is from one state to the next. -/
def moved (a : Writer) (sub sub' : Subscriber) : Nat :=
  match sub.findWriterProxy a, sub'.findWriterProxy a with
  | some proxy, some proxy' => steps proxy.track.ackSeqNo proxy'.track.ackSeqNo
  | _, _ => 0

/-- How far the watermark of `a` goes over a run. -/
def travels (a : Writer) : Subscriber → List Event → Nat
  | _, [] => 0
  | sub, event :: rest => moved a sub (sub.step event) + travels a (sub.step event) rest

theorem Stands.moved (one : sub.Stands a w h) {h' : Nat} (two : sub'.Stands a (w + n) h') (few : n < 2 ^ 32) : moved a sub sub' = n := by
  obtain ⟨proxy, found, ack, _⟩ := one
  obtain ⟨proxy', found', ack', _⟩ := two
  unfold Subscriber.moved
  rw [found, found']
  dsimp only
  rw [ack', ack, wrap_add, steps_plus _ few]

/-- Over a run in which the writer stays, what is handed over of it lies in order, before where the watermark has come. -/
theorem Following.run {events : List Event} (h : Following a sub) (near : Run.Sound Subscriber.step (Near a) sub events)
    (stays : ∀ event ∈ events, event ≠ .forget a) : Serves a w (travels a sub events) sub (Run.after Subscriber.step sub events) := by
  induction events generalizing sub w with
  | nil => exact Serves.refl a w sub
  | cons event rest ih =>
    have goes := h.advances event near.1 (stays event (.head _))
    obtain ⟨n, few, serves⟩ := goes.serves
    intro h' stands
    obtain ⟨_, stands', _⟩ := serves w h' stands
    have far := stands.moved stands' few
    have whole := (serves w).trans (ih goes.following near.2 fun later mem => stays later (.tail _ mem))
    rw [← far] at whole
    exact whole h' stands

/-- What is handed over of `a` between the two states: seq_nos at rising distances from `high`, none further than `far`. Over less than a
whole turn none comes twice, and over less than half of one each is newer than all before it. -/
def HandedInOrder (a : Writer) (high : SeqNo) (far : Nat) (sub sub' : Subscriber) : Prop :=
  ∃ qs : List Nat, sub'.handedOver a = sub.handedOver a ++ qs.map (plus high) ∧ qs.Pairwise (· < ·) ∧ (∀ q ∈ qs, 0 < q ∧ q ≤ far) ∧
    (far < 2 ^ 32 → (qs.map (plus high)).Nodup) ∧
    (far < 2 ^ 31 → (qs.map (plus high)).Pairwise fun earlier later => seqDelta earlier later < 0)

theorem plus_ne {p q : Nat} (s : SeqNo) (less : p < q) (few : q < 2 ^ 32) : plus s p ≠ plus s q := by
  intro same
  have one := steps_plus s few
  rw [← same, steps_plus s (by omega)] at one
  omega

theorem plus_newer {p q : Nat} (s : SeqNo) (less : p < q) (few : q < 2 ^ 31) : seqDelta (plus s p) (plus s q) < 0 := by
  rw [seqDelta_neg]
  have apart : q = p + (q - p) := by omega
  have along : steps (plus s p) (plus s q) = q - p := by
    rw [apart, plus_add, steps_plus _ (by omega)]
    omega
  have turn := steps_swap (plus_ne s less (by omega))
  omega

/-- From any state in which `a` is tracked. -/
theorem Following.handed {events : List Event} (follows : Following a sub) (near : Run.Sound Subscriber.step (Near a) sub events)
    (stays : ∀ event ∈ events, event ≠ .forget a) (found : sub.findWriterProxy a = some proxy) :
    HandedInOrder a proxy.track.highestDelivered
      (steps (proxy.track.highestDelivered + 1) proxy.track.ackSeqNo + travels a sub events) sub (Run.after Subscriber.step sub events) := by
  -- the position of the last one handed over before, and of the watermark past it
  obtain ⟨h, high⟩ : ∃ h, proxy.track.highestDelivered = wrap h := ⟨proxy.track.highestDelivered.toNat, by simp [wrap]⟩
  have ack : proxy.track.ackSeqNo = wrap (h + (steps (proxy.track.highestDelivered + 1) proxy.track.ackSeqNo + 1)) := by
    rw [wrap_add, ← high, Nat.add_comm, plus_add]
    exact (plus_steps _ _).symm
  obtain ⟨h', ⟨_, _, _, _, short⟩, goes⟩ := follows.run near stays h ⟨proxy, found, ack, high, by omega⟩
  obtain ⟨new, ps, delivered, places, rising, between⟩ := goes.handed
  have back : ∀ p ∈ ps, wrap p = plus proxy.track.highestDelivered (p - h) := by
    intro p mem
    have past := between p mem
    rw [high, ← wrap_add]
    congr 1
    omega
  have apart : (ps.map (· - h)).Pairwise (· < ·) := by
    rw [List.pairwise_map]
    refine rising.imp_of_mem ?_
    intro p q memP memQ less
    have := between p memP
    omega
  have within : ∀ q ∈ ps.map (· - h), 0 < q ∧ q ≤ steps (proxy.track.highestDelivered + 1) proxy.track.ackSeqNo + travels a sub events := by
    intro q mem
    obtain ⟨p, memP, rfl⟩ := List.mem_map.mp mem
    have := between p memP
    omega
  refine ⟨ps.map (· - h), ?_, apart, within, ?_, ?_⟩
  · unfold handedOver
    rw [delivered, List.filter_append, List.map_append, places, List.map_map]
    congr 1
    exact List.map_congr_left back
  · intro few
    unfold List.Nodup
    rw [List.pairwise_map]
    exact apart.imp_of_mem fun _ memQ less => plus_ne _ less (by have := within _ memQ; omega)
  · intro few
    rw [List.pairwise_map]
    exact apart.imp_of_mem fun _ memQ less => plus_newer _ less (by have := within _ memQ; omega)

/-- In every run that names nothing of `a` further than 2^29 from its watermark, from any state in which `a` is tracked and as long as it
stays so, the samples of `a` are handed over in the order of their seq_nos and none twice, all of them before the watermark. -/
theorem handed_in_order (opts : SubscriberOptions) (a : Writer) (before events : List Event) (proxy : TrackedWriter)
    (near : Run.Sound Subscriber.step (Near a) (create opts) (before ++ events))
    (found : (Run.after Subscriber.step (create opts) before).findWriterProxy a = some proxy)
    (stays : ∀ event ∈ events, event ≠ .forget a) :
    HandedInOrder a proxy.track.highestDelivered
      (steps (proxy.track.highestDelivered + 1) proxy.track.ackSeqNo + travels a (Run.after Subscriber.step (create opts) before) events)
      (Run.after Subscriber.step (create opts) before) (Run.after Subscriber.step (create opts) (before ++ events)) := by
  rw [Run.sound_append] at near
  have follows : Following a (Run.after Subscriber.step (create opts) before) :=
    @Run.keeps _ _ Subscriber.step (Near a) (Following a) (fun _ event h near => h.step event near) _ _ (following_create a opts) near.1
  rw [Run.after_append]
  exact follows.handed near.2 stays found

instance Close.decidable (s t : SeqNo) : Decidable (Close s t) := inferInstanceAs (Decidable (_ ∨ _))

instance Near.decidable (a : Writer) (sub : Subscriber) (event : Event) : Decidable (sub.Near a event) :=
  match event with
  | .data ctx _ _ =>
    inferInstanceAs (Decidable (ctx.writer = a → ∀ proxy ∈ sub.findWriterProxy a, Close proxy.track.ackSeqNo ctx.seqNo))
  | .fragment ctx _ _ =>
    inferInstanceAs (Decidable (ctx.writer = a → ∀ proxy ∈ sub.findWriterProxy a, Close proxy.track.ackSeqNo ctx.seqNo))
  | .heartbeat writer firstAvailableSeqNo lastSeqNo _ _ =>
    inferInstanceAs (Decidable (writer = a → ∀ proxy ∈ sub.findWriterProxy a,
      Close proxy.track.ackSeqNo firstAvailableSeqNo ∧ Close proxy.track.ackSeqNo lastSeqNo))
  | .scratchTaken => isTrue trivial
  | .forget _ => isTrue trivial

/-- DATA 3 comes before DATA 2, and once more after it. -/
def swapped : List Event :=
  [.data (someDatagram 3 0) 1 true, .data (someDatagram 2 0) 1 true, .data (someDatagram 3 0) 1 true]

/-- After DATA 1 the others are handed over in turn, once each. -/
theorem swapped_in_order :
    (Run.after Subscriber.step (create someOptions) ([.data (someDatagram 1 0) 1 true] ++ swapped)).handedOver someWriter = [1, 2, 3] ∧
      ∃ proxy, (Run.after Subscriber.step (create someOptions) [.data (someDatagram 1 0) 1 true]).findWriterProxy someWriter = some proxy ∧
        HandedInOrder someWriter proxy.track.highestDelivered
          (steps (proxy.track.highestDelivered + 1) proxy.track.ackSeqNo +
            travels someWriter (Run.after Subscriber.step (create someOptions) [.data (someDatagram 1 0) 1 true]) swapped)
          (Run.after Subscriber.step (create someOptions) [.data (someDatagram 1 0) 1 true])
          (Run.after Subscriber.step (create someOptions) ([.data (someDatagram 1 0) 1 true] ++ swapped)) := by
  refine ⟨by decide +kernel, ?_⟩
  have known : ((Run.after Subscriber.step (create someOptions) [.data (someDatagram 1 0) 1 true]).findWriterProxy someWriter).isSome := by
    decide +kernel
  obtain ⟨proxy, found⟩ := Option.isSome_iff_exists.mp known
  refine ⟨proxy, found, handed_in_order someOptions someWriter _ swapped proxy (by decide +kernel) found ?_⟩
  intro event mem same
  rw [same] at mem
  simp [swapped] at mem

end Subscriber

end Reader

end Tickle
