import Tickle.Reader.Fragments

/-! # Nothing behind the cursor

The Subscriber's ring over whole runs. As long as no DATA comes late while a sample is half there, the watermark does not
move further than a drain walks past what is held, and a fragment stays inside the window, everything held lies at its
writer's cursor or past it, where the next drains find it, and the count of the slots taken is exact.
-/

namespace Tickle

namespace Reader

open Bits Serial Subscriber

variable {sub sub' : Subscriber} {writer other : Writer} {proxy : TrackedWriter} {held ctx : Datagram} {index span : Nat}
  {seqNo firstAvailableSeqNo lastSeqNo : SeqNo}

/-! ## Any DATA -/

/-- What is noted of a writer is nothing that orders. -/
theorem Sorted.mapTrack (h : Sorted nobody sub) (writer : Writer) {f : WriterProxy → WriterProxy}
    (same : ∀ track, SameTrack track (f track)) : Sorted nobody (sub.mapTrack writer f) := by
  cases found : sub.findWriterProxy writer with
  | none =>
    unfold Subscriber.mapTrack
    rw [found]
    exact h
  | some proxy =>
    have order : SameOrder proxy { proxy with track := f proxy.track } := ⟨rfl, rfl, rfl, rfl, same proxy.track⟩
    exact h.same_order found order (sets_mapTrack found f)

/-- The first contact is made before the datagram is recorded. -/
theorem deliverData_firstContact (known : ((sub.firstContact ctx.writer ctx.seqNo).findWriterProxy ctx.writer).isSome)
    (span : Nat) :
    sub.deliverDataToSubscriber ctx span true =
      (sub.firstContact ctx.writer ctx.seqNo).deliverDataToSubscriber ctx span true := by
  obtain ⟨proxy, found⟩ := Option.isSome_iff_exists.mp known
  have again : (sub.firstContact ctx.writer ctx.seqNo).updateReliableAck ctx.writer ctx.seqNo span =
      sub.updateReliableAck ctx.writer ctx.seqNo span := by
    rw [updateReliableAck_known found, updateReliableAck_met rfl found]
  have open_ : ¬ true = false := by decide
  unfold deliverDataToSubscriber
  rw [again, if_neg open_, if_neg open_]

/-- Nothing of a writer just met is held, so any first DATA will do. -/
theorem Met.meetsData (met : Met sub writer ctx.seqNo proxy) (h : Sorted nobody sub)
    (fresh : sub.findWriterProxy writer = none) (span : Nat) :
    MeetsData (sub.firstContact writer ctx.seqNo) proxy ctx span := by
  have same := sameRing_firstContact sub writer ctx.seqNo
  obtain ⟨none_, idle⟩ := h.strange fresh
  obtain ⟨w, watched⟩ := met.watched
  have past : ¬ seqDelta ctx.seqNo proxy.track.ackSeqNo < 0 := by
    have near := met.near
    have narrow := watched.windowBits_le
    rw [not_lt, seqDelta_nonneg]
    omega
  have empty : ∀ i held, (sub.firstContact writer ctx.seqNo).ring i = some held → held.writer ≠ proxy.writer := by
    intro i held here own
    rw [same.ring] at here
    exact none_ i held here (own.trans met.name)
  have unheld : ∀ fast, (sub.firstContact writer ctx.seqNo).fast = some fast → fast.writer ≠ proxy.writer := by
    intro fast busy own
    rw [same.fast] at busy
    rw [← Bool.not_eq_true, fragFastHolds_iff] at idle
    exact idle ⟨fast, busy, own.trans met.name⟩
  refine ⟨fun late => absurd late past, ?_, ?_, ?_, ?_⟩
  · rintro (⟨i, held, here, own⟩ | busy)
    · exact absurd own (empty i held here)
    · obtain ⟨fast, there, own⟩ := fragFastHolds_iff.mp busy
      exact absurd own (unheld fast there)
  · exact fun _ i held here own => absurd own (empty i held here)
  · exact fun _ i held here own => absurd own (empty i held here)
  · exact fun fast busy own => absurd own (unheld fast busy)

theorem Sorted.data (h : Sorted nobody sub) (accepted : Bool)
    (meets : accepted = true → ∀ proxy, sub.findWriterProxy ctx.writer = some proxy → MeetsData sub proxy ctx span) :
    Sorted nobody (sub.deliverDataToSubscriber ctx span accepted) := by
  have known : ∀ {sub : Subscriber} {proxy : TrackedWriter}, Sorted nobody sub →
      sub.findWriterProxy ctx.writer = some proxy → MeetsData sub proxy ctx span →
      Sorted nobody (sub.deliverDataToSubscriber ctx span true) := by
    intro sub proxy h found meets
    rcases lt_or_ge (seqDelta ctx.seqNo proxy.track.ackSeqNo) 0 with late | past
    · exact h.data_late found meets late
    · exact h.data_ahead found meets past
  cases accepted with
  | false =>
    unfold deliverDataToSubscriber
    rw [if_pos rfl]
    exact h.mapTrack ctx.writer fun track => sameTrack_noteDeclined track ctx.seqNo
  | true =>
    cases found : sub.findWriterProxy ctx.writer with
    | some proxy => exact known h found (meets rfl proxy found)
    | none =>
      by_cases room : sub.writers.length < sub.peers
      · obtain ⟨proxy, met⟩ := firstContact_spec h.counted h.tracking found room ctx.seqNo
        obtain ⟨sorted, found'⟩ := h.met found met
        rw [deliverData_firstContact (by rw [found']; rfl)]
        exact known sorted found' (met.meetsData h found span)
      · -- the table is full: the sample goes straight to the application
        have full : sub.firstContact ctx.writer ctx.seqNo = sub := by
          unfold firstContact
          exact if_pos (.inr (not_lt.mp room))
        have untracked : sub.updateReliableAck ctx.writer ctx.seqNo span = (sub, true) := by
          unfold Subscriber.updateReliableAck
          rw [full]
          dsimp only
          rw [found]
        unfold deliverDataToSubscriber
        rw [if_neg (by decide), untracked]
        dsimp only
        rw [if_neg (by decide), found]
        exact h.same_ring ⟨rfl, rfl, rfl, rfl, rfl, rfl, rfl, rfl, rfl⟩ rfl

/-! ## Any fragment -/

/-- The fragment as `deliver_user_fragment` passes it on. -/
def Datagram.passedOn (ctx : Datagram) (isFirst : Bool) : Datagram :=
  if isFirst then { ctx with fragIndex := 0 } else ctx

/-- The fragment is neither behind the watermark nor recorded, and the scratch does not take it. -/
structure GoesToRing (sub : Subscriber) (proxy : TrackedWriter) (ctx : Datagram) (busy : Bool) : Prop where
  past : 0 ≤ seqDelta ctx.seqNo proxy.track.ackSeqNo
  unset : bit proxy.track.receivedBitmap (steps proxy.track.ackSeqNo ctx.seqNo) ≠ true
  untaken : sub.fragFastTake proxy ctx busy = none

theorem Sorted.acceptReliableFragment {busy : Bool} (h : Sorted nobody sub) (short : ctx.fragCount ≤ 64)
    (meets : ∀ proxy, sub.findWriterProxy ctx.writer = some proxy → GoesToRing sub proxy ctx busy →
      MeetsFragment sub proxy ctx) :
    Sorted nobody (sub.acceptReliableFragment ctx busy) := by
  unfold Subscriber.acceptReliableFragment
  cases found : sub.findWriterProxy ctx.writer with
  | none => exact h.storeStrange found short
  | some proxy =>
    dsimp only
    by_cases seen : seqDelta ctx.seqNo proxy.track.ackSeqNo < 0 ∨ steps proxy.track.ackSeqNo ctx.seqNo <
        proxy.track.windowBits ∧ bitmapTestBit proxy.track.receivedBitmap (steps proxy.track.ackSeqNo ctx.seqNo) = true
    · rw [if_pos seen]
      exact h
    · rw [if_neg seen]
      rw [not_or, not_lt, not_and, bitmapTestBit_eq] at seen
      cases taken : sub.fragFastTake proxy ctx busy with
      | some sub' => exact h.fastTake found short taken
      | none =>
        obtain ⟨_, w, r, watched⟩ := h.watched _ proxy found
        have unset : bit proxy.track.receivedBitmap (steps proxy.track.ackSeqNo ctx.seqNo) ≠ true :=
          fun set => seen.2 ((watched.bit_iff _).mp set).1 set
        exact h.storeTracked found short seen.1 unset (meets proxy found ⟨seen.1, unset, taken⟩)

theorem Sorted.fragment {isFirst busy : Bool} (h : Sorted nobody sub)
    (meets : ∀ proxy, sub.findWriterProxy ctx.writer = some proxy → GoesToRing sub proxy (ctx.passedOn isFirst) busy →
      MeetsFragment sub proxy (ctx.passedOn isFirst)) :
    Sorted nobody (sub.deliverUserFragment ctx isFirst busy) := by
  have name : (ctx.passedOn isFirst).writer = ctx.writer := by
    unfold Datagram.passedOn
    split
    · rfl
    · rfl
  rw [← name] at meets
  unfold deliverUserFragment
  change Sorted nobody (if (ctx.passedOn isFirst).fragCount < 2 ∨ fragMaxCount < (ctx.passedOn isFirst).fragCount ∨
    (ctx.passedOn isFirst).fragCount ≤ (ctx.passedOn isFirst).fragIndex ∨ (ctx.passedOn isFirst).payload.length = 0 then _
    else if isFirst = false ∧ (sub.findWriterProxy (ctx.passedOn isFirst).writer).isNone then _
    else sub.acceptReliableFragment (ctx.passedOn isFirst) busy)
  generalize ctx.passedOn isFirst = part at *
  split
  · exact h.same_ring ⟨rfl, rfl, rfl, rfl, rfl, rfl, rfl, rfl, rfl⟩ rfl
  next valid =>
    split
    · exact h
    · unfold fragMaxCount at valid
      exact h.acceptReliableFragment (by omega) meets

/-! ## A HEARTBEAT -/

/-- The watermark of a writer once its HEARTBEAT is heard. -/
def announcedAfter (proxy : TrackedWriter) (firstAvailableSeqNo lastSeqNo : SeqNo) : SeqNo :=
  ((proxy.track.advancePastUnavailable firstAvailableSeqNo).jumpToAnnounced lastSeqNo).ackSeqNo

/-- A HEARTBEAT of a tracked writer that the drain can take: the watermark goes less than half the numbers past what waits,
and the walk reaches what is held up to where it goes. -/
structure MeetsHeartbeat (sub : Subscriber) (proxy : TrackedWriter) (firstAvailableSeqNo lastSeqNo : SeqNo) : Prop where
  near : Waits sub proxy.writer →
    steps (drainStart sub proxy) (proxy.track.advancePastUnavailable firstAvailableSeqNo).ackSeqNo ≤
        steps (drainStart sub proxy) (announcedAfter proxy firstAvailableSeqNo lastSeqNo) ∧
      steps (drainStart sub proxy) (announcedAfter proxy firstAvailableSeqNo lastSeqNo) < 2 ^ 31
  reaches : Reaches sub proxy (announcedAfter proxy firstAvailableSeqNo lastSeqNo)

/-- How far the watermark is past where a drain starts. -/
theorem Sorted.lag (h : Sorted nobody sub) (found : sub.findWriterProxy writer = some proxy) :
    steps (drainStart sub proxy) proxy.track.ackSeqNo < farthest := by
  have name := find_writer found
  unfold drainStart
  cases busy : sub.fast with
  | none => exact (h.ahead writer proxy found id (fragFastHolds_idle busy writer)).1.lag
  | some fast =>
    dsimp only
    by_cases own : fast.writer = proxy.writer
    · rw [if_pos own]
      obtain ⟨p, scratch, bound⟩ := h.scratch fast busy
      have same := scratch.found
      rw [own, name, found] at same
      cases same
      exact (bound id).trans_lt (placed_window (scratch.open_.trans_le scratch.few) h.tracking.2)
    · rw [if_neg own]
      refine (h.ahead writer proxy found id ?_).1.lag
      rw [← Bool.not_eq_true, fragFastHolds_iff]
      rintro ⟨other, busy', own'⟩
      rw [busy] at busy'
      cases busy'
      exact own (own'.trans name.symm)

/-- The two moves of the watermark put together, when they do not go round the numbers. -/
theorem moved_twice {start : SeqNo} {track track₁ track₂ : WriterProxy} {w w₁ w₂ : Nat} {r r₁ r₂ : Finset Nat}
    (watched : Watched track w r) (watched₁ : Watched track₁ w₁ r₁) (watched₂ : Watched track₂ w₂ r₂)
    (lag : steps start track.ackSeqNo < farthest) (le₁ : w ≤ w₁) (far₁ : w₁ ≤ w + 2 ^ 31) (le₂ : w₁ ≤ w₂)
    (far₂ : w₂ ≤ w₁ + 2 ^ 31) (order : steps start track₁.ackSeqNo ≤ steps start track₂.ackSeqNo)
    (near : steps start track₂.ackSeqNo < 2 ^ 31) : w₂ - w < 2 ^ 31 := by
  unfold farthest at lag
  have moved₁ := watched.moved watched₁ le₁ (by omega)
  have moved₂ := watched₁.moved watched₂ le₂ (by omega)
  have split₁ := steps_trans (show steps start track.ackSeqNo + steps track.ackSeqNo track₁.ackSeqNo < 2 ^ 32 by omega)
  have split₂ := steps_split order
  omega

/-- A HEARTBEAT of a writer that has nothing waiting. -/
theorem Sorted.heartbeat_bare {track' : WriterProxy} {w' : Nat} {r' : Finset Nat} (h : Sorted nobody sub)
    (found : sub.findWriterProxy writer = some proxy) (idle : ¬ Waits sub writer)
    (words : track'.words = proxy.track.words) (watched' : Watched track' w' r') :
    Sorted nobody ((sub.setProxy { proxy with track := track' }).drainReorder writer) := by
  unfold Waits at idle
  rw [not_or, Bool.not_eq_true] at idle
  obtain ⟨none_, idle⟩ := idle
  have name := find_writer found
  have sets := sets_setProxy found (show ({ proxy with track := track' } : TrackedWriter).writer = writer from name)
  have placed := h.placed writer proxy found
  have sorted : Sorted (· = writer) (sub.setProxy { proxy with track := track' }) := by
    apply h.sets sets (fun _ _ => False.elim)
    · exact ⟨words.trans (h.watched writer proxy found).1, w', r', watched'⟩
    · exact ⟨placed.base, placed.place, placed.reach⟩
    · exact fun no => absurd rfl no
    · intro fast busy own
      rw [← Bool.not_eq_true, fragFastHolds_iff] at idle
      exact absurd ⟨fast, busy, own⟩ idle
  apply sorted.drainBare sets.found
  · rw [SameRing.fastHolds sets.same]
    exact idle
  · intro i held here own
    rw [sets.same.ring] at here
    exact none_ ⟨i, held, here, own⟩
  · intro c none_
    cases none_

theorem Sorted.heartbeat_known (h : Sorted nobody sub) (found : sub.findWriterProxy writer = some proxy)
    (meets : MeetsHeartbeat sub proxy firstAvailableSeqNo lastSeqNo) :
    Sorted nobody ((sub.setProxy { proxy with
      track := (proxy.track.advancePastUnavailable firstAvailableSeqNo).jumpToAnnounced lastSeqNo }).drainReorder writer) := by
  have name := find_writer found
  obtain ⟨words, w, r, watched⟩ := h.watched _ proxy found
  obtain ⟨w₁, watched₁, le₁, far₁⟩ := watched.evict firstAvailableSeqNo
  obtain ⟨w₂, watched₂, le₂, far₂⟩ := watched₁.jumpToAnnounced lastSeqNo
  have words' := words_heard proxy.track firstAvailableSeqNo lastSeqNo
  by_cases waits : Waits sub writer
  · have near := meets.near (name ▸ waits)
    have reaches := meets.reaches
    unfold announcedAfter at near reaches
    have close := moved_twice watched watched₁ watched₂ (h.lag found) le₁ far₁ le₂ far₂ near.1 near.2
    generalize (proxy.track.advancePastUnavailable firstAvailableSeqNo).jumpToAnnounced lastSeqNo = track' at *
    have sets := sets_setProxy found (show ({ proxy with track := track' } : TrackedWriter).writer = writer from name)
    have window : track'.windowBits = proxy.track.windowBits := by rw [windowBits_eq, windowBits_eq, words']
    have fits : farthest + (w₂ - w) ≤ 2 ^ 32 := by
      unfold farthest
      omega
    have sorted := h.moved found rfl sets watched watched₂ words' (le₁.trans le₂) fits (fun fast busy own => by
      have := near.2
      rw [drainStart_fast busy (own.trans name.symm)] at this
      exact this)
    apply sorted.drain sets.found
    · rintro ⟨i, held, here, own⟩
      rw [sets.same.ring] at here ⊢
      have idle := h.counted.fast_none here
      have lag := near.2
      rw [drainStart_idle idle] at lag
      exact (h.ahead _ proxy found id (fragFastHolds_idle idle _)).1.moved watched watched₂ words' (le₁.trans le₂)
        (fun _ => id) fits lag
    · intro i held here own
      rw [sets.same.ring] at here
      have := reaches i held here own
      unfold Reached at this ⊢
      change steps proxy.reorderCursor held.seqNo < min (steps proxy.reorderCursor track'.ackSeqNo) track'.windowBits ∨ _
      rw [window]
      exact this
    · intro c none_
      cases none_
  · exact h.heartbeat_bare found waits words' watched₂

/-- A writer first heard of through a HEARTBEAT. -/
theorem Sorted.heartbeat_new (h : Sorted nobody sub) (fresh : sub.findWriterProxy writer = none)
    (firstAvailableSeqNo lastSeqNo : SeqNo) :
    Sorted nobody ((sub.heardHeartbeat writer firstAvailableSeqNo lastSeqNo).drainReorder writer) := by
  unfold heardHeartbeat
  rw [fresh]
  dsimp only
  split
  · unfold drainReorder drainReorderWith
    rw [fragFastSpillIfOvertaken_other (h.strange fresh).2]
    dsimp only
    rw [fresh]
    exact h
  · generalize (if sub.durable = true then firstAvailableSeqNo else lastSeqNo + 1) = start
    have clear : (((WriterProxy.create sub.words).moveAck start).clearReceived).receivedBitmap = none_ := by
      apply ext_bit
      intro i
      change bit (bitmapClear none_ sub.words) i = _
      rw [bit_clear, bit_none, Bool.and_false]
    have watched : Watched (((sub.newProxy writer).track.moveAck start).clearReceived) start.toNat ∅ :=
      ⟨tracks_empty h.tracking.1 h.tracking.2 (wrap_toNat start).symm clear rfl, Finset.notMem_empty _⟩
    generalize place : reorderPlacePivot sub.reorderSlots { sub.newProxy writer with
      track := ((sub.newProxy writer).track.moveAck start).clearReceived } _ = new
    have name : new.writer = writer := by rw [← place]; rfl
    have track : new.track = ((sub.newProxy writer).track.moveAck start).clearReceived := by rw [← place]; rfl
    have base : new.reorderBase < sub.reorderSlots := by
      have some_ : sub.reorderSlots ≠ 0 := Nat.pos_iff_ne_zero.mp h.counted.some_
      rw [← place]
      unfold reorderPlacePivot
      dsimp only
      rw [if_pos some_]
      exact Nat.mod_lt _ h.counted.some_
    subst name
    obtain ⟨none_, idle⟩ := h.strange fresh
    have sorted := h.append fresh (by rw [track]; rfl) (track ▸ watched) base
    apply sorted.drainBare (find_append fresh).1 idle none_
    intro c none_
    cases none_

theorem Sorted.heartbeat (h : Sorted nobody sub) (isFinal : Bool) (skips : List AcknackSkip)
    (meets : ∀ proxy, sub.findWriterProxy writer = some proxy → MeetsHeartbeat sub proxy firstAvailableSeqNo lastSeqNo) :
    Sorted nobody (sub.informSubscriberOfHeartbeat writer firstAvailableSeqNo lastSeqNo isFinal skips) := by
  have drained : Sorted nobody ((sub.heardHeartbeat writer firstAvailableSeqNo lastSeqNo).drainReorder writer) := by
    cases found : sub.findWriterProxy writer with
    | none => exact h.heartbeat_new found firstAvailableSeqNo lastSeqNo
    | some proxy =>
      unfold heardHeartbeat
      rw [found]
      exact h.heartbeat_known found (meets proxy found)
  exact drained.mapTrack writer fun track => sameTrack_noteAnnounced track lastSeqNo isFinal skips

/-! ## A writer forgotten -/

namespace Subscriber

/-- The slots below `n` that had something of the writer given back. -/
structure Cleared (writer : Writer) (sub : Subscriber) (n : Nat) (sub' : Subscriber) : Prop where
  words : sub'.words = sub.words
  slots : sub'.reorderSlots = sub.reorderSlots
  table : sub'.writers = sub.writers
  fast : sub'.fast = sub.fast
  ring : ∀ i held, sub'.ring i = some held ↔ sub.ring i = some held ∧ (i < n → held.writer ≠ writer)
  counted : sub'.Counted

theorem cleared_range {round : Subscriber → Nat → Subscriber}
    (passes : ∀ sub index, (∀ held, sub.ring index = some held → held.writer ≠ writer) → round sub index = sub)
    (gives : ∀ sub index held, sub.ring index = some held → held.writer = writer →
      round sub index = { sub.reorderRelease index with reorderAbandoned := sub.reorderAbandoned + 1 })
    (h : sub.Counted) (n : Nat) : Cleared writer sub n ((List.range n).foldl round sub) := by
  induction n with
  | zero => exact ⟨rfl, rfl, rfl, rfl, fun i held => ⟨fun here => ⟨here, by omega⟩, And.left⟩, h⟩
  | succ n ih =>
    rw [List.range_succ, List.foldl_append, List.foldl_cons, List.foldl_nil]
    generalize (List.range n).foldl round sub = mid at ih ⊢
    by_cases own : ∃ held, mid.ring n = some held ∧ held.writer = writer
    · obtain ⟨old, there, name⟩ := own
      have before := ((ih.ring n old).mp there).1
      rw [gives mid n old there name]
      refine ⟨ih.words, ih.slots, ih.table, ih.fast, ?_, ?_⟩
      · intro i held
        change Function.update mid.ring n none i = some held ↔ _
        by_cases same : i = n
        · subst same
          rw [Function.update_self]
          constructor
          · intro none_
            cases none_
          · rintro ⟨here, differ⟩
            rw [before] at here
            cases here
            exact absurd name (differ (Nat.lt_succ_self i))
        · rw [Function.update_of_ne same, ih.ring]
          constructor
          · exact fun both => ⟨both.1, fun less => both.2 (by omega)⟩
          · exact fun both => ⟨both.1, fun less => both.2 (by omega)⟩
      · have released := ih.counted.release there
        exact ⟨released.some_, released.few, released.usable, released.within, released.held, released.alone⟩
    · have differ : ∀ held, mid.ring n = some held → held.writer ≠ writer := fun held here name => own ⟨held, here, name⟩
      rw [passes mid n differ]
      refine ⟨ih.words, ih.slots, ih.table, ih.fast, ?_, ih.counted⟩
      intro i held
      rw [ih.ring]
      constructor
      · rintro ⟨here, before⟩
        refine ⟨here, ?_⟩
        intro less
        by_cases same : i = n
        · subst same
          exact differ held ((ih.ring i held).mpr ⟨here, before⟩)
        · exact before (by omega)
      · exact fun both => ⟨both.1, fun less => both.2 (by omega)⟩

/-- What a writer forgotten leaves: everything of the others. -/
structure Forgotten (writer : Writer) (sub sub' : Subscriber) : Prop where
  words : sub'.words = sub.words
  slots : sub'.reorderSlots = sub.reorderSlots
  gone : sub'.findWriterProxy writer = none
  others : ∀ other, other ≠ writer → sub'.findWriterProxy other = sub.findWriterProxy other
  fast : ∀ fast, sub'.fast = some fast ↔ sub.fast = some fast ∧ fast.writer ≠ writer
  ring : ∀ i held, sub'.ring i = some held ↔ sub.ring i = some held ∧ held.writer ≠ writer
  counted : sub'.Counted

theorem find_forgotten (table : List TrackedWriter) :
    (table.filter fun proxy => proxy.writer ≠ writer).find? (fun proxy => proxy.writer = writer) = none ∧
      ∀ other, other ≠ writer → (table.filter fun proxy => proxy.writer ≠ writer).find? (fun proxy => proxy.writer = other) =
        table.find? fun proxy => proxy.writer = other := by
  constructor
  · rw [List.find?_eq_none]
    intro proxy mem own
    have kept := (List.mem_filter.mp mem).2
    rw [decide_eq_true_eq] at own kept
    exact kept own
  · intro other differ
    induction table with
    | nil => rfl
    | cons first rest ih =>
      rw [List.filter_cons, List.find?_cons]
      by_cases here : first.writer = writer
      · have apart : ¬ writer = other := fun same => differ same.symm
        simp only [here, ne_eq, not_true_eq_false, decide_false, Bool.false_eq_true, if_false, apart]
        exact ih
      · simp only [here, ne_eq, not_false_eq_true, decide_true, if_true]
        rw [List.find?_cons]
        simp only [ne_eq] at ih
        rw [ih]

/-- The scratch of the writer dropped with its proxy. -/
def dropped (sub : Subscriber) (writer : Writer) : Subscriber :=
  match sub.fast with
  | none => sub
  | some fast =>
    if fast.writer = writer then { sub with fast := none, reorderAbandoned := sub.reorderAbandoned + fast.placed } else sub

theorem dropped_spec (sub : Subscriber) (writer : Writer) :
    (sub.dropped writer).words = sub.words ∧ (sub.dropped writer).reorderSlots = sub.reorderSlots ∧
      (sub.dropped writer).writers = sub.writers ∧ (sub.dropped writer).ring = sub.ring ∧
      (∀ fast, (sub.dropped writer).fast = some fast ↔ sub.fast = some fast ∧ fast.writer ≠ writer) ∧
      (sub.Counted → (sub.dropped writer).Counted) := by
  unfold dropped
  cases busy : sub.fast with
  | none => exact ⟨rfl, rfl, rfl, rfl, fun fast => by rw [busy]; simp, id⟩
  | some old =>
    dsimp only
    by_cases own : old.writer = writer
    · rw [if_pos own]
      refine ⟨rfl, rfl, rfl, rfl, ?_, ?_⟩
      · intro fast
        constructor
        · intro none_
          cases none_
        · rintro ⟨same, differ⟩
          cases same
          exact absurd own differ
      · intro h
        exact ⟨h.some_, h.few, h.usable, h.within, h.held, fun busy => absurd busy Bool.false_ne_true⟩
    · rw [if_neg own]
      refine ⟨rfl, rfl, rfl, rfl, ?_, id⟩
      intro fast
      rw [busy]
      constructor
      · intro same
        cases same
        exact ⟨rfl, own⟩
      · exact And.left

theorem forgotten_forgetWriter (h : sub.Counted) (found : sub.findWriterProxy writer = some proxy) :
    Forgotten writer sub (sub.forgetWriter writer) := by
  have known : ¬ (sub.findWriterProxy writer).isNone = true := by
    rw [found]
    exact Bool.false_ne_true
  unfold forgetWriter
  rw [if_neg known]
  obtain ⟨bare, bareDef⟩ : ∃ bare, bare = { sub with writers := sub.writers.filter fun proxy => proxy.writer ≠ writer } :=
    ⟨_, rfl⟩
  have counted : bare.Counted := by
    rw [bareDef]
    exact ⟨h.some_, h.few, h.usable, h.within, h.held, h.alone⟩
  obtain ⟨words, slots, table, ring, fast, keeps⟩ := dropped_spec bare writer
  have usable : ¬ (bare.dropped writer).reorderPayloadCapacity = 0 := (keeps counted).usable
  rw [← bareDef]
  unfold releaseReorderSlotsForWriter
  change Forgotten writer sub (if (bare.dropped writer).reorderPayloadCapacity = 0 then bare.dropped writer else _)
  rw [if_neg usable]
  have whole : ∀ final, Cleared writer (bare.dropped writer) (bare.dropped writer).reorderSlots final →
      Forgotten writer sub final := by
    intro final cleared
    have find : ∀ other, final.findWriterProxy other = bare.findWriterProxy other := by
      intro other
      unfold findWriterProxy
      rw [cleared.table, table]
    obtain ⟨gone, others⟩ := @find_forgotten writer sub.writers
    subst bareDef
    refine ⟨cleared.words.trans words, cleared.slots.trans slots, ?_, ?_, ?_, ?_, cleared.counted⟩
    · rw [find]
      exact gone
    · intro other differ
      rw [find]
      exact others other differ
    · intro scratch
      rw [cleared.fast, fast]
    · intro i held
      rw [cleared.ring, ring]
      constructor
      · exact fun both => ⟨both.1, both.2 ((keeps counted).within i held ((congrFun ring i).trans both.1))⟩
      · exact fun both => ⟨both.1, fun _ => both.2⟩
  apply whole
  apply cleared_range _ _ (keeps counted)
  · intro other index differ
    cases here : other.ring index with
    | none => rfl
    | some held => exact if_neg (differ held here)
  · intro other index held here own
    rw [here]
    exact if_pos own

end Subscriber

theorem Sorted.forget (h : Sorted nobody sub) (writer : Writer) : Sorted nobody (sub.forgetWriter writer) := by
  cases found : sub.findWriterProxy writer with
  | none =>
    unfold forgetWriter
    rw [found]
    exact h
  | some old =>
    have forgotten := forgotten_forgetWriter h.counted found
    generalize sub.forgetWriter writer = left at forgotten ⊢
    have known : ∀ {other proxy}, left.findWriterProxy other = some proxy →
        other ≠ writer ∧ sub.findWriterProxy other = some proxy := by
      intro other proxy there
      have differ : other ≠ writer := by
        rintro rfl
        rw [forgotten.gone] at there
        cases there
      exact ⟨differ, (forgotten.others other differ) ▸ there⟩
    have sparser : ∀ {i held}, left.ring i = some held → sub.ring i = some held := fun here => ((forgotten.ring _ _).mp here).1
    refine ⟨forgotten.counted, forgotten.words ▸ h.tracking, fun i held here => h.short i held (sparser here), ?_, ?_, ?_, ?_, ?_⟩
    · intro i held here
      obtain ⟨before, differ⟩ := (forgotten.ring i held).mp here
      rw [forgotten.others _ differ]
      exact h.tracked i held before
    · intro other proxy there
      rw [forgotten.words]
      exact h.watched other proxy (known there).2
    · intro other proxy there
      have placed := h.placed other proxy (known there).2
      rw [forgotten.slots]
      exact ⟨placed.base, fun i held here => placed.place i held (sparser here),
        fun i held here => placed.reach i held (sparser here)⟩
    · intro other proxy there _ idle
      obtain ⟨differ, before⟩ := known there
      have idle' : sub.fragFastHolds other = false := by
        rw [← Bool.not_eq_true, fragFastHolds_iff] at idle ⊢
        rintro ⟨fast, busy, own⟩
        exact idle ⟨fast, (forgotten.fast fast).mpr ⟨busy, own ▸ differ⟩, own⟩
      obtain ⟨ahead, cursor⟩ := h.ahead other proxy before id idle'
      refine ⟨⟨ahead.lag, fun i held here => ahead.ahead i held (sparser here),
        fun i held here => ahead.recorded i held (sparser here)⟩, ?_⟩
      intro behind
      obtain ⟨held, at_⟩ := cursor behind
      obtain ⟨here, seqNo, own⟩ := (heldAt_eq before _).mp at_
      refine ⟨held, (heldAt_eq there _).mpr ⟨?_, seqNo, own⟩⟩
      rw [forgotten.slots]
      exact (forgotten.ring _ held).mpr ⟨here, own ▸ differ⟩
    · intro fast busy
      obtain ⟨before, differ⟩ := (forgotten.fast fast).mp busy
      obtain ⟨proxy, scratch, near⟩ := h.scratch fast before
      rw [forgotten.words]
      exact ⟨proxy, ⟨(forgotten.others _ differ).trans scratch.found, scratch.some_, scratch.open_, scratch.few,
        scratch.behind, scratch.near⟩, near⟩

/-! ## Whole runs -/

namespace Subscriber

/-- What arrives is what the drain can take. -/
def Meets (sub : Subscriber) : Event → Prop
  | .data ctx span accepted =>
    accepted = true → ∀ proxy, sub.findWriterProxy ctx.writer = some proxy → MeetsData sub proxy ctx span
  | .fragment ctx isFirst busy =>
    ∀ proxy, sub.findWriterProxy ctx.writer = some proxy → GoesToRing sub proxy (ctx.passedOn isFirst) busy →
      MeetsFragment sub proxy (ctx.passedOn isFirst)
  | .heartbeat writer firstAvailableSeqNo lastSeqNo _ _ =>
    ∀ proxy, sub.findWriterProxy writer = some proxy → MeetsHeartbeat sub proxy firstAvailableSeqNo lastSeqNo
  | .scratchTaken => True
  | .forget _ => True

end Subscriber

theorem Sorted.step (h : Sorted nobody sub) (event : Subscriber.Event) (meets : sub.Meets event) : Sorted nobody (sub.step event) := by
  cases event with
  | data ctx span accepted => exact h.data accepted meets
  | fragment ctx isFirst busy => exact h.fragment meets
  | heartbeat writer firstAvailableSeqNo lastSeqNo isFinal skips => exact h.heartbeat isFinal skips meets
  | scratchTaken => exact h.spill
  | forget writer => exact h.forget writer

theorem counted_create (opts : SubscriberOptions) : (create opts).Counted where
  some_ := opts.usable.1
  few := opts.usable.2.1
  usable := by
    have room := opts.usable.2.2
    have some_ := opts.usable.1
    unfold slotHeader at room
    unfold reorderPayloadCapacity reorderStride slotHeader create
    dsimp only
    rw [if_neg (by omega)]
    omega
  within := by
    intro i held here
    cases here
  held := by
    unfold occupied create
    simp
  alone := by
    intro busy
    cases busy

theorem sorted_create (opts : SubscriberOptions) : Sorted nobody (create opts) where
  counted := counted_create opts
  tracking := opts.tracking
  short := by
    intro i held here
    cases here
  tracked := by
    intro i held here
    cases here
  watched := by
    intro writer proxy found
    cases found
  placed := by
    intro writer proxy found
    cases found
  ahead := by
    intro writer proxy found
    cases found
  scratch := by
    intro fast busy
    cases busy

/-- Every slot taken of a writer tracked has a seq_no at its cursor or past it, and the slots taken are counted. -/
def NothingBehind (sub : Subscriber) : Prop :=
  (∀ i held proxy, sub.ring i = some held → sub.findWriterProxy held.writer = some proxy →
    0 ≤ seqDelta held.seqNo proxy.reorderCursor) ∧
  sub.reorderHeld = sub.occupied.card

theorem Sorted.nothingBehind (h : Sorted nobody sub) : NothingBehind sub := by
  refine ⟨?_, h.counted.held⟩
  intro i held proxy here found
  have idle := fragFastHolds_idle (h.counted.fast_none here) held.writer
  obtain ⟨ahead, -⟩ := h.ahead _ proxy found id idle
  have near := ahead.ahead i held here (find_writer found).symm
  have lag := ahead.lag
  obtain ⟨_, w, r, watched⟩ := h.watched _ proxy found
  have narrow := watched.windowBits_le
  unfold farthest at lag
  rw [seqDelta_nonneg]
  omega

theorem sorted_run {opts : SubscriberOptions} {events : List Subscriber.Event}
    (sound : Run.Sound Subscriber.step Meets (create opts) events) :
    Sorted nobody (Run.after Subscriber.step (create opts) events) :=
  @Run.keeps _ _ Subscriber.step Meets (Sorted nobody) (fun _ event h meets => h.step event meets) _ _ (sorted_create opts) sound

/-- In every run in which the drain can take what arrives, nothing is held behind a cursor and the count is exact. -/
theorem nothing_behind_cursor (opts : SubscriberOptions) (events : List Subscriber.Event)
    (sound : Run.Sound Subscriber.step Meets (create opts) events) :
    NothingBehind (Run.after Subscriber.step (create opts) events) := (sorted_run sound).nothingBehind

/-! ## A late DATA behind a sample half there -/

theorem someOptions_tracking : 0 < 1 ∧ 1 < 2 ^ 16 := by decide

theorem someOptions_usable : 0 < 64 ∧ 64 < 2 ^ 16 ∧ slotHeader + 8 ≤ 64 := by decide

/-- A window of 64 and a slot for each of it. -/
def someOptions : SubscriberOptions := ⟨1, false, 64, 64, 4, 1000, someOptions_tracking, someOptions_usable⟩

def someWriter : Writer := ⟨7, 1⟩

/-- A DATA of the writer, or with a count its first fragment. -/
def someDatagram (seqNo : SeqNo) (fragCount : Nat) : Datagram := ⟨someWriter, seqNo, 0, [1, 2, 3], true, false, 0, fragCount⟩

/-- DATA 1 and, past a gap, DATA 3. -/
def pastGap : List Subscriber.Event := [.data (someDatagram 1 0) 1 true, .data (someDatagram 3 0) 1 true]

theorem pastGap_sound : Run.Sound Subscriber.step Meets (create someOptions) pastGap := by
  have unknown : Meets (create someOptions) (.data (someDatagram 1 0) 1 true) := by
    intro _ proxy found
    cases found
  have counted := ((sorted_create someOptions).step _ unknown).counted
  refine ⟨unknown, ?_, trivial⟩
  have none_ := counted.none_held (by decide +kernel)
  have idle : ((create someOptions).step (.data (someDatagram 1 0) 1 true)).fast.isNone = true := by decide +kernel
  rw [Option.isNone_iff_eq_none] at idle
  have ahead : (((create someOptions).step (.data (someDatagram 1 0) 1 true)).findWriterProxy someWriter).map
      (fun proxy => (decide (seqDelta 3 proxy.track.ackSeqNo < 0), decide (watermarkAfter proxy 3 1 = proxy.track.ackSeqNo))) =
        some (false, true) := by decide +kernel
  intro _ proxy found
  change ((create someOptions).step (.data (someDatagram 1 0) 1 true)).findWriterProxy someWriter = some proxy at found
  rw [found, Option.map_some, Option.some.injEq, Prod.mk.injEq, decide_eq_false_iff_not, decide_eq_true_eq] at ahead
  obtain ⟨past, still⟩ := ahead
  refine ⟨fun late => absurd late past, ?_, ?_, fun moves => absurd still moves, ?_⟩
  · rintro (⟨i, held, here, -⟩ | busy)
    · rw [none_] at here
      cases here
    · rw [fragFastHolds_idle idle] at busy
      cases busy
  · rintro (late | moves)
    · exact absurd late past
    · exact absurd still moves
  · intro fast busy
    rw [idle] at busy
    cases busy

/-- The DATA past the gap is held, at the cursor or past it. -/
theorem pastGap_held :
    (Run.after Subscriber.step (create someOptions) pastGap).reorderHeld = 1 ∧
      NothingBehind (Run.after Subscriber.step (create someOptions) pastGap) :=
  ⟨by decide +kernel, nothing_behind_cursor someOptions pastGap pastGap_sound⟩

/-- DATA 1 and 5, the first of three fragments at 2, and DATA 1 once more. -/
def lateData : List Subscriber.Event :=
  [.data (someDatagram 1 0) 1 true, .data (someDatagram 5 0) 1 true, .fragment (someDatagram 2 3) true false,
    .data (someDatagram 1 0) 1 true]

/-- The late DATA is held behind the cursor, which waits at the fragment. -/
theorem lateData_behind : ¬ NothingBehind (Run.after Subscriber.step (create someOptions) lateData) := by
  rintro ⟨behind, -⟩
  have slot : ((Run.after Subscriber.step (create someOptions) lateData).ring 49).map
      (fun held => (held.seqNo, held.writer)) = some (1, someWriter) := by decide +kernel
  have cursor : ((Run.after Subscriber.step (create someOptions) lateData).findWriterProxy someWriter).map
      (fun proxy => proxy.reorderCursor) = some 2 := by decide +kernel
  obtain ⟨held, here, same⟩ := Option.map_eq_some_iff.mp slot
  obtain ⟨proxy, found, at_⟩ := Option.map_eq_some_iff.mp cursor
  rw [Prod.mk.injEq] at same
  have past := behind 49 held proxy here (same.2 ▸ found)
  rw [same.1, at_] at past
  exact absurd past (by decide)

end Reader

end Tickle
