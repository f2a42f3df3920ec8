import Tickle.Reader.Arrivals

/-! # A fragment at the ring

The same of the fragments, whether they come in order and go to the scratch or are stored one by one.
-/

namespace Tickle

namespace Reader

open Bits Serial Subscriber

variable {sub sub' : Subscriber} {writer : Writer} {proxy : TrackedWriter} {held ctx : Datagram} {seqNo : SeqNo}

/-! ## A fragment in order -/

/-- The scratch of the writer dealt with is written anew, with nothing held. -/
theorem Sorted.rescratch (h : Sorted (· = writer) sub) (none_ : sub.reorderHeld = 0)
    (own : ∀ fast, sub.fast = some fast → fast.writer = writer) (new : Option FastSample)
    (scratch : ∀ fast, new = some fast → fast.writer = writer ∧ ∃ proxy, Scratch { sub with fast := new } fast proxy) :
    Sorted (· = writer) { sub with fast := new } := by
  have counted : { sub with fast := new }.Counted :=
    ⟨h.counted.some_, h.counted.few, h.counted.usable, h.counted.within, h.counted.held, fun _ => none_⟩
  refine ⟨counted, h.tracking, h.short, h.tracked, h.watched, h.placed, ?_, ?_⟩
  · intro other p found no _
    apply h.ahead other p found no
    rw [← Bool.not_eq_true, fragFastHolds_iff]
    rintro ⟨fast, busy, same⟩
    exact no (same.symm.trans (own fast busy))
  · intro fast here
    obtain ⟨same, p, scratch⟩ := scratch fast here
    exact ⟨p, scratch, fun no => absurd same no⟩

/-- What `frag_fast_take` puts the fragment to. -/
theorem fastSampleFor_spec {busy : Bool} {fast : FastSample} (h : sub.Counted)
    (takes : sub.fastSampleFor ctx busy = some fast) :
    sub.reorderHeld = 0 ∧ fast.writer = ctx.writer ∧ fast.count = ctx.fragCount ∧
      (sub.fast = none ∧ fast.placed = 0 ∧ fast.seqNo = ctx.seqNo ∨ sub.fast = some fast) := by
  unfold fastSampleFor at takes
  split at takes
  · split at takes
    · cases takes
    next free =>
      cases takes
      rw [not_or, not_or, Option.not_isSome_iff_eq_none] at free
      exact ⟨not_not.mp free.2.2, rfl, rfl, .inl ⟨free.1, rfl, rfl⟩⟩
  · split at takes
    · cases takes
    next old here =>
      split at takes
      · cases takes
      next fits =>
        cases takes
        rw [not_or, not_or, not_or, not_not, not_not, not_not] at fits
        exact ⟨h.alone (by rw [here]; rfl), fits.1, fits.2.2.1.symm, .inr here⟩

theorem Sorted.fastTake {busy : Bool} (h : Sorted nobody sub) (found : sub.findWriterProxy ctx.writer = some proxy)
    (few : ctx.fragCount ≤ 64) (takes : sub.fragFastTake proxy ctx busy = some sub') : Sorted nobody sub' := by
  have name := find_writer found
  unfold fragFastTake at takes
  split at takes
  · cases takes
  next fits =>
  rw [not_or, not_not] at fits
  split at takes
  · cases takes
  next fast sample =>
  obtain ⟨none_, own, count, state⟩ := fastSampleFor_spec h.counted sample
  split at takes
  · cases takes
  obtain ⟨words, w, r, watched⟩ := h.watched _ proxy found
  have past : 0 ≤ seqDelta ctx.seqNo proxy.track.ackSeqNo := by rw [fits.1, seqDelta_self]
  obtain ⟨w', r', watched', arrived⟩ := watched.update 1 past
  have words' := words_updateReliableAck proxy.track ctx.seqNo 1
  have window := watched.windowBits_le
  have here : steps proxy.track.ackSeqNo ctx.seqNo = 0 := by rw [fits.1, steps_self]
  rw [here] at arrived
  have near := arrived.near
  have passed := arrived.passed (by omega)
  rw [updateReliableAck_known found] at takes
  dsimp only at takes
  generalize (proxy.track.updateReliableAck ctx.seqNo 1).1 = track' at *
  have sets := sets_setProxy found (show ({ proxy with track := track' } : TrackedWriter).writer = ctx.writer from name)
  have moved := watched.moved watched' arrived.le (by omega)
  -- how far the sample in the scratch reaches, before and after
  have before : fast.placed ≤ steps fast.seqNo proxy.track.ackSeqNo ∧
      steps fast.seqNo proxy.track.ackSeqNo ≤ fast.placed * (64 * sub.words) ∧ fast.placed < 64 := by
    rcases state with ⟨_, zero, seq⟩ | same
    · rw [zero, seq, fits.1, steps_self]
      omega
    · obtain ⟨p, scratch, bound⟩ := h.scratch fast same
      have found' := scratch.found
      rw [own, found] at found'
      cases found'
      exact ⟨scratch.behind, bound id, lt_of_lt_of_le scratch.open_ scratch.few⟩
  have far := placed_window before.2.2 h.tracking.2
  unfold farthest at far
  have total := steps_trans (show steps fast.seqNo proxy.track.ackSeqNo +
    steps proxy.track.ackSeqNo track'.ackSeqNo < 2 ^ 32 by omega)
  have sorted := h.moved found rfl sets watched watched' words' arrived.le (by unfold farthest; omega) (fun f busy mine => by
    rcases state with ⟨idle, _⟩ | same
    · rw [idle] at busy
      cases busy
    · rw [same] at busy
      cases busy
      omega)
  generalize sub.setProxy { proxy with track := track' } = sub₁ at *
  have none₁ : sub₁.reorderHeld = 0 := sets.same.held.trans none_
  have owned : ∀ f, sub₁.fast = some f → f.writer = ctx.writer := by
    intro f busy
    rw [sets.same.fast] at busy
    rcases state with ⟨idle, _⟩ | same
    · rw [idle] at busy
      cases busy
    · rw [same] at busy
      cases busy
      exact own
  have size : proxy.track.windowBits = 64 * sub.words := by rw [windowBits_eq, words]
  have grown : steps fast.seqNo track'.ackSeqNo ≤ (fast.placed + 1) * (64 * sub.words) := by
    rw [Nat.add_mul]
    omega
  have placed : (fast.take ctx).placed = fast.placed + 1 := rfl
  have seq : (fast.take ctx).seqNo = fast.seqNo := rfl
  have mine : (fast.take ctx).writer = ctx.writer := own
  split at takes
  next open_ =>
    cases takes
    have scratch : Scratch { sub₁ with fast := some (fast.take ctx) } (fast.take ctx) { proxy with track := track' } := by
      refine ⟨?_, Nat.succ_pos _, open_, count.trans_le few, ?_, ?_⟩
      · change sub₁.findWriterProxy fast.writer = _
        rw [own]
        exact sets.found
      · change fast.placed + 1 ≤ steps fast.seqNo track'.ackSeqNo
        omega
      · change steps fast.seqNo track'.ackSeqNo < 2 ^ 31
        omega
    have full := sorted.rescratch none₁ owned (some (fast.take ctx)) (fun f here => by
      cases here
      exact ⟨mine, _, scratch⟩)
    apply full.sets ⟨SameRing.refl _, sets.found, fun _ _ => rfl, rfl⟩ (fun other ne yes => absurd yes ne)
    · exact sorted.watched _ _ sets.found
    · exact sorted.placed _ _ sets.found
    · intro _ idle
      rw [← Bool.not_eq_true, fragFastHolds_iff] at idle
      exact absurd ⟨_, rfl, mine⟩ idle
    · intro f here _
      cases here
      refine ⟨scratch.behind, scratch.near, fun _ => ?_⟩
      change steps fast.seqNo track'.ackSeqNo ≤ (fast.placed + 1) * (64 * sub₁.words)
      rw [sets.same.words]
      exact grown
  · have empty := sorted.rescratch none₁ owned none (by simp)
    have found₂ : ({ sub₁ with fast := none } : Subscriber).findWriterProxy ctx.writer =
      some { proxy with track := track' } := sets.found
    have idle₂ : ({ sub₁ with fast := none } : Subscriber).fast = none := rfl
    have none₂ : ({ sub₁ with fast := none } : Subscriber).reorderHeld = 0 := none₁
    generalize ({ sub₁ with fast := none } : Subscriber) = sub₂ at *
    have given := shed_deliverInOrder sub₂ ⟨ctx.writer, (fast.take ctx).seqNo, (fast.take ctx).timestamp,
      (fast.take ctx).bytes, (fast.take ctx).isNative, (fast.take ctx).viaDataPort⟩
    generalize sub₂.deliverInOrder _ = sub₃ at takes given
    obtain ⟨high, found₃⟩ := given.own _ found₂
    generalize ({ proxy with track := { track' with highestDelivered := high } } : TrackedWriter) = proxy₃ at found₃
    rw [found₃] at takes
    cases takes
    have level := (empty.shed rfl given).level found₃
      (fun i held here => by
        have there := given.ring_of here
        rw [empty.counted.none_held none₂ i] at there
        cases there)
      (fun f there => by rw [given.fast, idle₂] at there; cases there)
    have found₃ : sub₃.findWriterProxy ctx.writer = some proxy₃ := found₃
    have put : sub₃.putCursor ctx.writer proxy₃.track.ackSeqNo =
        sub₃.setProxy { proxy₃ with reorderCursor := proxy₃.track.ackSeqNo } := by
      unfold Subscriber.putCursor
      rw [found₃]
    rw [← put]
    exact level

/-! ## A fragment stored -/

/-- A fragment of a tracked writer that the ring can take: it does not jump the watermark, and the walk reaches it and
what is held up to where it moves the watermark. -/
structure MeetsFragment (sub : Subscriber) (proxy : TrackedWriter) (ctx : Datagram) : Prop where
  inside : steps proxy.track.ackSeqNo ctx.seqNo < proxy.track.windowBits
  first : ctx.seqNo = proxy.track.ackSeqNo → steps (drainStart sub proxy) ctx.seqNo < proxy.track.windowBits
  reaches : Reaches sub proxy (watermarkAfter proxy ctx.seqNo 1)

theorem Ahead.occupied {far slot : Nat} {ring : Nat → Option Datagram} (ahead : Ahead far ring proxy)
    (inside : steps proxy.reorderCursor ctx.seqNo < steps proxy.reorderCursor proxy.track.ackSeqNo + proxy.track.windowBits)
    (recorded : steps proxy.reorderCursor proxy.track.ackSeqNo ≤ steps proxy.reorderCursor ctx.seqNo →
      bit proxy.track.receivedBitmap (steps proxy.track.ackSeqNo ctx.seqNo) = true) :
    Ahead far (Function.update ring slot (some ctx)) proxy where
  lag := ahead.lag
  ahead := by
    intro i held here own
    by_cases same : i = slot
    · rw [same, Function.update_self] at here
      cases here
      exact inside
    · rw [Function.update_of_ne same] at here
      exact ahead.ahead i held here own
  recorded := by
    intro i held here own
    by_cases same : i = slot
    · rw [same, Function.update_self] at here
      cases here
      exact recorded
    · rw [Function.update_of_ne same] at here
      exact ahead.recorded i held here own

/-- A fragment in its slot, recorded, and the drain after it. -/
theorem Sorted.storeAt (h : Sorted nobody sub) (idle : sub.fast = none)
    (found : sub.findWriterProxy ctx.writer = some proxy)
    (free : sub.ring (proxy.slot sub.reorderSlots ctx.seqNo) = none) (short : ctx.fragCount ≤ 64)
    (reach : steps proxy.reorderPivot ctx.seqNo < 2 ^ 31)
    (inside : steps proxy.track.ackSeqNo ctx.seqNo < proxy.track.windowBits)
    (first : ctx.seqNo = proxy.track.ackSeqNo → steps proxy.reorderCursor ctx.seqNo < proxy.track.windowBits)
    (reaches : Reaches sub proxy (watermarkAfter proxy ctx.seqNo 1)) :
    Sorted nobody (((sub.setProxy { proxy with track := (proxy.track.updateReliableAck ctx.seqNo 1).1 }).occupy
      (proxy.slot sub.reorderSlots ctx.seqNo) ctx).drainReorder ctx.writer) := by
  have name := find_writer found
  obtain ⟨words, w, r, watched⟩ := h.watched _ proxy found
  have window := watched.windowBits_le
  have past : 0 ≤ seqDelta ctx.seqNo proxy.track.ackSeqNo := by
    rw [seqDelta_nonneg]
    omega
  obtain ⟨w', r', watched', arrived⟩ := watched.update 1 past
  have words' := words_updateReliableAck proxy.track ctx.seqNo 1
  obtain ⟨ahead, _⟩ := h.ahead _ proxy found id (fragFastHolds_idle idle _)
  have lag := ahead.lag
  unfold farthest at lag
  unfold watermarkAfter at reaches
  generalize (proxy.track.updateReliableAck ctx.seqNo 1).1 = track' at *
  have sets := sets_setProxy found (show ({ proxy with track := track' } : TrackedWriter).writer = ctx.writer from name)
  have near := arrived.near
  have moved := watched.moved watched' arrived.le (by omega)
  have same : track'.windowBits = proxy.track.windowBits := by rw [windowBits_eq, windowBits_eq, words']
  have to_ctx := steps_trans (show steps proxy.reorderCursor proxy.track.ackSeqNo +
    steps proxy.track.ackSeqNo ctx.seqNo < 2 ^ 32 by omega)
  have to_ack := steps_trans (show steps proxy.reorderCursor proxy.track.ackSeqNo +
    steps proxy.track.ackSeqNo track'.ackSeqNo < 2 ^ 32 by omega)
  have sorted := h.moved found rfl sets watched watched' words' arrived.le (by unfold farthest; omega) (fun fast busy => by
    rw [idle] at busy
    cases busy)
  have ahead' := ahead.moved watched watched' words' arrived.le arrived.kept (by unfold farthest; omega)
    (show steps proxy.reorderCursor track'.ackSeqNo < 2 ^ 31 by omega)
  generalize sub.setProxy { proxy with track := track' } = sub₁ at *
  have full : Sorted (· = ctx.writer) (sub₁.occupy (proxy.slot sub.reorderSlots ctx.seqNo) ctx) := by
    have free' := free
    rw [← sets.same.ring, ← sets.same.slots] at free'
    rw [← sets.same.slots]
    exact @Sorted.occupy { proxy with track := track' } _ sub₁ ctx sorted (sets.same.fast.trans idle) sets.found free'
      short reach (fun no => absurd rfl no) (fun no => absurd rfl no)
  unfold drainReorder
  apply full.drain sets.found
  · intro _
    change Ahead (2 ^ 31) (Function.update sub₁.ring _ (some ctx)) _
    rw [sets.same.ring]
    apply ahead'.occupied
    · change steps proxy.reorderCursor ctx.seqNo < steps proxy.reorderCursor track'.ackSeqNo + track'.windowBits
      omega
    · intro beyond
      change steps proxy.reorderCursor track'.ackSeqNo ≤ steps proxy.reorderCursor ctx.seqNo at beyond
      change bit track'.receivedBitmap (steps track'.ackSeqNo ctx.seqNo) = true
      rw [watched'.bit_iff]
      have split_ := steps_split beyond
      refine ⟨by omega, ?_⟩
      have le := arrived.le
      have place : w' + steps track'.ackSeqNo ctx.seqNo = w + steps proxy.track.ackSeqNo ctx.seqNo := by omega
      rw [place]
      exact arrived.recorded inside
  · intro i held here own
    change Reached { proxy with track := track' } track'.ackSeqNo held.seqNo
    unfold Reached
    change steps proxy.reorderCursor held.seqNo < min (steps proxy.reorderCursor track'.ackSeqNo) track'.windowBits ∨
      steps proxy.reorderCursor track'.ackSeqNo ≤ steps proxy.reorderCursor held.seqNo
    rw [same]
    rcases ring_occupy here with ⟨_, new⟩ | old
    · rw [new]
      by_cases level : ctx.seqNo = proxy.track.ackSeqNo
      · have close := first level
        have zero : steps proxy.track.ackSeqNo ctx.seqNo = 0 := by rw [level, steps_self]
        have passed := arrived.passed (by omega)
        left
        omega
      · have some_ : 0 < steps proxy.track.ackSeqNo ctx.seqNo := by
          apply Nat.pos_of_ne_zero
          intro zero
          exact level (steps_eq_zero.mp zero).symm
        have still := arrived.still some_ inside
        right
        omega
    · rw [sets.same.ring] at old
      exact reaches i held old own
  · intro c none_
    cases none_

/-- The writer once the scratch is back in the ring. -/
theorem Sorted.spilled (h : Sorted nobody sub) (found : sub.findWriterProxy writer = some proxy) :
    sub.fragFastSpill.fast = none ∧ ∃ proxy', sub.fragFastSpill.findWriterProxy writer = some proxy' ∧
      proxy'.track = proxy.track ∧ proxy'.reorderCursor = drainStart sub proxy ∧
      ∀ ack, steps proxy.track.ackSeqNo ack < 2 ^ 30 → Reaches sub proxy ack → Reaches sub.fragFastSpill proxy' ack := by
  have name := find_writer found
  unfold drainStart
  cases busy : sub.fast with
  | none =>
    rw [fragFastSpill_idle busy]
    exact ⟨busy, proxy, found, rfl, rfl, fun _ _ => id⟩
  | some fast =>
    obtain ⟨p, scratch, bound⟩ := h.scratch fast busy
    obtain ⟨p', back⟩ := fragFastSpill_spec h.counted busy scratch.found (h.placed _ _ scratch.found).base
    refine ⟨back.idle, ?_⟩
    dsimp only
    by_cases own : fast.writer = proxy.writer
    · rw [if_pos own]
      have own' := own.trans name
      have same := scratch.found
      rw [own', found] at same
      cases same
      refine ⟨p', own' ▸ back.found, back.track, back.cursor, ?_⟩
      intro ack near _ i held here _
      obtain ⟨j, lt, part, _⟩ := back.ring i held here
      obtain ⟨_, w, r, watched⟩ := h.watched _ _ scratch.found
      have window := watched.windowBits_le
      have few := scratch.few
      have open_ := scratch.open_
      have behind := scratch.behind
      have far := scratch.near
      have total := steps_trans (show steps fast.seqNo proxy.track.ackSeqNo + steps proxy.track.ackSeqNo ack < 2 ^ 32
        by omega)
      have step : steps fast.seqNo held.seqNo = j := by
        rw [part]
        exact steps_plus _ (by omega)
      left
      rw [back.cursor, back.track]
      omega
    · rw [if_neg own]
      have ne : writer ≠ fast.writer := fun same => own (same.symm.trans name.symm)
      refine ⟨proxy, (back.others _ ne).trans found, rfl, rfl, ?_⟩
      intro ack _ _ i held here mine
      obtain ⟨j, _, part, _⟩ := back.ring i held here
      rw [part] at mine
      exact absurd mine own

theorem recordArrival_unset {track : WriterProxy} (unset : bit track.receivedBitmap (steps track.ackSeqNo seqNo) ≠ true)
    (span : Nat) : (track.recordArrival seqNo span).2.1 = true := by
  unfold WriterProxy.recordArrival
  split
  · rfl
  · dsimp only
    split
    · unfold WriterProxy.recordOutOfOrderArrival
      rw [bitmapTestBit_eq, if_neg unset]
    · rfl

/-- What `accept_reliable_fragment` does once a fragment, not recorded yet, has its slot. -/
theorem recorded_drains {slot : Nat} (table : sub.firstContact ctx.writer ctx.seqNo = sub')
    (found : sub'.findWriterProxy ctx.writer = some proxy) (past : 0 ≤ seqDelta ctx.seqNo proxy.track.ackSeqNo)
    (unset : bit proxy.track.receivedBitmap (steps proxy.track.ackSeqNo ctx.seqNo) ≠ true) :
    (if (sub.updateReliableAck ctx.writer ctx.seqNo 1).2 = false ∨
          ((sub.updateReliableAck ctx.writer ctx.seqNo 1).1.findWriterProxy ctx.writer).isNone then
        (sub.updateReliableAck ctx.writer ctx.seqNo 1).1.reorderRelease slot
      else (sub.updateReliableAck ctx.writer ctx.seqNo 1).1.drainReorder ctx.writer) =
      (sub'.setProxy { proxy with track := (proxy.track.updateReliableAck ctx.seqNo 1).1 }).drainReorder ctx.writer := by
  have name : ({ proxy with track := (proxy.track.updateReliableAck ctx.seqNo 1).1 } : TrackedWriter).writer = ctx.writer :=
    (find_writer found : proxy.writer = ctx.writer)
  rw [updateReliableAck_met table found, updateReliableAck_new past, recordArrival_unset unset]
  dsimp only
  rw [if_neg]
  rw [find_setProxy found name]
  rintro (no | no)
  · cases no
  · cases no

/-- A fragment of a tracked writer, not recorded yet. -/
theorem Sorted.storeTracked (h : Sorted nobody sub) (found : sub.findWriterProxy ctx.writer = some proxy)
    (short : ctx.fragCount ≤ 64) (past : 0 ≤ seqDelta ctx.seqNo proxy.track.ackSeqNo)
    (unset : bit proxy.track.receivedBitmap (steps proxy.track.ackSeqNo ctx.seqNo) ≠ true)
    (meets : MeetsFragment sub proxy ctx) : Sorted nobody (sub.storeReliableFragment ctx) := by
  obtain ⟨idle, proxy₁, found₁, track, cursor, reaches⟩ := h.spilled found
  have near : steps proxy.track.ackSeqNo (watermarkAfter proxy ctx.seqNo 1) < 2 ^ 30 := by
    obtain ⟨_, w, r, watched⟩ := h.watched _ proxy found
    have window := watched.windowBits_le
    obtain ⟨w', r', watched', arrived⟩ := watched.update 1 past
    have inside := meets.inside
    have near := arrived.near
    have moved := watched.moved watched' arrived.le (by omega)
    unfold watermarkAfter
    omega
  have reaches := reaches _ near meets.reaches
  have sorted := h.spill
  have inside := meets.inside
  have first := meets.first
  rw [← cursor] at first
  unfold watermarkAfter at reaches
  rw [← track] at past unset inside first reaches
  unfold storeReliableFragment reorderStoreFragment
  dsimp only
  generalize sub.fragFastSpill = sub₁ at *
  by_cases long : sub₁.reorderPayloadCapacity < ctx.payload.length
  · rw [if_pos long, if_pos rfl]
    exact sorted.same_ring ⟨rfl, rfl, rfl, rfl, rfl, rfl, rfl, rfl, rfl⟩ rfl
  · rw [if_neg long]
    have close : ∀ i held, sub₁.ring i = some held → held.writer = ctx.writer → Close held.seqNo ctx.seqNo := by
      intro i held here own
      obtain ⟨ahead, _⟩ := sorted.ahead _ proxy₁ found₁ id (fragFastHolds_idle idle _)
      obtain ⟨_, w, r, watched⟩ := sorted.watched _ proxy₁ found₁
      have window := watched.windowBits_le
      have lag := ahead.lag
      unfold farthest at lag
      have := ahead.ahead i held here (own.trans (find_writer found₁).symm)
      have total := steps_trans (show steps proxy₁.reorderCursor proxy₁.track.ackSeqNo +
        steps proxy₁.track.ackSeqNo ctx.seqNo < 2 ^ 32 by omega)
      have here : steps proxy₁.reorderCursor held.seqNo < 2 ^ 29 := by omega
      exact close_of here (by omega)
    have followed := pivotFollowed_spec sorted.counted.some_ sorted.counted.few (sorted.placed _ proxy₁ found₁).base
      ctx.seqNo
    have sets := sets_reorderFollowPivot found₁ ctx.seqNo
    have sorted₂ := sorted.followPivot found₁ close
    generalize pivotFollowed sub₁.reorderSlots proxy₁ ctx.seqNo = proxy₂ at followed sets
    have reaches₂ : Reaches (sub₁.reorderFollowPivot ctx.writer ctx.seqNo) proxy₂ (watermarkAfter proxy₂ ctx.seqNo 1) := by
      intro i held here own
      rw [sets.same.ring] at here
      unfold watermarkAfter Reached
      rw [followed.cursor, followed.track]
      exact reaches i held here (own.trans followed.writer)
    generalize sub₁.reorderFollowPivot ctx.writer ctx.seqNo = sub₂ at *
    have idle₂ : sub₂.fast = none := sets.same.fast.trans idle
    rw [← followed.track] at past unset inside first
    rw [← followed.cursor] at first
    have slot := reorderWriterSlot_eq sets.found ctx.seqNo
    rw [slot]
    by_cases taken : (sub₂.ring (proxy₂.slot sub₂.reorderSlots ctx.seqNo)).isSome
    · rw [if_pos taken, if_pos rfl]
      exact sorted₂.same_ring ⟨rfl, rfl, rfl, rfl, rfl, rfl, rfl, rfl, rfl⟩ rfl
    · rw [if_neg taken, if_neg (by simp)]
      have free : sub₂.ring (proxy₂.slot sub₂.reorderSlots ctx.seqNo) = none := by simpa using taken
      have stored := sorted₂.storeAt idle₂ sets.found free short (followed.reach.trans (by decide)) inside first reaches₂
      have found₃ : (sub₂.occupy (proxy₂.slot sub₂.reorderSlots ctx.seqNo) ctx).findWriterProxy ctx.writer = some proxy₂ :=
        sets.found
      rw [recorded_drains (firstContact_known found₃ ctx.seqNo) found₃ past unset]
      exact stored

theorem release_occupied {slot : Nat} (free : sub.ring slot = none) : (sub.occupy slot ctx).reorderRelease slot = sub := by
  have back : Function.update (Function.update sub.ring slot (some ctx)) slot none = sub.ring := by
    rw [Function.update_idem, ← free, Function.update_eq_self]
  unfold reorderRelease occupy
  dsimp only
  rw [back, Nat.add_sub_cancel]

theorem Sorted.spill_strange (h : Sorted nobody sub) (fresh : sub.findWriterProxy writer = none) :
    sub.fragFastSpill.fast = none ∧ sub.fragFastSpill.findWriterProxy writer = none := by
  cases busy : sub.fast with
  | none =>
    rw [fragFastSpill_idle busy]
    exact ⟨busy, fresh⟩
  | some fast =>
    obtain ⟨p, scratch, _⟩ := h.scratch fast busy
    obtain ⟨p', back⟩ := fragFastSpill_spec h.counted busy scratch.found (h.placed _ _ scratch.found).base
    have ne : writer ≠ fast.writer := by
      intro same
      have found := scratch.found
      rw [← same, fresh] at found
      cases found
    exact ⟨back.idle, (back.others _ ne).trans fresh⟩

/-- A slot taken before the first contact is a slot taken after it. -/
theorem firstContact_occupy {slot : Nat} (fresh : sub.findWriterProxy ctx.writer = none)
    (room : sub.writers.length < sub.peers) :
    (sub.occupy slot ctx).firstContact ctx.writer ctx.seqNo = (sub.firstContact ctx.writer ctx.seqNo).occupy slot ctx := by
  have fresh' : (sub.occupy slot ctx).findWriterProxy ctx.writer = none := fresh
  have open_ : ¬ ((none : Option TrackedWriter).isSome = true ∨ sub.peers ≤ sub.writers.length) := by
    rintro (no | full)
    · cases no
    · omega
  unfold firstContact
  rw [fresh', fresh, if_neg open_]
  exact if_neg open_

/-- The first datagram's slot is the same before its writer is tracked and after. -/
theorem Met.slot (met : Met sub writer seqNo proxy) (counted : sub.Counted) (fresh : sub.findWriterProxy writer = none) :
    sub.reorderWriterSlot writer seqNo = proxy.slot (sub.firstContact writer seqNo).reorderSlots seqNo := by
  have lt := Nat.mod_lt (seqNo + reorderSalt writer).toNat counted.some_
  have few := counted.few
  have base : proxy.reorderBase < 2 ^ 32 := by
    rw [met.base]
    omega
  rw [(sameRing_firstContact sub writer seqNo).slots]
  unfold reorderWriterSlot TrackedWriter.slot
  rw [fresh, met.pivot, BitVec.sub_self, BitVec.zero_add, BitVec.toNat_ofNat, Nat.mod_eq_of_lt base, met.base, Nat.mod_mod]

/-- The first fragment of a writer not tracked yet. -/
theorem Sorted.storeStrange (h : Sorted nobody sub) (fresh : sub.findWriterProxy ctx.writer = none)
    (short : ctx.fragCount ≤ 64) : Sorted nobody (sub.storeReliableFragment ctx) := by
  have sorted := h.spill
  obtain ⟨idle, fresh⟩ := h.spill_strange fresh
  unfold storeReliableFragment reorderStoreFragment
  dsimp only
  generalize sub.fragFastSpill = sub₁ at *
  have same : sub₁.reorderFollowPivot ctx.writer ctx.seqNo = sub₁ := by
    unfold reorderFollowPivot
    rw [fresh]
  by_cases long : sub₁.reorderPayloadCapacity < ctx.payload.length
  · rw [if_pos long, if_pos rfl]
    exact sorted.same_ring ⟨rfl, rfl, rfl, rfl, rfl, rfl, rfl, rfl, rfl⟩ rfl
  · rw [if_neg long, same]
    by_cases taken : (sub₁.ring (sub₁.reorderWriterSlot ctx.writer ctx.seqNo)).isSome
    · rw [if_pos taken, if_pos rfl]
      exact sorted.same_ring ⟨rfl, rfl, rfl, rfl, rfl, rfl, rfl, rfl, rfl⟩ rfl
    · rw [if_neg taken, if_neg (by simp)]
      have free : sub₁.ring (sub₁.reorderWriterSlot ctx.writer ctx.seqNo) = none := by simpa using taken
      have fresh' : (sub₁.occupy (sub₁.reorderWriterSlot ctx.writer ctx.seqNo) ctx).findWriterProxy ctx.writer = none :=
        fresh
      by_cases room : sub₁.writers.length < sub₁.peers
      · obtain ⟨proxy, met⟩ := firstContact_spec sorted.counted sorted.tracking fresh room ctx.seqNo
        obtain ⟨sorted₂, found⟩ := sorted.met fresh met
        have table := @firstContact_occupy sub₁ ctx (sub₁.reorderWriterSlot ctx.writer ctx.seqNo) fresh room
        have slot := met.slot sorted.counted fresh
        have window := met.near
        obtain ⟨w, watched⟩ := met.watched
        have narrow := watched.windowBits_le
        have past : 0 ≤ seqDelta ctx.seqNo proxy.track.ackSeqNo := by
          rw [seqDelta_nonneg]
          omega
        have unset : bit proxy.track.receivedBitmap (steps proxy.track.ackSeqNo ctx.seqNo) ≠ true := by
          intro set
          exact absurd ((watched.bit_iff _).mp set).2 (Finset.notMem_empty _)
        have found' : ((sub₁.firstContact ctx.writer ctx.seqNo).occupy (sub₁.reorderWriterSlot ctx.writer ctx.seqNo)
            ctx).findWriterProxy ctx.writer = some proxy := found
        rw [recorded_drains table found' past unset]
        have ring := (sameRing_firstContact sub₁ ctx.writer ctx.seqNo).ring
        obtain ⟨none_, _⟩ := sorted.strange fresh
        rw [slot] at free ⊢
        apply sorted₂.storeAt (by rw [(sameRing_firstContact sub₁ ctx.writer ctx.seqNo).fast]; exact idle) found
          (by rw [ring]; exact free) short
        · rw [met.pivot, steps_self]
          decide
        · exact window
        · intro _
          rw [met.level]
          exact window
        · intro i held here own
          rw [ring] at here
          exact absurd (own.trans met.name) (none_ i held here)
      · have full : (sub₁.occupy (sub₁.reorderWriterSlot ctx.writer ctx.seqNo) ctx).firstContact ctx.writer ctx.seqNo =
            sub₁.occupy (sub₁.reorderWriterSlot ctx.writer ctx.seqNo) ctx := by
          unfold firstContact
          exact if_pos (.inr (not_lt.mp room))
        have update : (sub₁.occupy (sub₁.reorderWriterSlot ctx.writer ctx.seqNo) ctx).updateReliableAck ctx.writer ctx.seqNo
            1 = (sub₁.occupy (sub₁.reorderWriterSlot ctx.writer ctx.seqNo) ctx, true) := by
          unfold Subscriber.updateReliableAck
          rw [full]
          dsimp only
          rw [fresh']
        rw [update]
        dsimp only
        rw [fresh', if_pos (.inr rfl)]
        have slot : (sub₁.occupy (sub₁.reorderWriterSlot ctx.writer ctx.seqNo) ctx).reorderWriterSlot ctx.writer ctx.seqNo =
          sub₁.reorderWriterSlot ctx.writer ctx.seqNo := rfl
        rw [slot, release_occupied free]
        exact sorted

end Reader

end Tickle
