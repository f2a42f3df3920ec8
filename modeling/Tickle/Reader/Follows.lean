import Tickle.Reader.Tracker

/-! # The proxy follows the tracker

One lemma for each thing that happens to a proxy, and from them the run: from the first contact on, whatever arrives
and is announced, the proxy's bits are the positions recorded, its counts those of the tracker, and the seq_no it takes
as announced one that was.
-/

namespace Tickle

namespace Reader

open Bits Serial Watermark

structure Follows (proxy : WriterProxy) (t : Tracker) : Prop where
  tracks : Tracks proxy t.watermark t.recorded
  window : t.window = 64 * proxy.words
  settled : t.watermark ∉ t.recorded
  abandoned : proxy.gapAbandoned = t.abandoned
  evicted : proxy.gapEvicted = t.evicted
  recordedShown : ∀ p ∈ t.recorded, p < t.shown
  announced : Announced proxy.heartbeatLastSeqNo t.watermark t.shown

/-- The announced seq_no does not lag so far that it could read as ahead. -/
def Fresh (proxy : WriterProxy) : Prop :=
  -WriterProxy.heartbeatStaleLag ≤ seqDelta proxy.heartbeatLastSeqNo proxy.ackSeqNo

variable {proxy proxy' : WriterProxy} {t : Tracker}

/-- A proxy that differs in nothing the tracker knows. -/
theorem Follows.same (follows : Follows proxy t) (track : SameTrack proxy proxy') (rest : Untouched proxy proxy') :
    Follows proxy' t where
  tracks := follows.tracks.same track
  window := by rw [rest.words]; exact follows.window
  settled := follows.settled
  abandoned := by rw [rest.abandoned]; exact follows.abandoned
  evicted := by rw [rest.evicted]; exact follows.evicted
  recordedShown := follows.recordedShown
  announced := by rw [rest.heartbeat]; exact follows.announced

theorem Follows.offset (follows : Follows proxy t) (seqNo : SeqNo) : steps proxy.ackSeqNo seqNo = t.offset seqNo := by
  rw [follows.tracks.ack]
  rfl

theorem Follows.windowBits (follows : Follows proxy t) : proxy.windowBits = t.window := by
  rw [windowBits_eq, follows.window]

theorem Follows.recorded_ahead (follows : Follows proxy t) : ∀ p ∈ t.recorded, p < t.watermark + t.window := by
  rw [follows.window]
  exact follows.tracks.ahead

/-! ## ACKNACKs leave it as it is -/

theorem seqDelta_pred (a : SeqNo) : seqDelta (a - 1) a = -1 := by
  unfold seqDelta
  have one : a - 1 - a = -1 := by ring
  rw [one]
  decide

theorem announced_behind {seqNo : SeqNo} {w : Nat} (shown : Nat) (behind : seqDelta seqNo (wrap w) < 0) :
    Announced seqNo w shown := fun ahead => absurd ahead (not_le.mpr behind)

theorem Follows.pin (follows : Follows proxy t) :
    Follows proxy.pinStaleHeartbeat.1 t ∧ Fresh proxy.pinStaleHeartbeat.1 := by
  unfold WriterProxy.pinStaleHeartbeat
  by_cases stale : seqDelta proxy.heartbeatLastSeqNo proxy.ackSeqNo < -WriterProxy.heartbeatStaleLag
  · rw [if_pos stale]
    constructor
    · exact {
        tracks := follows.tracks.same ⟨rfl, rfl, rfl, rfl⟩
        window := follows.window
        settled := follows.settled
        abandoned := follows.abandoned
        evicted := follows.evicted
        recordedShown := follows.recordedShown
        announced := by
          apply announced_behind
          rw [← follows.tracks.ack, seqDelta_pred]
          decide }
    · change _ ≤ seqDelta (proxy.ackSeqNo - 1) proxy.ackSeqNo
      rw [seqDelta_pred]
      decide
  · rw [if_neg stale]
    exact ⟨follows, not_lt.mp stale⟩

theorem Follows.arm (follows : Follows proxy t) :
    Follows proxy.maybeArmAcknackRetry.1 t ∧ Fresh proxy.maybeArmAcknackRetry.1 := by
  obtain ⟨pinned, fresh⟩ := follows.pin
  unfold WriterProxy.maybeArmAcknackRetry
  simp only
  split
  · exact ⟨pinned.same ⟨rfl, rfl, rfl, rfl⟩ ⟨rfl, rfl, rfl, rfl⟩, fresh⟩
  · split
    · exact ⟨pinned, fresh⟩
    · exact ⟨pinned.same ⟨rfl, rfl, rfl, rfl⟩ ⟨rfl, rfl, rfl, rfl⟩, fresh⟩

theorem askForNewGap_same (proxy : WriterProxy) (armed : Bool) (newGap : Option WriterProxy.NewGapRange) :
    SameTrack proxy (proxy.askForNewGap armed newGap).1 ∧ Untouched proxy (proxy.askForNewGap armed newGap).1 := by
  have refl : SameTrack proxy proxy ∧ Untouched proxy proxy := ⟨⟨rfl, rfl, rfl, rfl⟩, Untouched.refl proxy⟩
  unfold WriterProxy.askForNewGap
  split
  · exact refl
  · split
    · simp only
      split
      · unfold WriterProxy.extendGapToWatermark
        split
        · exact ⟨⟨rfl, rfl, rfl, rfl⟩, ⟨rfl, rfl, rfl, rfl⟩⟩
        · exact refl
      · exact refl
    · exact refl

theorem Fresh.same (fresh : Fresh proxy) (track : SameTrack proxy proxy') (rest : Untouched proxy proxy') : Fresh proxy' := by
  unfold Fresh
  rw [track.ack, rest.heartbeat]
  exact fresh

/-! ## Recording -/

/-- A watermark that a datagram in the window moves stays within the window. -/
theorem settle_within {r : Finset Nat} {w n : Nat} (ahead : ∀ p ∈ r, p < w + n) : settle r w - w ≤ n := by
  have := settle_le ahead (Nat.le_add_right w n)
  omega

theorem Fresh.room (fresh : Fresh proxy) (follows : Follows proxy t) {n : Nat} (within : n ≤ t.window) :
    -2 ^ 31 ≤ seqDelta proxy.heartbeatLastSeqNo (wrap t.watermark) - n := by
  have narrow := follows.tracks.narrow
  have window := follows.window
  unfold Fresh WriterProxy.heartbeatStaleLag at fresh
  rw [follows.tracks.ack] at fresh
  omega

theorem untouched_absorbSeqSpan (proxy : WriterProxy) (firstOffset span : Nat) :
    Untouched proxy (proxy.absorbSeqSpan firstOffset span) := untouched_absorbSeqSpanFrom firstOffset (span - 1) 1 proxy

/-- What a datagram at `p` and its span record. -/
theorem mem_arrived {r : Finset Nat} {w n p span q : Nat} (inside : p < w + n) :
    q ∈ r ∪ Finset.Ico p (min (p + max 1 span) (w + n)) ↔
      q ∈ r ∨ q = p ∨ p + 1 ≤ q ∧ q < min (p + 1 + (span - 1)) (w + n) := by
  rw [Finset.mem_union, Finset.mem_Ico]
  exact or_congr_right (by omega)

theorem Follows.recordInOrder (follows : Follows proxy t) (fresh : Fresh proxy) (span : Nat) :
    Follows (proxy.absorbSeqSpan 0 span).advanceAckSeqNo (t.arrive t.watermark span) := by
  have positive := follows.tracks.positive
  have inside : t.watermark < t.watermark + t.window := by
    rw [follows.window]
    omega
  have rest := (untouched_absorbSeqSpan proxy 0 span).trans (untouched_advanceAckSeqNo _)
  have spanned : Tracks (proxy.absorbSeqSpan 0 span) t.watermark _ := follows.tracks.absorbSeqSpanFrom
  have advanced := spanned.advanceAckSeqNo
  unfold Tracker.arrive
  rw [if_pos inside]
  generalize whole : t.recorded ∪ Finset.Ico t.watermark (min (t.watermark + max 1 span) (t.watermark + t.window)) = r'
  have member : ∀ q, q ∈ r' ↔ _ := fun q => whole ▸ mem_arrived inside
  have here : t.watermark ∈ r' := (member _).mpr (Or.inr (Or.inl rfl))
  have same : ∀ q, t.watermark + 1 ≤ q → (q ∈ t.recorded ∪ Finset.Ico (t.watermark + 0 + 1)
      (min (t.watermark + 0 + 1 + (span - 1)) (t.watermark + 64 * proxy.words)) ↔ q ∈ r') := by
    intro q after
    rw [member, Finset.mem_union, Finset.mem_Ico, ← follows.window]
    exact or_congr_right (by omega)
  have next : settle r' t.watermark = settle (t.recorded ∪ Finset.Ico (t.watermark + 0 + 1)
      (min (t.watermark + 0 + 1 + (span - 1)) (t.watermark + 64 * proxy.words))) (t.watermark + 1) := by
    rw [settle_of_mem here, settle_congr same]
  have ahead : ∀ p ∈ r', p < t.watermark + t.window := by
    intro p recorded
    obtain old | rfl | new := (member p).mp recorded
    · exact follows.recorded_ahead p old
    · exact inside
    · omega
  exact {
    tracks := by
      simp only [next]
      apply advanced.ahead_only
      intro q after
      exact same q ((le_settle _ _).trans after)
    window := by
      simp only
      rw [rest.words]
      exact follows.window
    settled := settle_notMem _ _
    abandoned := by rw [rest.abandoned]; exact follows.abandoned
    evicted := by rw [rest.evicted]; exact follows.evicted
    recordedShown := by
      intro p recorded
      simp only at recorded ⊢
      rw [lt_max_iff]
      obtain old | new := (member p).mp recorded
      · exact Or.inl (follows.recordedShown p old)
      · exact Or.inr (by omega)
    announced := by
      have within := settle_within ahead
      have moved := follows.announced.move (fresh.room follows within)
      simp only
      rw [Nat.add_sub_cancel' (le_settle _ _)] at moved
      rw [rest.heartbeat]
      exact moved.mono (Nat.le_max_left _ _) }

/-- A datagram past the watermark, recorded once. -/
theorem Tracks.recordOutOfOrder {w offset : Nat} {r : Finset Nat} (tracks : Tracks proxy w r)
    (inside : offset < 64 * proxy.words) :
    Tracks (proxy.recordOutOfOrderArrival offset).1 w (insert (w + offset) r) := by
  unfold WriterProxy.recordOutOfOrderArrival
  rw [bitmapTestBit_eq]
  by_cases set : bit proxy.receivedBitmap offset = true
  · rw [if_pos set, Finset.insert_eq_of_mem ((tracks.bits _).mp set).2]
    exact tracks
  · rw [if_neg set]
    exact tracks.mark inside

theorem Follows.recordAhead (follows : Follows proxy t) (span : Nat) {offset : Nat} (ahead : 0 < offset)
    (inside : offset < t.window) :
    Follows ((proxy.recordOutOfOrderArrival offset).1.absorbSeqSpan offset span)
      (t.arrive (t.watermark + offset) span) := by
  have within : t.watermark + offset < t.watermark + t.window := by omega
  have first := untouched_recordOutOfOrderArrival proxy offset
  have rest := first.trans (untouched_absorbSeqSpan _ offset span)
  have marked := follows.tracks.recordOutOfOrder (follows.window ▸ inside)
  have spanned : Tracks ((proxy.recordOutOfOrderArrival offset).1.absorbSeqSpan offset span) t.watermark _ :=
    marked.absorbSeqSpanFrom
  unfold Tracker.arrive
  rw [if_pos within]
  generalize whole : t.recorded ∪ Finset.Ico (t.watermark + offset)
    (min (t.watermark + offset + max 1 span) (t.watermark + t.window)) = r'
  have member : ∀ q, q ∈ r' ↔ _ := fun q => whole ▸ mem_arrived within
  have gap : t.watermark ∉ r' := by
    rw [member]
    have := follows.settled
    rintro (old | new)
    · exact this old
    · omega
  exact {
    tracks := by
      simp only [settle_of_notMem gap]
      apply spanned.ahead_only
      intro q _
      rw [member, Finset.mem_union, Finset.mem_insert, Finset.mem_Ico, first.words, ← follows.window,
        or_comm (a := q = _), or_assoc]
    window := by
      simp only
      rw [rest.words]
      exact follows.window
    settled := settle_notMem _ _
    abandoned := by rw [rest.abandoned]; exact follows.abandoned
    evicted := by rw [rest.evicted]; exact follows.evicted
    recordedShown := by
      intro p recorded
      simp only at recorded ⊢
      rw [lt_max_iff]
      obtain old | new := (member p).mp recorded
      · exact Or.inl (follows.recordedShown p old)
      · exact Or.inr (by omega)
    announced := by
      simp only [settle_of_notMem gap]
      rw [rest.heartbeat]
      exact follows.announced.mono (Nat.le_max_left _ _) }

/-! ## Jumps -/

/-- What a jump leaves: only the watermark, what it gave up on and, if it lay behind, the announced seq_no. -/
theorem jumpAckBaseline_fields (proxy : WriterProxy) (seqNo : SeqNo) :
    let proxy' := proxy.jumpAckBaseline seqNo
    proxy'.words = proxy.words ∧ proxy'.gapEvicted = proxy.gapEvicted ∧
      proxy'.gapAbandoned = proxy.gapAbandoned + (if seqDelta proxy.ackSeqNo seqNo < 0 then
        steps proxy.ackSeqNo seqNo - proxy.receivedInFirst (steps proxy.ackSeqNo seqNo) else 0) ∧
      proxy'.heartbeatLastSeqNo = (proxy.moveAck seqNo).heartbeatLastSeqNo := by
  simp only
  unfold WriterProxy.jumpAckBaseline
  simp only
  have rest := untouched_advanceAckSeqNo (((if seqDelta proxy.ackSeqNo seqNo < 0 then
    { proxy with gapAbandoned := proxy.gapAbandoned +
      (steps proxy.ackSeqNo seqNo - proxy.receivedInFirst (steps proxy.ackSeqNo seqNo)) }
    else proxy).moveAck seqNo).clearReceived)
  rw [rest.words, rest.evicted, rest.abandoned, rest.heartbeat]
  split
  · exact ⟨rfl, rfl, rfl, rfl⟩
  · exact ⟨rfl, rfl, rfl, rfl⟩

/-- The announced seq_no when the watermark is put `n` further and goes on by `m` from there. -/
theorem Announced.moveAck {w n m shown : Nat} (known : Announced proxy.heartbeatLastSeqNo w shown)
    (ack : proxy.ackSeqNo = wrap w) (near : n + m ≤ 2 ^ 31) (less : m < 2 ^ 31) :
    Announced (proxy.moveAck (wrap (w + n))).heartbeatLastSeqNo (w + n + m) shown := by
  unfold WriterProxy.moveAck
  simp only
  rw [ack]
  by_cases behind : seqDelta proxy.heartbeatLastSeqNo (wrap w) < 0
  · rw [if_pos behind]
    have pinned : Announced (wrap (w + n) - 1) (w + n) shown := by
      apply announced_behind
      rw [seqDelta_pred]
      decide
    apply pinned.move
    rw [seqDelta_pred]
    omega
  · rw [if_neg behind, Nat.add_assoc]
    exact known.move (by push_cast; omega)

theorem Follows.jump (follows : Follows proxy t) {n : Nat} (far : t.window ≤ n) (near : n < 2 ^ 31) :
    Tracks (proxy.jumpAckBaseline (wrap (t.watermark + n))) (t.watermark + n + 1) t.recorded ∧
      (proxy.jumpAckBaseline (wrap (t.watermark + n))).gapAbandoned = t.abandoned + t.givenUp (t.watermark + n) := by
  have positive := follows.tracks.positive
  have window := follows.window
  have past : ∀ p ∈ t.recorded, p < t.watermark + n := by
    intro p member
    have := follows.recorded_ahead p member
    omega
  refine ⟨follows.tracks.jumped past, ?_⟩
  obtain ⟨-, -, abandoned, -⟩ := jumpAckBaseline_fields proxy (wrap (t.watermark + n))
  have apart : steps proxy.ackSeqNo (wrap (t.watermark + n)) = n := by
    rw [follows.tracks.ack, wrap_add]
    exact steps_plus _ (by omega)
  have back : seqDelta proxy.ackSeqNo (wrap (t.watermark + n)) < 0 := by
    rw [seqDelta_neg]
    have other : wrap (t.watermark + n) ≠ proxy.ackSeqNo := by
      intro same
      rw [← same, steps_self] at apart
      omega
    have := steps_swap other
    omega
  rw [abandoned, if_pos back, apart, follows.tracks.receivedInFirst, follows.abandoned, Tracker.givenUp,
    Nat.add_sub_cancel_left]

theorem Follows.recordFar (follows : Follows proxy t) (span : Nat) {n : Nat} (far : t.window ≤ n) (near : n < 2 ^ 31) :
    Follows (proxy.jumpAckBaseline (wrap (t.watermark + n))) (t.arrive (t.watermark + n) span) := by
  obtain ⟨tracks, abandoned⟩ := follows.jump far near
  obtain ⟨words, evicted, -, heartbeat⟩ := jumpAckBaseline_fields proxy (wrap (t.watermark + n))
  have out : ¬ t.watermark + n < t.watermark + t.window := by omega
  unfold Tracker.arrive
  rw [if_neg out]
  exact {
    tracks := by
      apply tracks.ahead_only
      intro p past
      rw [Finset.mem_insert, or_iff_right (by omega)]
    window := by
      simp only
      rw [words]
      exact follows.window
    settled := by
      change t.watermark + n + 1 ∉ insert (t.watermark + n) t.recorded
      rw [Finset.mem_insert, not_or]
      refine ⟨by omega, fun member => ?_⟩
      have := follows.recorded_ahead _ member
      omega
    abandoned := abandoned
    evicted := by rw [evicted]; exact follows.evicted
    recordedShown := by
      intro p recorded
      simp only at recorded ⊢
      rw [lt_max_iff]
      obtain rfl | old := Finset.mem_insert.mp recorded
      · exact Or.inr (Nat.lt_succ_self _)
      · exact Or.inl (follows.recordedShown p old)
    announced := by
      rw [heartbeat]
      exact (follows.announced.moveAck (m := 1) follows.tracks.ack near (by decide)).mono (Nat.le_max_left _ _) }

/-- `update_reliable_ack`, up to what it sends. -/
theorem Follows.recordArrival (follows : Follows proxy t) (fresh : Fresh proxy) {seqNo : SeqNo} (span : Nat)
    (near : t.offset seqNo < 2 ^ 31) :
    Follows (proxy.recordArrival seqNo span).1 (t.arrive (t.watermark + t.offset seqNo) span) := by
  unfold WriterProxy.recordArrival
  rw [follows.offset, follows.windowBits]
  by_cases inOrder : seqNo = proxy.ackSeqNo
  · rw [if_pos inOrder]
    have zero : t.offset seqNo = 0 := by rw [← follows.offset, inOrder, steps_self]
    rw [zero]
    exact follows.recordInOrder fresh span
  · rw [if_neg inOrder]
    have ahead : 0 < t.offset seqNo := by
      rw [← follows.offset, Nat.pos_iff_ne_zero, Ne, steps_eq_zero]
      exact fun same => inOrder same.symm
    by_cases inside : t.offset seqNo < t.window
    · rw [if_pos inside]
      exact follows.recordAhead span ahead inside
    · rw [if_neg inside]
      have jumped := follows.recordFar span (not_lt.mp inside) near
      have place : wrap (t.watermark + t.offset seqNo) = seqNo := wrap_steps _ _
      rw [place] at jumped
      exact jumped

/-! ## HEARTBEATs -/

theorem Follows.jumpToAnnounced (follows : Follows proxy t) {seqNo : SeqNo} (near : t.offset seqNo < 2 ^ 31) :
    Follows (proxy.jumpToAnnounced seqNo) (t.announce (t.watermark + t.offset seqNo)) := by
  have ahead : 0 ≤ seqDelta seqNo proxy.ackSeqNo := by
    rw [seqDelta_nonneg, follows.offset]
    exact near
  unfold WriterProxy.jumpToAnnounced Tracker.announce
  rw [follows.offset, follows.windowBits]
  by_cases inside : t.offset seqNo < t.window
  · rw [if_neg (by omega), if_pos (by omega)]
    exact {
      tracks := follows.tracks
      window := follows.window
      settled := follows.settled
      abandoned := follows.abandoned
      evicted := follows.evicted
      recordedShown := fun p recorded => (follows.recordedShown p recorded).trans_le (Nat.le_max_left _ _)
      announced := follows.announced.mono (Nat.le_max_left _ _) }
  · rw [if_pos ⟨ahead, not_lt.mp inside⟩, if_neg (by omega)]
    have jumped := follows.jump (not_lt.mp inside) near
    have fields := jumpAckBaseline_fields proxy (wrap (t.watermark + t.offset seqNo))
    have place : wrap (t.watermark + t.offset seqNo) = seqNo := wrap_steps _ _
    have known := follows.announced.moveAck (m := 1) follows.tracks.ack near (by decide)
    rw [place] at jumped fields known
    obtain ⟨words, evicted, -, heartbeat⟩ := fields
    exact {
      tracks := jumped.1
      window := by
        simp only
        rw [words]
        exact follows.window
      settled := by
        intro member
        have : t.watermark + t.offset seqNo + 1 < t.watermark + t.window := follows.recorded_ahead _ member
        omega
      abandoned := jumped.2
      evicted := by rw [evicted]; exact follows.evicted
      recordedShown := fun p recorded => (follows.recordedShown p recorded).trans_le (Nat.le_max_left _ _)
      announced := by
        rw [heartbeat]
        exact known.mono (Nat.le_max_left _ _) }

/-- The seq_no of a HEARTBEAT taken over. -/
theorem Follows.note (follows : Follows proxy t) {seqNo : SeqNo} (shown : Announced seqNo t.watermark t.shown) :
    Follows (if seqDelta proxy.heartbeatLastSeqNo seqNo < 0 then { proxy with heartbeatLastSeqNo := seqNo } else proxy) t := by
  split
  · exact {
      tracks := follows.tracks.same ⟨rfl, rfl, rfl, rfl⟩
      window := follows.window
      settled := follows.settled
      abandoned := follows.abandoned
      evicted := follows.evicted
      recordedShown := follows.recordedShown
      announced := shown }
  · exact follows

/-- `advance_past_unavailable` moves a watermark that lies behind. -/
theorem Follows.behind_iff (follows : Follows proxy t) (seqNo : SeqNo) :
    ¬ 0 ≤ seqDelta proxy.ackSeqNo seqNo ↔ 1 ≤ t.offset seqNo ∧ t.offset seqNo ≤ 2 ^ 31 := by
  rw [not_le, seqDelta_neg, ← follows.offset]
  by_cases same : proxy.ackSeqNo = seqNo
  · rw [same, steps_self]
    decide
  · have apart := steps_swap same
    have some_ : steps proxy.ackSeqNo seqNo ≠ 0 := fun zero => same (steps_eq_zero.mp zero)
    omega

theorem untouched_rebase (proxy : WriterProxy) (n : Nat) : Untouched proxy (proxy.rebase n) := by
  unfold WriterProxy.rebase
  split
  · exact ⟨rfl, rfl, rfl, rfl⟩
  · exact ⟨rfl, rfl, rfl, rfl⟩

theorem rebase_ackSeqNo (proxy : WriterProxy) (n : Nat) : (proxy.rebase n).ackSeqNo = proxy.ackSeqNo := by
  unfold WriterProxy.rebase
  split
  · rfl
  · rfl

theorem Tracks.rebase {w n : Nat} {r : Finset Nat} (tracks : Tracks proxy w r) :
    Tracks ((proxy.rebase n).moveAck (wrap (w + n))) (w + n) r := by
  unfold WriterProxy.rebase
  rw [windowBits_eq]
  by_cases inside : n < 64 * proxy.words
  · rw [if_pos inside]
    have shifted : Tracks { proxy with
        receivedBitmap := bitmapShiftRight proxy.receivedBitmap proxy.words n, ackSeqNo := wrap (w + n) } (w + n) r := by
      apply tracks.shifted
      intro j
      have clear : ∀ i, 64 * proxy.words ≤ i → bit proxy.receivedBitmap i = false := by
        intro i past
        rw [← Bool.not_eq_true, tracks.bits]
        omega
      rw [bit_shiftRight]
      by_cases here : j < 64 * proxy.words
      · rw [if_pos here]
        by_cases there : j + n < 64 * proxy.words
        · simp [there]
        · simp [there, clear (j + n) (by omega)]
      · rw [if_neg here, clear j (by omega), clear (j + n) (by omega)]
    exact shifted.trim.same ⟨rfl, rfl, rfl, rfl⟩
  · rw [if_neg inside]
    have past : ∀ p ∈ r, p < w + n := by
      intro p member
      have := tracks.ahead p member
      omega
    exact (tracks.cleared past).same ⟨rfl, rfl, rfl, rfl⟩

/-- What is absorbed behind a new base lies in the window. -/
theorem Follows.absorbed (follows : Follows proxy t) {n : Nat} (near : n ≤ 2 ^ 31) :
    n + (settle t.recorded (t.watermark + n) - (t.watermark + n)) ≤ 2 ^ 31 ∧
      settle t.recorded (t.watermark + n) - (t.watermark + n) < 2 ^ 31 := by
  have narrow := follows.tracks.narrow
  have window := follows.window
  by_cases inside : n < t.window
  · have := settle_le follows.recorded_ahead (show t.watermark + n ≤ t.watermark + t.window by omega)
    have := le_settle t.recorded (t.watermark + n)
    omega
  · have gap : t.watermark + n ∉ t.recorded := by
      intro member
      have := follows.recorded_ahead _ member
      omega
    rw [settle_of_notMem gap]
    omega

theorem Follows.evictTo (follows : Follows proxy t) (seqNo : SeqNo) :
    Follows (proxy.advancePastUnavailable seqNo) (t.evictTo seqNo) := by
  unfold WriterProxy.advancePastUnavailable Tracker.evictTo
  by_cases behind : 1 ≤ t.offset seqNo ∧ t.offset seqNo ≤ 2 ^ 31
  · rw [if_neg ((follows.behind_iff seqNo).mpr behind), if_pos behind]
    have place : wrap (t.watermark + t.offset seqNo) = seqNo := wrap_steps _ _
    simp only [follows.offset, follows.tracks.receivedInFirst]
    generalize counted : { proxy with gapEvicted := proxy.gapEvicted +
      (t.offset seqNo - passed t.recorded t.watermark (t.watermark + t.offset seqNo)) } = proxy₁
    have tracks₁ : Tracks proxy₁ t.watermark t.recorded := by
      rw [← counted]
      exact follows.tracks.same ⟨rfl, rfl, rfl, rfl⟩
    have heartbeat : proxy₁.heartbeatLastSeqNo = proxy.heartbeatLastSeqNo := by rw [← counted]
    have rebased := tracks₁.rebase (n := t.offset seqNo)
    have kept := untouched_rebase proxy₁ (t.offset seqNo)
    have known : Announced (proxy₁.rebase (t.offset seqNo)).heartbeatLastSeqNo t.watermark t.shown := by
      rw [kept.heartbeat, heartbeat]
      exact follows.announced
    obtain ⟨near, less⟩ := follows.absorbed behind.2
    have moved := known.moveAck ((rebase_ackSeqNo proxy₁ _).trans tracks₁.ack) near less
    rw [place] at rebased moved
    have rest := untouched_absorb ((proxy₁.rebase (t.offset seqNo)).moveAck seqNo)
    exact {
      tracks := rebased.absorb
      window := by
        rw [rest.words]
        change t.window = 64 * (proxy₁.rebase (t.offset seqNo)).words
        rw [kept.words, ← counted]
        exact follows.window
      settled := settle_notMem _ _
      abandoned := by
        rw [rest.abandoned]
        change (proxy₁.rebase (t.offset seqNo)).gapAbandoned = t.abandoned
        rw [kept.abandoned, ← counted]
        exact follows.abandoned
      evicted := by
        rw [rest.evicted]
        change (proxy₁.rebase (t.offset seqNo)).gapEvicted = t.evicted + t.givenUp _
        rw [kept.evicted, ← counted, Tracker.givenUp, Nat.add_sub_cancel_left, ← follows.evicted]
      recordedShown := follows.recordedShown
      announced := by
        rw [rest.heartbeat]
        rw [Nat.add_sub_cancel' (le_settle _ _)] at moved
        exact moved }
  · rw [if_pos (not_not.mp fun moved => behind ((follows.behind_iff seqNo).mp moved)), if_neg behind]
    exact follows

/-! ## Un-receiving -/

theorem Follows.forget (follows : Follows proxy t) (n : Nat) {words : Nat}
    (tracks : Tracks { proxy with
      receivedBitmap := bitmapClearBit proxy.receivedBitmap n, receivedWords := words } t.watermark
        (t.recorded.erase (t.watermark + n))) :
    Follows { proxy with receivedBitmap := bitmapClearBit proxy.receivedBitmap n, receivedWords := words }
      (t.forget (t.watermark + n)) where
  tracks := tracks
  window := follows.window
  settled := fun member => follows.settled (Finset.mem_of_mem_erase member)
  abandoned := follows.abandoned
  evicted := follows.evicted
  recordedShown := fun p member => follows.recordedShown p (Finset.mem_of_mem_erase member)
  announced := follows.announced

theorem Follows.unreceive (follows : Follows proxy t) (seqNo : SeqNo) :
    Follows (proxy.unreceive seqNo) (t.forgetAt seqNo) := by
  unfold WriterProxy.unreceive Tracker.forgetAt
  rw [follows.offset, follows.windowBits]
  simp only
  split
  · exact follows.forget _ (follows.tracks.clearBit _).trim
  · exact follows

theorem Follows.unrecord (follows : Follows proxy t) (seqNo : SeqNo) :
    Follows (proxy.unrecord seqNo) (t.forgetAt seqNo) := by
  unfold WriterProxy.unrecord Tracker.forgetAt
  rw [follows.offset, follows.windowBits]
  simp only
  split
  · exact follows.forget _ (follows.tracks.clearBit _)
  · exact follows

/-! ## Steps and runs -/

theorem fresh_unreceive (proxy : WriterProxy) (seqNo : SeqNo) (fresh : Fresh proxy) : Fresh (proxy.unreceive seqNo) := by
  unfold WriterProxy.unreceive
  simp only
  split
  · exact fresh
  · exact fresh

theorem fresh_unrecord (proxy : WriterProxy) (seqNo : SeqNo) (fresh : Fresh proxy) : Fresh (proxy.unrecord seqNo) := by
  unfold WriterProxy.unrecord
  simp only
  split
  · exact fresh
  · exact fresh

/-- What a HEARTBEAT announces, wherever the watermark ends up. -/
theorem Follows.announceTo (follows : Follows proxy t) (seqNo : SeqNo) (isFinal : Bool) (skips : List AcknackSkip) :
    Follows ((proxy.jumpToAnnounced seqNo).noteAnnounced seqNo isFinal skips).1 (t.announceTo seqNo) ∧
      Fresh ((proxy.jumpToAnnounced seqNo).noteAnnounced seqNo isFinal skips).1 := by
  have both : Follows (proxy.jumpToAnnounced seqNo) (t.announceTo seqNo) ∧
      Announced seqNo (t.announceTo seqNo).watermark (t.announceTo seqNo).shown := by
    unfold Tracker.announceTo
    by_cases near : t.offset seqNo < 2 ^ 31
    · rw [if_pos near]
      refine ⟨follows.jumpToAnnounced near, ?_⟩
      unfold Tracker.announce
      split
      · intro _
        have ahead : seqDelta seqNo (wrap t.watermark) = t.offset seqNo := seqDelta_eq_steps near
        simp only [ahead, Int.toNat_natCast]
        omega
      · apply announced_behind
        have place : seqNo = wrap (t.watermark + t.offset seqNo) := (wrap_steps _ _).symm
        have last : wrap (t.watermark + t.offset seqNo + 1) - 1 = seqNo := by
          rw [wrap_succ, ← place]
          ring
        have back := seqDelta_pred (wrap (t.watermark + t.offset seqNo + 1))
        rw [last] at back
        change seqDelta seqNo (wrap (t.watermark + t.offset seqNo + 1)) < 0
        omega
    · rw [if_neg near]
      have late : seqDelta seqNo (wrap t.watermark) < 0 := (seqDelta_neg _ _).mpr (not_lt.mp near)
      refine ⟨?_, announced_behind _ late⟩
      unfold WriterProxy.jumpToAnnounced
      rw [follows.tracks.ack, if_neg fun jumps => absurd jumps.1 (not_le.mpr late)]
      exact follows
  unfold WriterProxy.noteAnnounced
  exact (both.1.note both.2).arm

/-- Announcing up to a seq_no shows the positions below it. -/
theorem Follows.shows (follows : Follows proxy t) (seqNo : SeqNo) :
    Follows proxy (t.show_ seqNo) ∧ Announced seqNo (t.show_ seqNo).watermark (t.show_ seqNo).shown := by
  unfold Tracker.show_
  by_cases near : t.offset seqNo < 2 ^ 31
  · rw [if_pos near]
    constructor
    · exact {
        tracks := follows.tracks
        window := follows.window
        settled := follows.settled
        abandoned := follows.abandoned
        evicted := follows.evicted
        recordedShown := fun p recorded => (follows.recordedShown p recorded).trans_le (Nat.le_max_left _ _)
        announced := follows.announced.mono (Nat.le_max_left _ _) }
    · intro _
      have ahead : seqDelta seqNo (wrap t.watermark) = t.offset seqNo := seqDelta_eq_steps near
      simp only [ahead, Int.toNat_natCast]
      omega
  · rw [if_neg near]
    exact ⟨follows, announced_behind _ ((seqDelta_neg _ _).mpr (not_lt.mp near))⟩

theorem Follows.noteDeclined (follows : Follows proxy t) (fresh : Fresh proxy) (seqNo : SeqNo) :
    Follows (proxy.noteDeclined seqNo) (t.show_ seqNo) ∧ Fresh (proxy.noteDeclined seqNo) := by
  obtain ⟨shown, announced⟩ := follows.shows seqNo
  have noted := shown.note announced
  unfold WriterProxy.noteDeclined
  by_cases late : seqDelta seqNo proxy.ackSeqNo < 0
  · rw [if_pos late]
    exact ⟨shown, fresh⟩
  · rw [if_neg late]
    refine ⟨noted.same ⟨rfl, rfl, rfl, rfl⟩ ⟨rfl, rfl, rfl, rfl⟩, ?_⟩
    unfold Fresh
    simp only
    split
    · change _ ≤ seqDelta seqNo proxy.ackSeqNo
      unfold WriterProxy.heartbeatStaleLag
      omega
    · exact fresh

theorem Follows.step (follows : Follows proxy t) (fresh : Fresh proxy) (event : Event) :
    Follows (proxy.step event) (t.step event) ∧ Fresh (proxy.step event) := by
  cases event with
  | arrival seqNo span =>
    simp only [WriterProxy.step, Tracker.step]
    unfold WriterProxy.updateReliableAck
    by_cases near : t.offset seqNo < 2 ^ 31
    · have ahead : ¬ seqDelta seqNo proxy.ackSeqNo < 0 := by
        rw [seqDelta_neg, follows.offset]
        omega
      rw [if_neg ahead, if_pos near]
      obtain ⟨armed, kept⟩ := (follows.recordArrival fresh span near).arm
      obtain ⟨track, rest⟩ := askForNewGap_same (proxy.recordArrival seqNo span).1.maybeArmAcknackRetry.1
        (proxy.recordArrival seqNo span).1.acknackScheduled (proxy.recordArrival seqNo span).2.2
      exact ⟨armed.same track rest, kept.same track rest⟩
    · have late : seqDelta seqNo proxy.ackSeqNo < 0 := by
        rw [seqDelta_neg, follows.offset]
        omega
      rw [if_pos late, if_neg near]
      exact ⟨follows, fresh⟩
  | heartbeat firstAvailableSeqNo lastSeqNo isFinal skips =>
    simp only [WriterProxy.step, Tracker.step]
    unfold WriterProxy.informOfHeartbeat
    exact (follows.evictTo firstAvailableSeqNo).announceTo lastSeqNo isFinal skips
  | declined seqNo => exact follows.noteDeclined fresh seqNo
  | unreceive seqNo => exact ⟨follows.unreceive seqNo, fresh_unreceive proxy seqNo fresh⟩
  | unrecord seqNo => exact ⟨follows.unrecord seqNo, fresh_unrecord proxy seqNo fresh⟩

/-- The first contact with a writer, through a datagram of it or a HEARTBEAT. -/
inductive Contact : WriterProxy → Tracker → Prop
  | data {words : Nat} (positive : 0 < words) (narrow : words < 2 ^ 16) (durable : Bool) (seqNo : SeqNo) :
    Contact (WriterProxy.takeFirstContactBaseline durable (WriterProxy.create words) seqNo)
      (Tracker.start (64 * words)
        (WriterProxy.takeFirstContactBaseline durable (WriterProxy.create words) seqNo).ackSeqNo.toNat)
  | heartbeat {words : Nat} (positive : 0 < words) (narrow : words < 2 ^ 16) (durable : Bool)
      (firstAvailableSeqNo lastSeqNo : SeqNo) (isFinal : Bool) (skips : List AcknackSkip) :
    Contact
      (WriterProxy.meetByHeartbeat durable (WriterProxy.create words) firstAvailableSeqNo lastSeqNo isFinal skips).1
      ((Tracker.start (64 * words) (if durable then firstAvailableSeqNo else lastSeqNo + 1).toNat).show_ lastSeqNo)

theorem wrap_toNat (seqNo : SeqNo) : wrap seqNo.toNat = seqNo := by
  unfold wrap
  rw [BitVec.ofNat_toNat]
  exact BitVec.setWidth_eq seqNo

/-- A proxy with nothing recorded yet. -/
theorem tracks_empty {w : Nat} (positive : 0 < proxy.words) (narrow : proxy.words < 2 ^ 16)
    (ack : proxy.ackSeqNo = wrap w) (clear : proxy.receivedBitmap = none_) (unused : proxy.receivedWords = 0) :
    Tracks proxy w ∅ where
  positive := positive
  narrow := narrow
  ack := ack
  bits := by
    intro j
    rw [clear, bit_none]
    simp
  used := by
    intro j _
    rw [clear, bit_none]
  inUse := by
    rw [unused]
    exact Nat.zero_le _
  ahead := fun p member => absurd member (Finset.notMem_empty p)

theorem create_heartbeat (words : Nat) (seqNo : SeqNo) :
    ((WriterProxy.create words).moveAck seqNo).heartbeatLastSeqNo = seqNo - 1 := by
  have behind : seqDelta (0 : SeqNo) 1 < 0 := by decide
  change (if seqDelta (0 : SeqNo) 1 < 0 then seqNo - 1 else 0) = seqNo - 1
  rw [if_pos behind]

/-- A proxy at its baseline, with the announced seq_no just behind it. -/
theorem follows_start {w : Nat} (tracks : Tracks proxy w ∅) (abandoned : proxy.gapAbandoned = 0)
    (evicted : proxy.gapEvicted = 0) (behind : seqDelta proxy.heartbeatLastSeqNo (wrap w) = -1) :
    Follows proxy (Tracker.start (64 * proxy.words) w) ∧ Fresh proxy := by
  constructor
  · exact {
      tracks
      window := rfl
      settled := Finset.notMem_empty _
      abandoned
      evicted
      recordedShown := fun p member => absurd member (Finset.notMem_empty p)
      announced := by
        apply announced_behind
        change seqDelta proxy.heartbeatLastSeqNo (wrap w) < 0
        omega }
  · unfold Fresh
    rw [tracks.ack, behind]
    decide

theorem create_moveAck_follows {words : Nat} (positive : 0 < words) (narrow : words < 2 ^ 16) (seqNo : SeqNo) :
    Follows ((WriterProxy.create words).moveAck seqNo) (Tracker.start (64 * words) seqNo.toNat) ∧
      Fresh ((WriterProxy.create words).moveAck seqNo) := by
  have tracks : Tracks ((WriterProxy.create words).moveAck seqNo) seqNo.toNat ∅ :=
    tracks_empty positive narrow (wrap_toNat seqNo).symm rfl rfl
  apply follows_start tracks rfl rfl
  rw [create_heartbeat, wrap_toNat, seqDelta_pred]

theorem contact_follows (contact : Contact proxy t) : Follows proxy t ∧ Fresh proxy := by
  cases contact with
  | @data words positive narrow durable seqNo =>
    unfold WriterProxy.takeFirstContactBaseline
    split
    · have tracks : Tracks (WriterProxy.create words) (WriterProxy.create words).ackSeqNo.toNat ∅ :=
        tracks_empty positive narrow (wrap_toNat _).symm rfl rfl
      have behind : seqDelta (0 : SeqNo) 1 = -1 := by decide
      exact follows_start tracks rfl rfl (by rw [wrap_toNat]; exact behind)
    · exact create_moveAck_follows positive narrow seqNo
  | @heartbeat words positive narrow durable first last isFinal skips =>
    unfold WriterProxy.meetByHeartbeat WriterProxy.noteAnnounced
    obtain ⟨moved, -⟩ := create_moveAck_follows positive narrow (if durable then first else last + 1)
    generalize baseline : (if durable then first else last + 1) = ack at moved ⊢
    have clear : bitmapClear none_ words = none_ := by
      apply ext_bit
      intro i
      rw [bit_clear, bit_none, Bool.and_false]
    have cleared : Follows ((WriterProxy.create words).moveAck ack).clearReceived
        (Tracker.start (64 * words) ack.toNat) := moved.same ⟨rfl, rfl, clear, rfl⟩ ⟨rfl, rfl, rfl, rfl⟩
    obtain ⟨shown, announced⟩ := cleared.shows last
    exact (shown.note announced).arm

/-- From the first contact on, the proxy follows the tracker over every run. -/
theorem follows_after (contact : Contact proxy t) (events : List Event) :
    Follows (Run.after WriterProxy.step proxy events) (Run.after Tracker.step t events) ∧
      Fresh (Run.after WriterProxy.step proxy events) := by
  obtain ⟨follows, fresh⟩ := contact_follows contact
  clear contact
  induction events generalizing proxy t with
  | nil => exact ⟨follows, fresh⟩
  | cons event rest ih =>
    obtain ⟨next, kept⟩ := follows.step fresh event
    exact ih next kept

end Reader

end Tickle
