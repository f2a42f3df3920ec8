import Tickle.Reader.Follows

/-! # The watermark and what is recorded past it

What an arrival, a HEARTBEAT and an un-received datagram do to the watermark of a writer and to what is recorded past it,
with no word on what was announced: positions only grow, and a position recorded stays recorded unless it is the one
un-received.
-/

namespace Tickle

namespace Reader

open Bits Serial Watermark

variable {proxy proxy' : WriterProxy} {w w' : Nat} {r r' : Finset Nat} {seqNo : SeqNo}

/-- The proxy's watermark is position `w`, not recorded itself, and `r` is recorded past it. -/
structure Watched (proxy : WriterProxy) (w : Nat) (r : Finset Nat) : Prop where
  tracks : Tracks proxy w r
  settled : w ∉ r

theorem Watched.same (watched : Watched proxy w r) (same : SameTrack proxy proxy') : Watched proxy' w r :=
  ⟨watched.tracks.same same, watched.settled⟩

theorem Watched.windowBits_le (watched : Watched proxy w r) : 64 ≤ proxy.windowBits ∧ proxy.windowBits < 2 ^ 22 := by
  have := watched.tracks.positive
  have := watched.tracks.narrow
  rw [windowBits_eq]
  omega

/-- How far a seq_no lies past the watermark, as a position. -/
theorem Watched.position (watched : Watched proxy w r) (seqNo : SeqNo) : wrap (w + steps proxy.ackSeqNo seqNo) = seqNo := by
  rw [watched.tracks.ack]
  exact wrap_steps w seqNo

/-- The watermark put somewhere further on. -/
theorem Watched.moved (watched : Watched proxy w r) (watched' : Watched proxy' w' r') (le : w ≤ w')
    (near : w' < w + 2 ^ 32) : steps proxy.ackSeqNo proxy'.ackSeqNo = w' - w := by
  rw [watched.tracks.ack, watched'.tracks.ack]
  have : w' = w + (w' - w) := by omega
  rw [this, wrap_add, steps_plus _ (by omega)]
  omega

theorem sameTrack_maybeArmAcknackRetry (proxy : WriterProxy) : SameTrack proxy proxy.maybeArmAcknackRetry.1 := by
  have pinned : SameTrack proxy proxy.pinStaleHeartbeat.1 := by
    unfold WriterProxy.pinStaleHeartbeat
    dsimp only
    split
    · exact ⟨rfl, rfl, rfl, rfl⟩
    · exact ⟨rfl, rfl, rfl, rfl⟩
  obtain ⟨words, ack, bitmap, used⟩ := pinned
  unfold WriterProxy.maybeArmAcknackRetry
  dsimp only
  split
  · exact ⟨words, ack, bitmap, used⟩
  · split
    · exact ⟨words, ack, bitmap, used⟩
    · exact ⟨words, ack, bitmap, used⟩

theorem SameTrack.trans {proxy'' : WriterProxy} (one : SameTrack proxy proxy') (two : SameTrack proxy' proxy'') :
    SameTrack proxy proxy'' :=
  ⟨two.words.trans one.words, two.ack.trans one.ack, two.bitmap.trans one.bitmap, two.used.trans one.used⟩

/-! ## An arrival -/

/-- What an arrival `o` past the watermark can do: inside the window it is recorded, past it the watermark jumps. -/
structure Arrived (window : Nat) (w : Nat) (r : Finset Nat) (o : Nat) (w' : Nat) (r' : Finset Nat) : Prop where
  le : w ≤ w'
  near : w' ≤ w + max window (o + 1)
  kept : ∀ p ∈ r, p ∈ r'
  recorded : o < window → w + o ∈ r'
  still : 0 < o → o < window → w' = w
  passed : ¬ (0 < o ∧ o < window) → w + o < w'

theorem Watched.recordInOrder (watched : Watched proxy w r) (span : Nat) :
    ∃ w' r', Watched (proxy.absorbSeqSpan 0 span).advanceAckSeqNo w' r' ∧ Arrived proxy.windowBits w r 0 w' r' := by
  have positive := watched.tracks.positive
  have spanned : Tracks (proxy.absorbSeqSpan 0 span) w _ := watched.tracks.absorbSeqSpanFrom
  have advanced := spanned.advanceAckSeqNo
  generalize whole : r ∪ Finset.Ico (w + 0 + 1) (min (w + 0 + 1 + (span - 1)) (w + 64 * proxy.words)) = s at advanced
  have ahead : ∀ p ∈ s, p < w + 64 * proxy.words := by
    intro p member
    rw [← whole, Finset.mem_union, Finset.mem_Ico] at member
    rcases member with old | new
    · exact watched.tracks.ahead p old
    · omega
  have low := le_settle s (w + 1)
  refine ⟨settle s (w + 1), insert w s, ⟨?_, ?_⟩, ?_⟩
  · apply advanced.ahead_only
    intro p past
    rw [Finset.mem_insert, or_iff_right (by omega)]
  · rw [Finset.mem_insert, not_or]
    exact ⟨by omega, settle_notMem s (w + 1)⟩
  · have high := settle_le ahead (show w + 1 ≤ w + 64 * proxy.words by omega)
    refine ⟨by omega, ?_, ?_, ?_, fun some_ => absurd some_ (Nat.lt_irrefl 0), fun _ => by omega⟩
    · rw [windowBits_eq]
      omega
    · intro p member
      rw [Finset.mem_insert, ← whole, Finset.mem_union]
      exact .inr (.inl member)
    · intro _
      exact Finset.mem_insert_self _ _

theorem Watched.recordAhead (watched : Watched proxy w r) (span : Nat) {o : Nat} (some_ : 0 < o)
    (inside : o < proxy.windowBits) :
    ∃ r', Watched ((proxy.recordOutOfOrderArrival o).1.absorbSeqSpan o span) w r' ∧
      Arrived proxy.windowBits w r o w r' := by
  have inside' : o < 64 * proxy.words := by rwa [← windowBits_eq]
  have spanned : Tracks ((proxy.recordOutOfOrderArrival o).1.absorbSeqSpan o span) w _ :=
    (watched.tracks.recordOutOfOrder inside').absorbSeqSpanFrom
  refine ⟨_, ⟨spanned, ?_⟩, Nat.le_refl _, by omega, ?_, ?_, fun _ _ => rfl, fun out => absurd ⟨some_, inside⟩ out⟩
  · rw [Finset.mem_union, Finset.mem_insert, Finset.mem_Ico, not_or, not_or]
    exact ⟨⟨by omega, watched.settled⟩, by omega⟩
  · intro p member
    rw [Finset.mem_union, Finset.mem_insert]
    exact .inl (.inr member)
  · intro _
    rw [Finset.mem_union, Finset.mem_insert]
    exact .inl (.inl rfl)

theorem Watched.jump (watched : Watched proxy w r) {o : Nat} (far : proxy.windowBits ≤ o) :
    Watched (proxy.jumpAckBaseline (wrap (w + o))) (w + o + 1) r := by
  have past : ∀ p ∈ r, p < w + o := by
    intro p member
    have := watched.tracks.ahead p member
    rw [windowBits_eq] at far
    omega
  refine ⟨watched.tracks.jumped past, ?_⟩
  intro member
  have := past _ member
  omega

/-- `update_reliable_ack` of a datagram at or past the watermark. -/
theorem Watched.update (watched : Watched proxy w r) (span : Nat) (ahead : 0 ≤ seqDelta seqNo proxy.ackSeqNo) :
    ∃ w' r', Watched (proxy.updateReliableAck seqNo span).1 w' r' ∧
      Arrived proxy.windowBits w r (steps proxy.ackSeqNo seqNo) w' r' := by
  have recorded : ∃ w' r', Watched (proxy.recordArrival seqNo span).1 w' r' ∧
      Arrived proxy.windowBits w r (steps proxy.ackSeqNo seqNo) w' r' := by
    unfold WriterProxy.recordArrival
    by_cases here : seqNo = proxy.ackSeqNo
    · rw [if_pos here, here, steps_self]
      exact watched.recordInOrder span
    · rw [if_neg here]
      dsimp only
      by_cases inside : steps proxy.ackSeqNo seqNo < proxy.windowBits
      · rw [if_pos inside]
        have some_ : 0 < steps proxy.ackSeqNo seqNo :=
          Nat.pos_of_ne_zero fun zero => here (steps_eq_zero.mp zero).symm
        obtain ⟨r', watched', arrived⟩ := watched.recordAhead span some_ inside
        exact ⟨w, r', watched', arrived⟩
      · rw [if_neg inside]
        have jumped := watched.jump (not_lt.mp inside)
        rw [watched.position] at jumped
        exact ⟨_, r, jumped, by omega, by omega, fun _ => id, fun near => absurd near inside,
          fun _ near => absurd near inside, fun _ => Nat.lt_succ_self _⟩
  obtain ⟨w', r', watched', arrived⟩ := recorded
  unfold WriterProxy.updateReliableAck
  rw [if_neg (not_lt.mpr ahead)]
  exact ⟨w', r', (watched'.same (sameTrack_maybeArmAcknackRetry _)).same (askForNewGap_same _ _ _).1, arrived⟩

/-! ## A HEARTBEAT -/

theorem Watched.evict (watched : Watched proxy w r) (seqNo : SeqNo) :
    ∃ w', Watched (proxy.advancePastUnavailable seqNo) w' r ∧ w ≤ w' ∧ w' ≤ w + 2 ^ 31 := by
  unfold WriterProxy.advancePastUnavailable
  by_cases behind : 0 ≤ seqDelta proxy.ackSeqNo seqNo
  · rw [if_pos behind]
    exact ⟨w, watched, Nat.le_refl _, by omega⟩
  · rw [if_neg behind]
    dsimp only
    have limit := watched.windowBits_le
    have far : steps proxy.ackSeqNo seqNo ≤ 2 ^ 31 := by
      rw [not_le, seqDelta_neg] at behind
      by_cases same : proxy.ackSeqNo = seqNo
      · rw [same, steps_self]
        omega
      · have := steps_swap same
        omega
    have counted : Tracks { proxy with gapEvicted := proxy.gapEvicted +
        (steps proxy.ackSeqNo seqNo - proxy.receivedInFirst (steps proxy.ackSeqNo seqNo)) } w r :=
      watched.tracks.same ⟨rfl, rfl, rfl, rfl⟩
    have rebased := counted.rebase (n := steps proxy.ackSeqNo seqNo)
    rw [watched.position] at rebased
    refine ⟨_, ⟨rebased.absorb, settle_notMem _ _⟩, (Nat.le_add_right _ _).trans (le_settle _ _), ?_⟩
    have inside := watched.tracks.ahead
    rw [windowBits_eq] at limit
    by_cases short : steps proxy.ackSeqNo seqNo ≤ 64 * proxy.words
    · have := settle_le inside (show w + steps proxy.ackSeqNo seqNo ≤ w + 64 * proxy.words by omega)
      omega
    · rw [settle_of_notMem]
      · omega
      · intro member
        have := inside _ member
        omega

theorem Watched.jumpToAnnounced (watched : Watched proxy w r) (seqNo : SeqNo) :
    ∃ w', Watched (proxy.jumpToAnnounced seqNo) w' r ∧ w ≤ w' ∧ w' ≤ w + 2 ^ 31 := by
  unfold WriterProxy.jumpToAnnounced
  by_cases far : 0 ≤ seqDelta seqNo proxy.ackSeqNo ∧ proxy.windowBits ≤ steps proxy.ackSeqNo seqNo
  · rw [if_pos far]
    have jumped := watched.jump far.2
    rw [watched.position] at jumped
    have near := (seqDelta_nonneg _ _).mp far.1
    exact ⟨_, jumped, by omega, by omega⟩
  · rw [if_neg far]
    exact ⟨w, watched, Nat.le_refl _, by omega⟩

theorem sameTrack_noteAnnounced (proxy : WriterProxy) (lastSeqNo : SeqNo) (isFinal : Bool) (skips : List AcknackSkip) :
    SameTrack proxy (proxy.noteAnnounced lastSeqNo isFinal skips).1 := by
  unfold WriterProxy.noteAnnounced
  dsimp only
  split
  · have noted : SameTrack proxy { proxy with heartbeatLastSeqNo := lastSeqNo } := ⟨rfl, rfl, rfl, rfl⟩
    exact noted.trans (sameTrack_maybeArmAcknackRetry _)
  · exact sameTrack_maybeArmAcknackRetry _

theorem sameTrack_noteDeclined (proxy : WriterProxy) (seqNo : SeqNo) : SameTrack proxy (proxy.noteDeclined seqNo) := by
  unfold WriterProxy.noteDeclined
  dsimp only
  split
  · exact ⟨rfl, rfl, rfl, rfl⟩
  · split
    · exact ⟨rfl, rfl, rfl, rfl⟩
    · exact ⟨rfl, rfl, rfl, rfl⟩

/-! ## Un-receiving -/

/-- Only the datagram itself is forgotten. -/
theorem Watched.unreceive (watched : Watched proxy w r) (seqNo : SeqNo) :
    Watched (proxy.unreceive seqNo) w (r.erase (w + steps proxy.ackSeqNo seqNo)) := by
  refine ⟨?_, fun member => watched.settled (Finset.mem_of_mem_erase member)⟩
  unfold WriterProxy.unreceive
  dsimp only
  by_cases inside : steps proxy.ackSeqNo seqNo < proxy.windowBits
  · rw [if_pos inside]
    exact (watched.tracks.clearBit _).trim
  · rw [if_neg inside, Finset.erase_eq_of_notMem]
    · exact watched.tracks
    · intro member
      have := watched.tracks.ahead _ member
      rw [windowBits_eq] at inside
      omega

/-! ## The width of the window -/

theorem words_recordArrival (proxy : WriterProxy) (seqNo : SeqNo) (span : Nat) :
    (proxy.recordArrival seqNo span).1.words = proxy.words := by
  unfold WriterProxy.recordArrival
  split
  · exact ((untouched_absorbSeqSpan proxy 0 span).trans (untouched_advanceAckSeqNo _)).words
  · dsimp only
    split
    · exact ((untouched_recordOutOfOrderArrival proxy _).trans (untouched_absorbSeqSpan _ _ span)).words
    · exact (jumpAckBaseline_fields proxy seqNo).1

theorem words_updateReliableAck (proxy : WriterProxy) (seqNo : SeqNo) (span : Nat) :
    (proxy.updateReliableAck seqNo span).1.words = proxy.words := by
  unfold WriterProxy.updateReliableAck
  split
  · rfl
  · dsimp only
    rw [(askForNewGap_same _ _ _).1.words, (sameTrack_maybeArmAcknackRetry _).words, words_recordArrival]

theorem words_heard (proxy : WriterProxy) (firstAvailableSeqNo lastSeqNo : SeqNo) :
    ((proxy.advancePastUnavailable firstAvailableSeqNo).jumpToAnnounced lastSeqNo).words = proxy.words := by
  have evicted : (proxy.advancePastUnavailable firstAvailableSeqNo).words = proxy.words := by
    unfold WriterProxy.advancePastUnavailable
    split
    · rfl
    · dsimp only
      rw [(untouched_absorb _).words]
      exact (untouched_rebase _ _).words
  rw [← evicted]
  unfold WriterProxy.jumpToAnnounced
  split
  · exact (jumpAckBaseline_fields _ lastSeqNo).1
  · rfl

end Reader

end Tickle
