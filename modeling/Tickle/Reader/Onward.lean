import Tickle.Reader.Handed

/-! # The watermark moves on

How far each function of a writer's proxy moves the watermark, and what becomes of the highest sample handed over: it stays, or is taken
along with the watermark, to right before it. What is recorded past the watermark does not matter here, only that the window is narrow.
-/

namespace Tickle

namespace Reader

open Bits Serial

variable {track track' track'' : WriterProxy} {seqNo : SeqNo} {k k' : Nat}

/-- The watermark has moved on by `k`; the highest sample handed over is what it was, or lies right before where the watermark has been. -/
structure Onward (k : Nat) (track track' : WriterProxy) : Prop where
  words : track'.words = track.words
  ack : track'.ackSeqNo = plus track.ackSeqNo k
  high : track'.highestDelivered = track.highestDelivered ∨ ∃ j ≤ k, track'.highestDelivered = plus track.ackSeqNo j - 1

/-- The watermark stays, and so does the highest sample handed over. -/
theorem Onward.still (words : track'.words = track.words) (ack : track'.ackSeqNo = track.ackSeqNo)
    (high : track'.highestDelivered = track.highestDelivered) : Onward 0 track track' :=
  ⟨words, by rw [ack, plus_zero], .inl high⟩

theorem Onward.of_same (same : SameTrack track track') (high : track'.highestDelivered = track.highestDelivered) : Onward 0 track track' :=
  Onward.still same.words same.ack high

theorem Onward.trans (one : Onward k track track') (two : Onward k' track' track'') : Onward (k + k') track track'' := by
  refine ⟨two.words.trans one.words, ?_, ?_⟩
  · rw [two.ack, one.ack, plus_add]
  · rcases two.high with same | ⟨j, le, there⟩
    · rcases one.high with same' | ⟨j, le, there⟩
      · exact .inl (same.trans same')
      · exact .inr ⟨j, by omega, same.trans there⟩
    · refine .inr ⟨k + j, by omega, ?_⟩
      rw [there, one.ack, plus_add]

theorem onward_absorbOne (track : WriterProxy) : Onward 1 track track.absorbOne := by
  have ack : track.shiftReceivedOne.ackSeqNo = track.ackSeqNo := by
    unfold WriterProxy.shiftReceivedOne
    split
    · rfl
    · rfl
  have high : track.shiftReceivedOne.highestDelivered = track.highestDelivered := by
    unfold WriterProxy.shiftReceivedOne
    split
    · rfl
    · rfl
  refine ⟨(untouched_absorbOne track).words, ?_, .inl high⟩
  change track.shiftReceivedOne.ackSeqNo + 1 = _
  rw [ack]
  rfl

theorem onward_absorb (track : WriterProxy) : ∃ k ≤ track.windowBits, Onward k track track.absorb := by
  have loop : ∀ (fuel : Nat) (track : WriterProxy),
      ∃ k ≤ fuel, Onward k track (Loop.whileN WriterProxy.lowestReceived WriterProxy.absorbOne fuel track) := by
    intro fuel
    induction fuel with
    | zero => exact fun track => ⟨0, Nat.le_refl _, rfl, (plus_zero _).symm, .inl rfl⟩
    | succ fuel ih =>
      intro track
      unfold Loop.whileN
      split
      · obtain ⟨k, le, rest⟩ := ih track.absorbOne
        exact ⟨1 + k, by omega, (onward_absorbOne track).trans rest⟩
      · exact ⟨0, Nat.zero_le _, rfl, (plus_zero _).symm, .inl rfl⟩
  exact loop track.windowBits track

theorem onward_advance (track : WriterProxy) : ∃ k ≤ track.windowBits, Onward (1 + k) track track.advanceAckSeqNo := by
  have first : Onward 1 track (WriterProxy.shiftReceivedOne { track with ackSeqNo := track.ackSeqNo + 1 }) := by
    unfold WriterProxy.shiftReceivedOne
    split
    · exact ⟨rfl, rfl, .inl rfl⟩
    · exact ⟨rfl, rfl, .inl rfl⟩
  obtain ⟨k, le, rest⟩ := onward_absorb (WriterProxy.shiftReceivedOne { track with ackSeqNo := track.ackSeqNo + 1 })
  refine ⟨k, ?_, first.trans rest⟩
  have same : (WriterProxy.shiftReceivedOne { track with ackSeqNo := track.ackSeqNo + 1 }).words = track.words := first.words
  unfold WriterProxy.windowBits at le ⊢
  rw [same] at le
  exact le

theorem onward_moveAck (track : WriterProxy) (seqNo : SeqNo) : Onward (steps track.ackSeqNo seqNo) track (track.moveAck seqNo) := by
  have there : plus track.ackSeqNo (steps track.ackSeqNo seqNo) = seqNo := plus_steps _ _
  refine ⟨rfl, there.symm, ?_⟩
  unfold WriterProxy.moveAck
  dsimp only
  split
  · exact .inr ⟨steps track.ackSeqNo seqNo, Nat.le_refl _, by rw [there]⟩
  · exact .inl rfl

theorem onward_jump (track : WriterProxy) (seqNo : SeqNo) :
    ∃ k ≤ track.windowBits, Onward (steps track.ackSeqNo seqNo + 1 + k) track (track.jumpAckBaseline seqNo) := by
  unfold WriterProxy.jumpAckBaseline
  dsimp only
  have counted : ∀ counted : WriterProxy, counted.words = track.words → counted.ackSeqNo = track.ackSeqNo →
      counted.highestDelivered = track.highestDelivered → ∃ k ≤ track.windowBits,
        Onward (steps track.ackSeqNo seqNo + 1 + k) track (counted.moveAck seqNo).clearReceived.advanceAckSeqNo := by
    intro counted words ack high
    have start : Onward 0 track counted := Onward.still words ack high
    have moved := onward_moveAck counted seqNo
    have cleared : Onward 0 (counted.moveAck seqNo) (counted.moveAck seqNo).clearReceived := Onward.still rfl rfl rfl
    obtain ⟨k, le, rest⟩ := onward_advance (counted.moveAck seqNo).clearReceived
    have bits : (counted.moveAck seqNo).clearReceived.windowBits = track.windowBits := by
      change counted.words * wordBits = track.words * wordBits
      rw [words]
    have whole := ((start.trans moved).trans cleared).trans rest
    have total : 0 + steps counted.ackSeqNo seqNo + 0 + (1 + k) = steps track.ackSeqNo seqNo + 1 + k := by
      rw [ack]
      omega
    rw [total] at whole
    exact ⟨k, by rwa [bits] at le, whole⟩
  split
  · exact counted _ rfl rfl rfl
  · exact counted _ rfl rfl rfl

theorem onward_absorbSeqSpanFrom (firstOffset left i : Nat) (track : WriterProxy) :
    Onward 0 track (track.absorbSeqSpanFrom firstOffset left i) := by
  induction left generalizing i track with
  | zero => exact Onward.still rfl rfl rfl
  | succ left ih =>
    unfold WriterProxy.absorbSeqSpanFrom
    split
    · exact Onward.still rfl rfl rfl
    · have one : Onward 0 track
          (if bitmapTestBit track.receivedBitmap (firstOffset + i) then track else track.markReceived (firstOffset + i)) := by
        split
        · exact Onward.still rfl rfl rfl
        · exact Onward.still rfl rfl rfl
      exact one.trans (ih (i + 1) _)

theorem onward_recordArrival (track : WriterProxy) (seqNo : SeqNo) (span : Nat) :
    (Onward 0 track (track.recordArrival seqNo span).1 ∧ seqNo ≠ track.ackSeqNo) ∨
      (∃ k ≤ track.windowBits, Onward (steps track.ackSeqNo seqNo + 1 + k) track (track.recordArrival seqNo span).1) ∧
        (track.recordArrival seqNo span).2.1 = true := by
  unfold WriterProxy.recordArrival
  by_cases here : seqNo = track.ackSeqNo
  · rw [if_pos here]
    have spanned : Onward 0 track (track.absorbSeqSpan 0 span) := onward_absorbSeqSpanFrom 0 (span - 1) 1 track
    obtain ⟨k, le, rest⟩ := onward_advance (track.absorbSeqSpan 0 span)
    have bits : (track.absorbSeqSpan 0 span).windowBits = track.windowBits := by
      unfold WriterProxy.windowBits
      rw [spanned.words]
    have whole := spanned.trans rest
    have total : 0 + (1 + k) = steps track.ackSeqNo seqNo + 1 + k := by
      rw [here, steps_self]
      omega
    rw [total] at whole
    exact .inr ⟨⟨k, by rwa [bits] at le, whole⟩, rfl⟩
  · rw [if_neg here]
    dsimp only
    split
    · have marked : Onward 0 track (track.recordOutOfOrderArrival (steps track.ackSeqNo seqNo)).1 := by
        unfold WriterProxy.recordOutOfOrderArrival
        split
        · exact Onward.still rfl rfl rfl
        · exact Onward.still rfl rfl rfl
      exact .inl ⟨marked.trans (onward_absorbSeqSpanFrom _ _ _ _), here⟩
    · exact .inr ⟨onward_jump track seqNo, rfl⟩

theorem onward_maybeArmAcknackRetry (track : WriterProxy) : Onward 0 track track.maybeArmAcknackRetry.1 := by
  apply Onward.of_same (sameTrack_maybeArmAcknackRetry track)
  have pinned : track.pinStaleHeartbeat.1.highestDelivered = track.highestDelivered := by
    unfold WriterProxy.pinStaleHeartbeat
    dsimp only
    split
    · rfl
    · rfl
  unfold WriterProxy.maybeArmAcknackRetry
  dsimp only
  split
  · exact pinned
  · split
    · exact pinned
    · exact pinned

theorem onward_askForNewGap (track : WriterProxy) (armed : Bool) (newGap : Option WriterProxy.NewGapRange) :
    Onward 0 track (track.askForNewGap armed newGap).1 := by
  apply Onward.of_same (askForNewGap_same track armed newGap).1
  unfold WriterProxy.askForNewGap
  cases newGap with
  | none => rfl
  | some gap =>
    dsimp only
    split
    · split
      · unfold WriterProxy.extendGapToWatermark
        split
        · rfl
        · rfl
      · rfl
    · rfl

/-- An arrival named within 2^29 of the watermark moves it past itself, or not at all. -/
theorem onward_update (narrow : track.words < 2 ^ 16) (close : Close track.ackSeqNo seqNo) (span : Nat) :
    (Onward 0 track (track.updateReliableAck seqNo span).1 ∧ seqNo ≠ track.ackSeqNo) ∨
      (∃ k < 2 ^ 22, Onward (steps track.ackSeqNo seqNo + 1 + k) track (track.updateReliableAck seqNo span).1) ∧
        steps track.ackSeqNo seqNo < 2 ^ 29 ∧ (track.updateReliableAck seqNo span).2.1 = true := by
  have bits : track.windowBits < 2 ^ 22 := by
    rw [windowBits_eq]
    omega
  unfold WriterProxy.updateReliableAck
  by_cases late : seqDelta seqNo track.ackSeqNo < 0
  · rw [if_pos late]
    have far := (seqDelta_neg _ _).mp late
    refine .inl ⟨Onward.still rfl rfl rfl, ?_⟩
    rintro rfl
    rw [steps_self] at far
    omega
  · rw [if_neg late]
    have ahead := (seqDelta_nonneg _ _).mp (not_lt.mp late)
    have asked : ∀ (t : WriterProxy) (armed : Bool) (gap : Option WriterProxy.NewGapRange),
        Onward 0 t (t.maybeArmAcknackRetry.1.askForNewGap armed gap).1 :=
      fun t armed gap => (onward_maybeArmAcknackRetry t).trans (onward_askForNewGap _ armed gap)
    rcases onward_recordArrival track seqNo span with ⟨still, other⟩ | ⟨⟨k, le, moved⟩, new⟩
    · exact .inl ⟨still.trans (asked _ _ _), other⟩
    · refine .inr ⟨⟨k, by omega, moved.trans (asked _ _ _)⟩, ?_, new⟩
      rcases close with near | near
      · exact near
      · by_cases same : seqNo = track.ackSeqNo
        · rw [same, steps_self]
          omega
        · have := steps_swap same
          omega

theorem onward_advancePastUnavailable (track : WriterProxy) (seqNo : SeqNo) :
    ∃ k, Onward k track (track.advancePastUnavailable seqNo) ∧ (steps track.ackSeqNo seqNo < 2 ^ 29 →
      k ≤ steps track.ackSeqNo seqNo + track.windowBits) ∧ (0 ≤ seqDelta track.ackSeqNo seqNo → k = 0) := by
  unfold WriterProxy.advancePastUnavailable
  by_cases behind : 0 ≤ seqDelta track.ackSeqNo seqNo
  · rw [if_pos behind]
    exact ⟨0, Onward.still rfl rfl rfl, fun _ => Nat.zero_le _, fun _ => rfl⟩
  · rw [if_neg behind]
    dsimp only
    have counted : ∀ counted : WriterProxy, counted.words = track.words → counted.ackSeqNo = track.ackSeqNo →
        counted.highestDelivered = track.highestDelivered → Onward 0 track (counted.rebase (steps track.ackSeqNo seqNo)) := by
      intro counted words ack high
      unfold WriterProxy.rebase
      split
      · exact Onward.still words ack high
      · exact Onward.still words ack high
    have rebased := counted { track with gapEvicted := track.gapEvicted + (steps track.ackSeqNo seqNo -
      track.receivedInFirst (steps track.ackSeqNo seqNo)) } rfl rfl rfl
    generalize WriterProxy.rebase _ (steps track.ackSeqNo seqNo) = base at rebased ⊢
    have moved := onward_moveAck base seqNo
    obtain ⟨k, le, rest⟩ := onward_absorb (base.moveAck seqNo)
    have bits : (base.moveAck seqNo).windowBits = track.windowBits := by
      change base.words * wordBits = track.words * wordBits
      rw [rebased.words]
    rw [bits] at le
    have same : steps base.ackSeqNo seqNo = steps track.ackSeqNo seqNo := by rw [rebased.ack, plus_zero]
    rw [same] at moved
    exact ⟨_, (rebased.trans moved).trans rest, fun _ => by omega, fun le => absurd le behind⟩

theorem onward_jumpToAnnounced (track : WriterProxy) (seqNo : SeqNo) :
    ∃ k, Onward k track (track.jumpToAnnounced seqNo) ∧
      (k = 0 ∨ steps track.ackSeqNo seqNo < 2 ^ 31 ∧ k ≤ steps track.ackSeqNo seqNo + 1 + track.windowBits) := by
  unfold WriterProxy.jumpToAnnounced
  split
  · rename_i far
    obtain ⟨k, le, jumped⟩ := onward_jump track seqNo
    exact ⟨_, jumped, .inr ⟨(seqDelta_nonneg _ _).mp far.1, by omega⟩⟩
  · exact ⟨0, Onward.still rfl rfl rfl, .inl rfl⟩

/-- How far a HEARTBEAT named within 2^29 of the watermark moves it. -/
theorem onward_heard (narrow : track.words < 2 ^ 16) {first last : SeqNo} (closeFirst : Close track.ackSeqNo first)
    (closeLast : Close track.ackSeqNo last) :
    ∃ k < 2 ^ 30 + 2 ^ 24, Onward k track ((track.advancePastUnavailable first).jumpToAnnounced last) := by
  have bits : track.windowBits < 2 ^ 22 := by
    rw [windowBits_eq]
    omega
  obtain ⟨k, evicted, ahead, behind⟩ := onward_advancePastUnavailable track first
  obtain ⟨k', jumped, far⟩ := onward_jumpToAnnounced (track.advancePastUnavailable first) last
  have few : k < 2 ^ 29 + 2 ^ 22 := by
    rcases closeFirst with near | near
    · have := ahead near
      omega
    · rw [behind ((seqDelta_nonneg _ _).mpr (by omega))]
      omega
  have bits' : (track.advancePastUnavailable first).windowBits = track.windowBits := by
    unfold WriterProxy.windowBits
    rw [evicted.words]
  refine ⟨k + k', ?_, evicted.trans jumped⟩
  rcases far with zero | ⟨near, le⟩
  · omega
  · rw [evicted.ack] at near le
    have close : steps (plus track.ackSeqNo k) last < 2 ^ 29 := by
      have start : steps track.ackSeqNo (plus track.ackSeqNo k) = k := steps_plus _ (by omega)
      rcases closeLast with near' | near'
      · by_cases before : k ≤ steps track.ackSeqNo last
        · have := steps_split (a := track.ackSeqNo) (b := plus track.ackSeqNo k) (c := last) (by omega)
          omega
        · have := steps_past (a := track.ackSeqNo) (b := plus track.ackSeqNo k) (x := last) (by omega)
          omega
      · have along : steps last (plus track.ackSeqNo k) = steps last track.ackSeqNo + k := steps_plus_of (by omega)
        by_cases same : last = plus track.ackSeqNo k
        · rw [← same, steps_self]
          omega
        · have := steps_swap same
          omega
    omega

theorem onward_noteAnnounced (track : WriterProxy) (lastSeqNo : SeqNo) (isFinal : Bool) (skips : List AcknackSkip) :
    Onward 0 track (track.noteAnnounced lastSeqNo isFinal skips).1 := by
  unfold WriterProxy.noteAnnounced
  dsimp only
  split
  · have noted : Onward 0 track { track with heartbeatLastSeqNo := lastSeqNo } := Onward.still rfl rfl rfl
    exact noted.trans (onward_maybeArmAcknackRetry _)
  · exact onward_maybeArmAcknackRetry _

theorem onward_noteDeclined (track : WriterProxy) (seqNo : SeqNo) : Onward 0 track (track.noteDeclined seqNo) := by
  unfold WriterProxy.noteDeclined
  dsimp only
  split
  · exact Onward.still rfl rfl rfl
  · split
    · exact Onward.still rfl rfl rfl
    · exact Onward.still rfl rfl rfl

theorem onward_unreceive (track : WriterProxy) (seqNo : SeqNo) : Onward 0 track (track.unreceive seqNo) := by
  unfold WriterProxy.unreceive
  dsimp only
  split
  · exact Onward.still rfl rfl rfl
  · exact Onward.still rfl rfl rfl

theorem onward_noteCollision (track : WriterProxy) (held ctx : Datagram) : Onward 0 track (Subscriber.noteCollision track held ctx) := by
  unfold Subscriber.noteCollision
  split
  · exact Onward.still rfl rfl rfl
  · exact Onward.still rfl rfl rfl

end Reader

end Tickle
