import Tickle.Writer.Waiting

/-! # A refused sample, retried

`tt_Publisher_writable()` and the writable callback answer about what a refusal left behind: the datagrams of a sample
refused for its count, or the bytes of one refused for its record. A check that a refusal did not reach leaves nothing
behind, so the answer can be yes while that check still refuses the sample (`retry_refused_again`).
-/

namespace Tickle

open Serial

namespace Publisher

variable {node : Context} {pub : Publisher} {cdr : List UInt8} {route : Route}

theorem processAcknack_keepAll (contextId entityId : Nat) (seqNo : SeqNo) (bitmap : List (BitVec 64)) (claims : Bool)
    (repair : Repair) : (pub.processAcknack contextId entityId seqNo bitmap claims repair).1.keepAll = pub.keepAll := by
  have claimed : ∀ p : Publisher, (p.claimPeerAck contextId entityId 0).keepAll = p.keepAll := by
    intro p
    unfold claimPeerAck
    split <;> rfl
  have recorded : ∀ p : Publisher,
      (p.recordPeerAck contextId entityId seqNo).notifyWritableIfPending.keepAll = p.keepAll := by
    intro p
    unfold notifyWritableIfPending recordPeerAck
    split <;> split <;> rfl
  unfold processAcknack
  split
  · rfl
  split
  · rfl
  dsimp only
  by_cases known : claims = true ∧ entityId ≠ 0
  · simp only [known, ne_eq, not_false_eq_true, and_self, if_true]
    split <;> exact (recorded _).trans (claimed pub)
  · simp only [known, if_false]
    split <;> exact recorded pub

theorem step_keepAll (event : Event) : (pub.step node event).keepAll = pub.keepAll := by
  cases event with
  | publish cdr route => exact publish_frame.2
  | claim capacity granted =>
    simp only [step, claim]
    split
    · rfl
    split
    · rfl
    split
    · rfl
    · cases granted <;> rfl
  | publishClaimed payload cdr moved route =>
    simp only [step, publishClaimed]
    split
    · rfl
    split
    · rfl
    split
    · rfl
    split
    · exact publish_frame.2
    · rfl
  | abandonClaim payload =>
    simp only [step, abandonClaim]
    split <;> rfl
  | matched contextId entityId trackingWords =>
    simp only [step, claimPeerAck]
    split <;> rfl
  | unmatched contextId entityId => rfl
  | acknack contextId entityId seqNo bitmap claims repair =>
    exact processAcknack_keepAll contextId entityId seqNo bitmap claims repair

theorem run_keepAll (events : List Event) : (events.foldl (step node) pub).keepAll = pub.keepAll := by
  induction events generalizing pub with
  | nil => rfl
  | cons event events ih =>
    rw [List.foldl_cons, ih]
    exact step_keepAll event

/-- Only KEEP_ALL refuses. -/
theorem keepAll_of_wouldBlock (h : (pub.publish node cdr route).1 = .wouldBlock) : pub.keepAll = true := by
  cases hk : pub.keepAll with
  | true => rfl
  | false =>
    exfalso
    have writable : pub.keepAllWritable = true := by
      unfold keepAllWritable
      simp [hk]
    have passed : (pub.keepAllRefusesEncoded node cdr node.fragWholeLimit).1 = false := by
      unfold keepAllRefusesEncoded keepAllRefusedRecordBytes
      simp [hk]
    revert h
    unfold publish
    simp only [writable, passed, Bool.not_true, Bool.false_eq_true, if_false]
    split
    · simp
    split
    · simp
    split <;> simp

/-- With the Publisher writable, what is left to refuse a sample is the check of its encoded form. -/
theorem publish_of_writable (writable : pub.keepAllWritable = true) :
    (pub.publish node cdr route).1 = .wouldBlock ↔
      cdr.length ≤ node.maxSampleLength ∧ (pub.keepAllRefusesEncoded node cdr node.fragWholeLimit).1 = true := by
  unfold publish
  simp only [writable, Bool.not_true, Bool.false_eq_true, if_false]
  split
  · next long =>
    constructor
    · simp
    · rintro ⟨short, -⟩
      omega
  · next short =>
    split
    · next asked => exact ⟨fun _ => ⟨by omega, asked⟩, fun _ => rfl⟩
    · next asked =>
      constructor
      · intro h
        exfalso
        revert h
        split
        · simp
        split <;> simp
      · rintro ⟨-, refused⟩
        exact absurd refused asked

/-- Each size of the sample is the one a refusal left behind, or there is room for it now. -/
structure SizesAnswered (node : Context) (pub : Publisher) (cdr : List UInt8) : Prop where
  datagrams : pub.reliableCache.ringDepth = 0 ∨ sampleDatagramCount node cdr node.fragWholeLimit ≤ 1 ∨
    sampleDatagramCount node cdr node.fragWholeLimit = pub.blockedDatagrams ∨
    steps pub.keepAllAckedThrough (plus pub.seqNo (sampleDatagramCount node cdr node.fragWholeLimit)) ≤ pub.keepAllBound
  bytes : pub.reliableCache.ringDepth ≠ 0 ∧ sampleCacheFootprint node cdr node.fragWholeLimit = pub.blockedRecordBytes ∨
    pub.reliableCache.admits pub.reliableCache.ringDepth (sampleCacheFootprint node cdr node.fragWholeLimit)
      pub.keepAllAckedThrough = true

/-- What a refusal left behind has room once the Publisher is writable. -/
theorem sizesAnswered_iff (hk : pub.keepAll = true) (hm : pub.anyPeerAckMatched = true)
    (writable : pub.keepAllWritable = true) :
    SizesAnswered node pub cdr ↔ (pub.keepAllRefusesEncoded node cdr node.fragWholeLimit).1 = false := by
  by_cases hd : pub.reliableCache.ringDepth = 0
  · have unasked : (pub.keepAllRefusesEncoded node cdr node.fragWholeLimit).1 = false ↔
        pub.keepAllRefusedRecordBytes node cdr node.fragWholeLimit = 0 := by
      unfold keepAllRefusesEncoded
      by_cases h0 : pub.keepAllRefusedRecordBytes node cdr node.fragWholeLimit = 0 <;> simp [hd, h0]
    rw [unasked, keepAllRefusedRecordBytes_eq_zero hk hm]
    constructor
    · intro h
      rcases h.bytes with ⟨used, -⟩ | room
      · exact absurd hd used
      · exact room
    · intro room
      exact ⟨.inl hd, .inr room⟩
  · obtain ⟨count, bytes⟩ := (keepAllWritable_iff hk hd hm).mp writable
    rw [keepAllRefusesEncoded_iff hk hd hm]
    constructor
    · intro h
      constructor
      · intro many
        rcases h.datagrams with none_ | one | left_ | room
        · exact absurd none_ hd
        · omega
        · rw [left_] at many ⊢
          rwa [Nat.max_eq_left (by omega : 1 ≤ pub.blockedDatagrams)] at count
        · exact room
      · rcases h.bytes with ⟨-, left_⟩ | room
        · rw [left_]
          have pos := sampleCacheFootprint_pos node cdr node.fragWholeLimit
          exact bytes (by omega)
        · exact room
    · intro h
      constructor
      · by_cases many : sampleDatagramCount node cdr node.fragWholeLimit > 1
        · exact .inr (.inr (.inr (h.datagrams many)))
        · exact .inr (.inl (by omega))
      · exact .inr h.bytes

/-- After every refusal of a sample and everything that may follow it, a Publisher that answers it is writable takes the
sample exactly when no Subscriber is matched, the sample is longer than any that is sent, or each of its sizes is the one
a refusal left behind or has room. -/
theorem retry_goes_iff {before : Publisher} (blocked : (before.publish node cdr route).1 = .wouldBlock)
    (events : List Event) (again : Route)
    (writable : (events.foldl (step node) (before.publish node cdr route).2).keepAllWritable = true) :
    ((events.foldl (step node) (before.publish node cdr route).2).publish node cdr again).1 ≠ .wouldBlock ↔
      (events.foldl (step node) (before.publish node cdr route).2).anyPeerAckMatched = false ∨
      node.maxSampleLength < cdr.length ∨
      SizesAnswered node (events.foldl (step node) (before.publish node cdr route).2) cdr := by
  have hk : (events.foldl (step node) (before.publish node cdr route).2).keepAll = true := by
    rw [run_keepAll, publish_frame.2]
    exact keepAll_of_wouldBlock blocked
  generalize events.foldl (step node) (before.publish node cdr route).2 = pub at *
  rw [ne_eq, publish_of_writable writable, not_and, Bool.not_eq_true]
  cases hm : pub.anyPeerAckMatched with
  | false =>
    have unasked : (pub.keepAllRefusesEncoded node cdr node.fragWholeLimit).1 = false := by
      unfold keepAllRefusesEncoded keepAllRefusedRecordBytes
      simp [hm]
    simp [unasked]
  | true =>
    rw [sizesAnswered_iff hk hm writable]
    simp only [Bool.true_eq_false, false_or]
    constructor
    · intro h
      by_cases long : node.maxSampleLength < cdr.length
      · exact .inl long
      · exact .inr (h (by omega))
    · rintro (long | passed) short
      · omega
      · exact passed

/-- A sample of 40 bytes refused beside another one, in an arena for one of them. -/
def refusedBeside : Publisher :=
  ((create (keepAllHistory 100)).step smallLink (.matched 7 9 0)).step smallLink
    (.publish (List.replicate 40 0) plainRoute)

/-- Refused for its bytes, it goes when the other one is acknowledged. -/
theorem retry_goes_acknowledged :
    (((refusedBeside.publish smallLink (List.replicate 40 0) plainRoute).2.step smallLink
      (.acknack 7 9 2 [] false plainRepair)).publish smallLink (List.replicate 40 0) plainRoute).1 ≠ .wouldBlock :=
  (@retry_goes_iff smallLink (List.replicate 40 0) plainRoute refusedBeside (by decide +kernel)
    [.acknack 7 9 2 [] false plainRepair] plainRoute (by decide +kernel)).mpr (.inr (.inr ⟨by decide +kernel, by decide +kernel⟩))

/-- A sample of two datagrams is refused for one, before it is encoded; with one datagram acknowledged the Publisher is
writable, and the sample is refused for its two. -/
theorem retry_refused_again :
    ¬ ∀ (node : Context) (opts : PublisherOptions) (published events : List Event) (cdr : List UInt8) (route again : Route),
      ((published.foldl (step node) (create opts)).publish node cdr route).1 = .wouldBlock →
      (events.foldl (step node) ((published.foldl (step node) (create opts)).publish node cdr route).2).keepAllWritable =
        true →
      ((events.foldl (step node) ((published.foldl (step node) (create opts)).publish node cdr route).2).publish node cdr
        again).1 ≠ .wouldBlock := by
  intro h
  have goes := h smallLink (keepAllHistory 4000)
    (.matched 7 9 0 :: List.replicate 8 (.publish (List.replicate 4 0) plainRoute))
    [.acknack 7 9 2 [] false plainRepair] (List.replicate 600 0) plainRoute plainRoute (by decide +kernel)
    (by decide +kernel)
  revert goes
  decide +kernel

end Publisher

end Tickle
