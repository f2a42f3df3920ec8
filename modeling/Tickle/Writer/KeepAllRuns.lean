import Tickle.Writer.Owed

/-! # KEEP_ALL over whole runs

The acknowledgements stay near the seq_no the Publisher has reached: a matched Subscriber starts at the
oldest record retained, an ACKNACK moves it within `2 ^ 30` of the next seq_no, and no publish is
admitted that leaves more than the bound outstanding. In every such run a publish evicts only what every
matched Subscriber has acknowledged.
-/

namespace Tickle

open Serial Loop RingArena

namespace ReliableCache

variable {c c' : ReliableCache}

theorem grow_sampleDepth {size : Nat} (h : c.grow size = some c') :
    c'.sampleDepth = c.sampleDepth := by
  unfold grow at h
  split at h
  · cases h
  split at h
  · cases h
  simp only at h
  by_cases hd : c.ringDepth = 0
  · rw [if_pos hd] at h
    rw [← Option.some.inj h]
  · rw [if_neg hd] at h
    rw [← Option.some.inj h, apply_ite ReliableCache.sampleDepth]
    exact ite_self _

theorem Touched.sampleDepth (h : Touched c c') : c'.sampleDepth = c.sampleDepth := by rw [h.same]

theorem Touched.ringDepth (h : Touched c c') : c'.ringDepth = c.ringDepth := by rw [h.same]; rfl

theorem growUntil_sampleDepth (enough : ReliableCache → Bool) (sizes : List Nat) :
    (c.growUntil enough sizes).1.sampleDepth = c.sampleDepth := by
  induction sizes generalizing c with
  | nil => rfl
  | cons size sizes ih =>
    unfold growUntil
    split
    · rfl
    · cases hg : c.grow size with
      | none => rfl
      | some grown => exact (ih (c := grown)).trans (grow_sampleDepth hg)

end ReliableCache

namespace Publisher

variable {node : Context} {pub pub' : Publisher} {cdr : List UInt8} {limit : Nat} {route : Route}

/-- What every reachable Publisher keeps of its acknowledgements. -/
structure Tracked (node : Context) (pub : Publisher) : Prop where
  kept : Kept node pub
  samples : pub.keepAll = true → pub.reliableCache.sampleDepth = 0
  blocked : pub.blockedDatagrams < 65536
  near : pub.keepAll = true → pub.reliableCache.ringDepth ≠ 0 → AckNear pub

/-! ## The acknowledgements move -/

theorem AckNear.of_subset (h : AckNear pub) (hseq : pub'.seqNo = pub.seqNo)
    (hsub : ∀ x ∈ ackSeqNos pub'.peerAcks, x ∈ ackSeqNos pub.peerAcks) : AckNear pub' := by
  intro x hx
  rw [hseq]
  exact h x (hsub x hx)

theorem ackNear_of_unmatched (h : pub.anyPeerAckMatched = false) : AckNear pub := by
  intro x hx
  obtain ⟨entry, hentry, hack⟩ := List.mem_filterMap.mp hx
  unfold anyPeerAckMatched at h
  rw [List.any_eq_false] at h
  cases entry with
  | none => cases hack
  | some ack => exact absurd rfl (h _ hentry)

/-- Everything a matched Subscriber has still to acknowledge lies within the bound. -/
theorem AckedThrough.outstanding {low : SeqNo} {r n : Nat} (h : AckedThrough pub low r) (hn : 0 < n)
    (hlt : n < 65536)
    (hcount : steps pub.keepAllAckedThrough (plus pub.seqNo n) ≤ pub.keepAllBound) :
    ∀ x ∈ ackSeqNos pub.peerAcks, -65536 ≤ seqDelta x (pub.seqNo + 1) := by
  intro x hx
  have h1 := h.least x hx
  have h2 := h.through
  have h3 := @keepAllBound_le pub
  have h4 := pub.reliableCache.ringDepth_lt
  have h5 := (h.count (by omega) (by omega)).mp hcount
  omega

theorem AckNear.advance {n : Nat} (h : AckNear pub) (hn : n ≤ 64)
    (hlow : ∀ x ∈ ackSeqNos pub.peerAcks, -65536 ≤ seqDelta x (pub.seqNo + 1))
    (hacks : pub'.peerAcks = pub.peerAcks) (hseq : pub'.seqNo = plus pub.seqNo n) :
    AckNear pub' := by
  intro x hx
  rw [hacks] at hx
  have h1 := h x hx
  have h2 := hlow x hx
  have h3 := seqDelta_plus (pub.seqNo + 1) (n := n) (by omega)
  rw [hseq, ← plus_succ_right, plus_succ,
    @seqDelta_sub x (plus (pub.seqNo + 1) n) (pub.seqNo + 1) (by omega) (by omega) (by omega)]
  omega

/-- A Subscriber that matches starts where the retained history does. -/
theorem unackedFrom_near (h : ReliableCache.Steady node pub.reliableCache (pub.seqNo + 1)) :
    -2 ^ 30 < seqDelta pub.unackedFrom (pub.seqNo + 1) ∧
      seqDelta pub.unackedFrom (pub.seqNo + 1) < 2 ^ 30 := by
  unfold unackedFrom
  split
  · rw [seqDelta_self]
    omega
  · next hret =>
    simp only [Bool.or_eq_true, decide_eq_true_eq, Bool.not_eq_true', not_or, Bool.not_eq_false]
      at hret
    cases h with
    | unused hd _ => exact absurd hd hret.1
    | ready old left hR _ =>
      have hreach := hR.reach hret.2
      rcases Nat.eq_zero_or_pos (steps pub.reliableCache.oldestSeqNo (pub.seqNo + 1)) with h0 | h0
      · rw [steps_eq_zero.mp h0, seqDelta_self]
        omega
      · rw [seqDelta_eq_neg_steps h0 (by omega)]
        omega

theorem mem_claimEntry {ack : PeerAck} {x : SeqNo} (acks : List (Option PeerAck))
    (h : x ∈ ackSeqNos (claimEntry ack acks)) : x = ack.ackSeqNo ∨ x ∈ ackSeqNos acks := by
  induction acks with
  | nil => simp [claimEntry, ackSeqNos] at h
  | cons entry acks ih =>
    cases entry with
    | none =>
      have h' : x = ack.ackSeqNo ∨ x ∈ ackSeqNos acks := by
        simpa [claimEntry, ackSeqNos] using h
      simpa [ackSeqNos] using h'
    | some other =>
      have h' : x = other.ackSeqNo ∨ x ∈ ackSeqNos (claimEntry ack acks) := by
        simpa [claimEntry, ackSeqNos] using h
      rcases h' with rfl | h'
      · exact Or.inr (by simp [ackSeqNos])
      · rcases ih h' with rfl | h''
        · exact Or.inl rfl
        · exact Or.inr (by
            rw [show ackSeqNos (some other :: acks) = other.ackSeqNo :: ackSeqNos acks by
              simp [ackSeqNos]]
            exact List.mem_cons_of_mem _ h'')

theorem mem_advanceAck {contextId entityId : Nat} {seqNo x : SeqNo} {acks : List (Option PeerAck)}
    (h : x ∈ ackSeqNos (acks.map (advanceAck contextId entityId seqNo))) :
    x = seqNo ∨ x ∈ ackSeqNos acks := by
  obtain ⟨entry', hmem, hx⟩ := List.mem_filterMap.mp h
  obtain ⟨entry, hentry, rfl⟩ := List.mem_map.mp hmem
  cases entry with
  | none => cases hx
  | some ack =>
    simp only [advanceAck, Option.map_some, Option.some.injEq] at hx
    split at hx
    · exact Or.inl hx.symm
    · exact Or.inr (List.mem_filterMap.mpr ⟨some ack, hentry, by rw [Option.map_some, hx]⟩)

theorem mem_forgetPeerAck {contextId : Nat} {entityId : Option Nat} {x : SeqNo}
    (h : x ∈ ackSeqNos (pub.forgetPeerAck contextId entityId).peerAcks) :
    x ∈ ackSeqNos pub.peerAcks := by
  obtain ⟨entry', hmem, hx⟩ := List.mem_filterMap.mp h
  obtain ⟨entry, hentry, rfl⟩ := List.mem_map.mp hmem
  split at hx
  · cases hx
  · exact List.mem_filterMap.mpr ⟨entry, hentry, hx⟩

/-! ## One step -/

/-- The rest of the Publisher as the invariant reads it. -/
structure SameTerms (pub pub' : Publisher) : Prop where
  keepAll : pub'.keepAll = pub.keepAll
  seqNo : pub'.seqNo = pub.seqNo
  blocked : pub'.blockedDatagrams = pub.blockedDatagrams
  sampleDepth : pub'.reliableCache.sampleDepth = pub.reliableCache.sampleDepth
  ringDepth : pub'.reliableCache.ringDepth = pub.reliableCache.ringDepth

theorem Tracked.of_terms (h : Tracked node pub) (hkept : Kept node pub') (ht : SameTerms pub pub')
    (hacks : ∀ x ∈ ackSeqNos pub'.peerAcks, x ∈ ackSeqNos pub.peerAcks ∨
      -2 ^ 30 < seqDelta x (pub.seqNo + 1) ∧ seqDelta x (pub.seqNo + 1) < 2 ^ 30) :
    Tracked node pub' := by
  refine ⟨hkept, ?_, ?_, ?_⟩
  · rw [ht.keepAll, ht.sampleDepth]
    exact h.samples
  · rw [ht.blocked]
    exact h.blocked
  · rw [ht.keepAll, ht.ringDepth]
    intro hk hd x hx
    rw [ht.seqNo]
    rcases hacks x hx with hold | hnew
    · exact h.near hk hd x hold
    · exact hnew

/-- The steps a run is asked about: what a publish stores goes in whole, and an ACKNACK names a seq_no
within `2 ^ 30` of the next one. -/
def Event.Sound (node : Context) (pub : Publisher) : Event → Prop
  | .acknack _ _ seqNo _ _ _ =>
    -2 ^ 30 < seqDelta seqNo (pub.seqNo + 1) ∧ seqDelta seqNo (pub.seqNo + 1) < 2 ^ 30
  | event => event.CacheSound node pub

theorem Event.Sound.cacheSound {event : Event} (h : event.Sound node pub) :
    event.CacheSound node pub := by
  cases event <;> first | exact h | trivial

theorem checkAndCacheSample_depths (h : Kept node pub) (hlen : cdr.length ≤ node.maxSampleLength)
    (hl : node.fragWholeLimit ≤ limit) (hsound : CacheSound node pub cdr limit route)
    (hk : pub.keepAll = true) :
    (pub.checkAndCacheSample node cdr limit route).sampleDepth = pub.reliableCache.sampleDepth ∧
    (pub.anyPeerAckMatched = true →
      (pub.checkAndCacheSample node cdr limit route).ringDepth = pub.reliableCache.ringDepth) := by
  have hle : sampleDatagramCount node cdr node.fragWholeLimit ≤ 64 := sampleDatagramCount_le hlen
  obtain ⟨_, _, hd, hs, _⟩ := (makeDepthRoom_steady h.steady).store route.now
    (sampleDatagramCount_pos node cdr node.fragWholeLimit) (by omega)
    (fun hm => sampleDatagramCount_eq hl hm) hsound
  rw [← checkAndCacheSample_eq] at hd hs
  constructor
  · rw [hs]
    unfold makeDepthRoom keepAllRoomBeforeMatch
    simp only [hk, if_true]
    split
    · rfl
    · exact ReliableCache.growUntil_sampleDepth _ _
  · intro hm
    rw [hd, makeDepthRoom_matched hk hm]

theorem Kept.stored {groups : Prop} (h : Kept node pub) (hd : pub.reliableCache.ringDepth ≠ 0)
    (hgoal : ∀ old left : List (List Held),
      pub.reliableCache.Ready pub.reliableCache.ringDepth old left (pub.seqNo + 1) →
      ReliableCache.Whole node (old ++ left) → groups) : groups := by
  cases h.steady with
  | unused h0 _ => exact absurd h0 hd
  | ready old left hR hw => exact hgoal old left hR hw

/-- A write within the count bound keeps the acknowledgements near. -/
theorem Tracked.write {n : Nat} (h : Tracked node pub) (hk : pub.keepAll = true)
    (hle : n ≤ 64) (hlen : cdr.length ≤ node.maxSampleLength)
    (hl : node.fragWholeLimit ≤ limit) (hsound : CacheSound node pub cdr limit route)
    (hw : pub.keepAllWritable = true) (hacks : pub'.peerAcks = pub.peerAcks)
    (hseq : pub'.seqNo = pub.seqNo ∨ pub'.seqNo = plus pub.seqNo n)
    (hcache : pub'.reliableCache = pub.checkAndCacheSample node cdr limit route)
    (hd : pub'.reliableCache.ringDepth ≠ 0) : AckNear pub' := by
  cases hm : pub.anyPeerAckMatched with
  | false =>
    refine ackNear_of_unmatched ?_
    unfold anyPeerAckMatched at hm ⊢
    rw [hacks]
    exact hm
  | true =>
    rw [hcache, (checkAndCacheSample_depths h.kept hlen hl hsound hk).2 hm] at hd
    have hnear := h.near hk hd
    refine h.kept.stored hd fun old left hR _ => ?_
    obtain ⟨low, r, hA⟩ := ackedThrough_spec hm hnear hR.stored
    have hb := h.blocked
    have hlow := hA.outstanding (by omega) (by omega) (keepAllWritable_count hw hk hd hm)
    rcases hseq with hseq | hseq
    · exact hnear.of_subset hseq (by rw [hacks]; exact fun _ hx => hx)
    · exact hnear.advance hle hlow hacks hseq

theorem keepAllRefusesEncoded_blocked (h : pub.blockedDatagrams < 65536) (limit : Nat) :
    (pub.keepAllRefusesEncoded node cdr limit).2.blockedDatagrams < 65536 := by
  unfold keepAllRefusesEncoded
  simp only
  split
  · exact Nat.mod_lt _ (by omega)
  · split
    · exact h
    · exact h

theorem publish_blocked (h : pub.blockedDatagrams < 65536) :
    (pub.publish node cdr route).2.blockedDatagrams < 65536 := by
  have hr := @keepAllRefusesEncoded_blocked node pub cdr h node.fragWholeLimit
  have h0 : 0 < 65536 := by omega
  unfold publish
  split
  · exact h
  split
  · exact h
  simp only
  split
  · exact hr
  split
  · exact h0
  split
  · exact h0
  · exact h0

theorem publish_frame : (pub.publish node cdr route).2.peerAcks = pub.peerAcks ∧
    (pub.publish node cdr route).2.keepAll = pub.keepAll := by
  cases ha : pub.admitted node cdr with
  | true => rw [publish_of_admitted ha]; exact ⟨rfl, rfl⟩
  | false => exact (publish_of_not_admitted ha).2.2.2

theorem Tracked.publish (h : Tracked node pub) (hs : (Event.publish cdr route).CacheSound node pub) :
    Tracked node (pub.publish node cdr route).2 := by
  have hkept := h.kept.publish hs
  have hblocked := @publish_blocked node pub cdr route h.blocked
  cases ha : pub.admitted node cdr with
  | false =>
    obtain ⟨h1, h2, _, h4, h5⟩ := @publish_of_not_admitted node pub cdr route ha
    refine ⟨hkept, ?_, hblocked, ?_⟩
    · rw [h1, h5]
      exact h.samples
    · rw [h1, h5]
      intro hk hd
      exact (h.near hk hd).of_subset h2 (by rw [h4]; exact fun _ hx => hx)
  | true =>
    have hin := ha
    simp only [admitted, Bool.and_eq_true, decide_eq_true_eq] at hin
    have hlimit := fragWholeLimit_le_wholeLimit node route
    rw [publish_of_admitted ha] at hkept hblocked ⊢
    refine ⟨hkept, ?_, hblocked, ?_⟩
    · intro hk
      exact (checkAndCacheSample_depths h.kept hin.1.2 hlimit (hs ha) hk).1.trans (h.samples hk)
    · intro hk hd
      refine h.write (n := sampleDatagramCount node cdr node.fragWholeLimit) hk
        (sampleDatagramCount_le hin.1.2) hin.1.2 hlimit (hs ha) hin.1.1 rfl ?_ rfl hd
      simp only
      split
      · exact Or.inl rfl
      · exact Or.inr rfl

theorem claimRelease_terms (payload : Nat) : SameTerms pub (pub.claimRelease payload) :=
  ⟨rfl, rfl, rfl, rfl, rfl⟩

/-- A claimed slot's sample goes in whole as it is. -/
theorem claimed_cacheSound {payload : Nat} {claim : Claim} (h : Kept node pub)
    (hf : pub.claims.find? (fun c => c.payload = payload) = some claim)
    (hlen : cdr.length ≤ claim.length) : CacheSound node pub cdr node.fragWholeLimit route := by
  obtain ⟨_, hone⟩ := h.claims.single hf hlen
  unfold CacheSound ReliableCache.StoreSound
  rw [if_neg (by omega)]
  exact Or.inl hone

theorem Tracked.publishClaimed {payload : Nat} {moved : Bool} (h : Tracked node pub)
    (hs : (Event.publishClaimed payload cdr moved route).CacheSound node pub) :
    Tracked node (pub.publishClaimed node payload cdr moved route).2 := by
  have hkept := h.kept.publishClaimed hs
  revert hkept
  unfold Publisher.publishClaimed
  cases hf : pub.claims.find? (fun c => c.payload = payload) with
  | none => exact fun _ => h
  | some claim =>
    simp only
    split
    · intro hkept
      exact h.of_terms hkept (claimRelease_terms payload) fun _ hx => Or.inl hx
    next hlen =>
    split
    · intro hkept
      exact h.of_terms hkept ⟨rfl, rfl, rfl, rfl, rfl⟩ fun _ hx => Or.inl hx
    next hw =>
    split
    · next hm =>
      intro hkept
      have hp := @Tracked.publish node pub cdr route h (hs hm)
      exact hp.of_terms hkept (claimRelease_terms payload) fun _ hx => Or.inl hx
    · intro hkept
      have hsound := @claimed_cacheSound node pub cdr route payload claim h.kept hf
        (Nat.le_of_not_lt hlen)
      obtain ⟨hmax, _⟩ := h.kept.claims.single hf (Nat.le_of_not_lt hlen)
      simp only [Bool.not_eq_true', Bool.not_eq_false] at hw
      refine ⟨hkept, ?_, Nat.zero_lt_succ _, ?_⟩
      · intro hk
        exact (checkAndCacheSample_depths h.kept hmax (Nat.le_refl _) hsound hk).1.trans (h.samples hk)
      · intro hk hd
        refine h.write (n := 1) hk (by omega) hmax (Nat.le_refl _) hsound hw rfl (Or.inr ?_) rfl hd
        rw [plus_succ_right, plus_zero]

theorem Tracked.claimPeerAck (h : Tracked node pub) (contextId entityId trackingWords : Nat) :
    Tracked node (pub.claimPeerAck contextId entityId trackingWords) := by
  unfold Publisher.claimPeerAck
  split
  · exact h
  · refine h.of_terms (h.kept.of_eq rfl rfl fun _ hc => hc) ⟨rfl, rfl, rfl, rfl, rfl⟩ ?_
    intro x hx
    rcases mem_claimEntry _ hx with rfl | hx
    · exact Or.inr (unackedFrom_near h.kept.steady)
    · exact Or.inl hx

theorem Tracked.recordPeerAck (h : Tracked node pub) (contextId entityId : Nat) {seqNo : SeqNo}
    (hseq : -2 ^ 30 < seqDelta seqNo (pub.seqNo + 1) ∧ seqDelta seqNo (pub.seqNo + 1) < 2 ^ 30) :
    Tracked node (pub.recordPeerAck contextId entityId seqNo) := by
  unfold Publisher.recordPeerAck
  split
  · exact h
  · refine h.of_terms (h.kept.of_eq rfl rfl fun _ hc => hc) ⟨rfl, rfl, rfl, rfl, rfl⟩ ?_
    intro x hx
    rcases mem_advanceAck hx with rfl | hx
    · exact Or.inr hseq
    · exact Or.inl hx

theorem Tracked.notifyWritableIfPending (h : Tracked node pub) :
    Tracked node pub.notifyWritableIfPending := by
  unfold Publisher.notifyWritableIfPending
  split
  · exact h
  · exact h.of_terms (h.kept.of_eq rfl rfl fun _ hc => hc) ⟨rfl, rfl, rfl, rfl, rfl⟩
      fun _ hx => Or.inl hx

theorem claimPeerAck_seqNo (contextId entityId trackingWords : Nat) :
    (pub.claimPeerAck contextId entityId trackingWords).seqNo = pub.seqNo := by
  unfold claimPeerAck
  split <;> rfl

theorem Tracked.processAcknack {contextId entityId : Nat} {seqNo : SeqNo} {bitmap : List (BitVec 64)}
    {claims : Bool} {repair : Repair} (h : Tracked node pub)
    (hseq : -2 ^ 30 < seqDelta seqNo (pub.seqNo + 1) ∧ seqDelta seqNo (pub.seqNo + 1) < 2 ^ 30) :
    Tracked node (pub.processAcknack contextId entityId seqNo bitmap claims repair).1 := by
  unfold Publisher.processAcknack
  split
  · exact h
  next hwords =>
  split
  · exact h
  simp only
  generalize hp : (Publisher.recordPeerAck _ contextId entityId seqNo).notifyWritableIfPending = p
  have htracked : Tracked node p := by
    rw [← hp]
    refine Tracked.notifyWritableIfPending ?_
    split
    · refine (h.claimPeerAck contextId entityId 0).recordPeerAck contextId entityId ?_
      rw [claimPeerAck_seqNo]
      exact hseq
    · exact h.recordPeerAck contextId entityId hseq
  split
  · obtain ⟨ht, _⟩ := @ReliableCache.retransmit_walk p.reliableCache.ringDepth repair
      p.lifespanDuration p.keepAll _ (requested_nodup seqNo (Nat.le_of_not_lt hwords))
      ⟨p.reliableCache, [], false⟩
    exact htracked.of_terms ⟨htracked.kept.steady.touched ht, htracked.kept.claims⟩
      ⟨rfl, rfl, rfl, ht.sampleDepth, ht.ringDepth⟩ fun _ hx => Or.inl hx
  · exact htracked

theorem Tracked.step (h : Tracked node pub) (event : Event) (hs : event.Sound node pub) :
    Tracked node (pub.step node event) := by
  have hkept := h.kept.step event hs.cacheSound
  cases event with
  | publish cdr route => exact h.publish hs
  | claim capacity granted =>
    revert hkept
    simp only [Publisher.step]
    unfold Publisher.claim
    split
    · exact fun _ => h
    split
    · exact fun hkept => h.of_terms hkept ⟨rfl, rfl, rfl, rfl, rfl⟩ fun _ hx => Or.inl hx
    simp only
    split
    · exact fun _ => h
    cases granted with
    | none => exact fun _ => h
    | some payload =>
      exact fun hkept => h.of_terms hkept ⟨rfl, rfl, rfl, rfl, rfl⟩ fun _ hx => Or.inl hx
  | publishClaimed payload cdr moved route => exact h.publishClaimed hs
  | abandonClaim payload =>
    revert hkept
    simp only [Publisher.step, abandonClaim]
    split
    · exact fun _ => h
    · exact fun hkept => h.of_terms hkept (claimRelease_terms payload) fun _ hx => Or.inl hx
  | matched contextId entityId trackingWords => exact h.claimPeerAck contextId entityId trackingWords
  | unmatched contextId entityId =>
    exact h.of_terms hkept ⟨rfl, rfl, rfl, rfl, rfl⟩ fun _ hx => Or.inl (mem_forgetPeerAck hx)
  | acknack contextId entityId seqNo bitmap claims repair => exact h.processAcknack hs

theorem create_tracked (opts : PublisherOptions) : Tracked node (create opts) := by
  refine ⟨create_kept opts, ?_, Nat.zero_lt_succ _, ?_⟩
  · intro hk
    simp only [create, Bool.and_eq_true] at hk
    simp [create, hk.1]
  · intro _ _ x hx
    simp [create, ackSeqNos] at hx

theorem Reachable.tracked (h : Reachable node (fun pub e => e.Sound node pub) pub) :
    Tracked node pub := by
  induction h with
  | start opts => exact create_tracked opts
  | next event _ hs ih => exact ih.step event hs

/-! ## What a publish evicts -/

/-- The bytes a sample is cached as, in the form its destinations take it in, pass the simulated
eviction. -/
def BytesAdmitted (node : Context) (pub : Publisher) (cdr : List UInt8) (limit : Nat) : Prop :=
  pub.reliableCache.admits pub.reliableCache.ringDepth (sampleCacheFootprint node cdr limit)
    pub.keepAllAckedThrough = true

/-- The records evicted on the way from `pub` to `pub'` are owed to nobody. -/
def EvictsAcked (node : Context) (pub pub' : Publisher) : Prop :=
  ∃ gone, pub'.reliableCache.evicted = gone ++ pub.reliableCache.evicted ∧
    ∀ r ∈ gone, SampleAcked node pub r

theorem evictsAcked_of_eq (h : pub'.reliableCache = pub.reliableCache) :
    EvictsAcked node pub pub' := ⟨[], by rw [h]; rfl, by simp⟩

/-- The checks bound what is outstanding behind the sample's last seq_no. -/
theorem Tracked.run_le {n : Nat} (h : Tracked node pub) (hk : pub.keepAll = true)
    (hm : pub.anyPeerAckMatched = true) (hw : pub.keepAllWritable = true)
    (hd : pub.reliableCache.ringDepth ≠ 0) (hle : n ≤ 64)
    (hcount : n > 1 → steps pub.keepAllAckedThrough (plus pub.seqNo n) ≤ pub.keepAllBound) :
    (n : Int) - 1 - seqDelta pub.keepAllAckedThrough (pub.seqNo + 1) ≤
      pub.reliableCache.ringDepth := by
  refine h.kept.stored hd fun old left hR _ => ?_
  obtain ⟨low, r, hA⟩ := ackedThrough_spec hm (h.near hk hd) hR.stored
  have h1 := h.blocked
  have h2 := @keepAllBound_le pub
  have h3 := pub.reliableCache.ringDepth_lt
  by_cases hn : n > 1
  · have h4 := (hA.count (by omega) (by omega)).mp (hcount hn)
    omega
  · have h4 := (hA.count (by omega) (by omega)).mp (keepAllWritable_count hw hk hd hm)
    omega

/-- A write that passed the checks for the bytes it stores. -/
theorem Tracked.write_evicts {n : Nat} (h : Tracked node pub) (hk : pub.keepAll = true)
    (hm : pub.anyPeerAckMatched = true) (hw : pub.keepAllWritable = true)
    (hn : sampleDatagramCount node cdr node.fragWholeLimit = n)
    (hl : node.fragWholeLimit ≤ limit) (hlen : cdr.length ≤ node.maxSampleLength)
    (hcount : pub.reliableCache.ringDepth ≠ 0 → n > 1 →
      steps pub.keepAllAckedThrough (plus pub.seqNo n) ≤ pub.keepAllBound)
    (hsound : CacheSound node pub cdr limit route) (hbytes : BytesAdmitted node pub cdr limit)
    (huncut : SpansUncut node pub)
    (hcache : pub'.reliableCache = pub.checkAndCacheSample node cdr limit route) :
    EvictsAcked node pub pub' := by
  unfold EvictsAcked
  rw [hcache]
  by_cases hd : pub.reliableCache.ringDepth = 0
  · rw [checkAndCacheSample_eq, makeDepthRoom_matched hk hm, ReliableCache.store_unused hd]
    exact ⟨[], rfl, by simp⟩
  · refine h.kept.stored hd fun old left hR hwhole => ?_
    subst hn
    exact checkAndCacheSample_evicts hk hm (h.samples hk) (h.near hk hd) hR
      (fun g hg => hwhole g (by simp [hg])) hl hlen
      (h.run_le hk hm hw hd (sampleDatagramCount_le hlen) (hcount hd)) hsound hbytes huncut

/-- What has to hold of a publish for its eviction to stop at what is owed. -/
structure PublishSound (node : Context) (pub : Publisher) (cdr : List UInt8) (route : Route) :
    Prop where
  whole : CacheSound node pub cdr (wholeLimit node route) route
  bytes : BytesAdmitted node pub cdr (wholeLimit node route)
  uncut : SpansUncut node pub

theorem Tracked.publish_evicts (h : Tracked node pub) (hk : pub.keepAll = true)
    (hm : pub.anyPeerAckMatched = true)
    (hs : pub.admitted node cdr = true → PublishSound node pub cdr route) :
    EvictsAcked node pub (pub.publish node cdr route).2 := by
  cases ha : pub.admitted node cdr with
  | false => exact evictsAcked_of_eq (publish_of_not_admitted ha).1
  | true =>
    have hin := ha
    simp only [admitted, Bool.and_eq_true, decide_eq_true_eq] at hin
    refine h.write_evicts hk hm hin.1.1 rfl (fragWholeLimit_le_wholeLimit node route) hin.1.2 ?_
      (hs ha).whole (hs ha).bytes (hs ha).uncut (by rw [publish_of_admitted ha]; rfl)
    intro hd
    exact (admission_of_admitted ha hk hd hm).datagrams

/-- KEEP_ALL drops nothing that is owed: in every sound run, a publish evicts only records of samples
that every matched Subscriber has acknowledged whole. -/
theorem keepAll_publish_evicts_acked (h : Reachable node (fun pub e => e.Sound node pub) pub)
    (hk : pub.keepAll = true) (hm : pub.anyPeerAckMatched = true)
    (hs : pub.admitted node cdr = true → PublishSound node pub cdr route) :
    EvictsAcked node pub (pub.publish node cdr route).2 :=
  h.tracked.publish_evicts hk hm hs

/-- Only whole records over several seq_nos can be cut by an acknowledgement. -/
theorem spansUncut_of_slots (hd : 0 < pub.reliableCache.ringDepth)
    (h : ∀ i < pub.reliableCache.ringDepth,
      ((pub.reliableCache.retained pub.reliableCache.ringDepth (pub.reliableCache.index i).seqNo).all
        fun r => r.continues || decide (r.span node = 1)) = true) : SpansUncut node pub := by
  intro x r hr hcont ack _ hpast j hj
  have hlive : (pub.reliableCache.slot pub.reliableCache.ringDepth x).seqNo = x := by
    unfold ReliableCache.retained at hr
    split at hr
    · cases hr
    split at hr
    · next hl => exact (ReliableCache.slotLive_iff.mp hl).2
    · cases hr
  have hslot := h (pub.reliableCache.slotIndex pub.reliableCache.ringDepth x)
    (Nat.mod_lt _ hd)
  rw [show (pub.reliableCache.index (pub.reliableCache.slotIndex pub.reliableCache.ringDepth x)).seqNo
    = x from hlive, hr] at hslot
  simp only [Option.all_some, hcont, Bool.false_or, decide_eq_true_eq] at hslot
  obtain rfl : j = 0 := by omega
  rw [plus_zero]
  exact hpast

/-- RELIABLE, KEEP_ALL, with a ring of 8 and an arena of `arenaSize` bytes. -/
def keepAllHistory (arenaSize : Nat) : PublisherOptions :=
  { shortHistory arenaSize with historyKeepAll := true, historyDepth := 0 }

/-- One Subscriber, and a sample of `length` bytes that it has acknowledged. -/
def onceAcked (arenaSize length : Nat) : Publisher :=
  (((create (keepAllHistory arenaSize)).step smallLink (.matched 7 9 0)).step smallLink
    (.publish (List.replicate length 0) plainRoute)).step smallLink
    (.acknack 7 9 2 [] false plainRepair)

/-- Two samples of 40 bytes do not fit the arena together: the acknowledged one goes. -/
theorem keepAll_publish_evicts_acked_once :
    EvictsAcked smallLink (onceAcked 100 40)
      ((onceAcked 100 40).publish smallLink (List.replicate 40 0) plainRoute).2 ∧
    ((onceAcked 100 40).publish smallLink (List.replicate 40 0) plainRoute).2.reliableCache.evicted.map
      Record.seqNo = [1] := by
  refine ⟨keepAll_publish_evicts_acked ?_ (by decide +kernel) (by decide +kernel) ?_,
    by decide +kernel⟩
  · refine .next _ (.next _ (.next _ (.start _) trivial) ?_) ?_
    · intro _
      unfold CacheSound ReliableCache.StoreSound
      rw [if_neg (by decide +kernel)]
      exact Or.inl (by decide +kernel)
    · exact ⟨by decide +kernel, by decide +kernel⟩
  · intro _
    refine ⟨?_, by unfold BytesAdmitted; decide +kernel, ?_⟩
    · unfold CacheSound ReliableCache.StoreSound
      rw [if_neg (by decide +kernel)]
      exact Or.inl (by decide +kernel)
    · exact spansUncut_of_slots (by decide +kernel) (by decide +kernel)

/-- Two fragments that fit an empty arena of 600 bytes pass the simulated eviction, but behind the 24
bytes already there the second takes the place of the first. -/
theorem keepAll_fragment_evicts_own :
    ¬ ∀ (node : Context) (pub : Publisher), Reachable node (fun _ _ => True) pub →
      pub.keepAll = true → pub.anyPeerAckMatched = true →
      ∀ cdr route, EvictsAcked node pub (pub.publish node cdr route).2 := by
  intro h
  have hr : Reachable smallLink (fun _ _ => True) (onceAcked 600 4) :=
    .next _ (.next _ (.next _ (.start _) trivial) trivial) trivial
  obtain ⟨gone, hlog, hall⟩ := h _ _ hr (by decide +kernel) (by decide +kernel)
    (List.replicate 563 0) plainRoute
  have h0 : (onceAcked 600 4).reliableCache.evicted = [] := by decide +kernel
  rw [h0, List.append_nil] at hlog
  have hmem : ((onceAcked 600 4).publish smallLink (List.replicate 563 0)
      plainRoute).2.reliableCache.evicted.any
        (fun r => decide (r.sampleSeqNo = 2) && decide (0 < r.span smallLink)) = true := by
    decide +kernel
  rw [hlog, List.any_eq_true] at hmem
  obtain ⟨r, hr, hboth⟩ := hmem
  simp only [Bool.and_eq_true, decide_eq_true_eq] at hboth
  have hack := hall r hr 0 hboth.2 2 (by decide +kernel)
  rw [hboth.1] at hack
  revert hack
  decide

/-! ## Publishing a claimed slot -/

/-- What has to hold when a claimed slot is published: the record still passes the simulated eviction
that was asked when it was claimed. -/
def ClaimedSound (node : Context) (pub : Publisher) (cdr : List UInt8) (moved : Bool) (route : Route) :
    Prop :=
  if moved then pub.admitted node cdr = true → PublishSound node pub cdr route
  else BytesAdmitted node pub cdr node.fragWholeLimit ∧ SpansUncut node pub

/-- In every sound run, whatever came between the claim and its publish, the publish of a claimed slot
that meets `ClaimedSound` evicts only what every matched Subscriber has acknowledged. -/
theorem keepAll_publishClaimed_evicts_acked {payload : Nat} {moved : Bool}
    (h : Reachable node (fun pub e => e.Sound node pub) pub) (hk : pub.keepAll = true)
    (hm : pub.anyPeerAckMatched = true) (hs : ClaimedSound node pub cdr moved route) :
    EvictsAcked node pub (pub.publishClaimed node payload cdr moved route).2 := by
  have ht := h.tracked
  unfold ClaimedSound at hs
  unfold publishClaimed
  cases hf : pub.claims.find? (fun c => c.payload = payload) with
  | none => exact evictsAcked_of_eq rfl
  | some claim =>
    simp only
    split
    · exact evictsAcked_of_eq rfl
    next hlen =>
    split
    · exact evictsAcked_of_eq rfl
    next hw =>
    simp only [Bool.not_eq_true', Bool.not_eq_false] at hw
    split
    · next hmoved =>
      rw [if_pos hmoved] at hs
      exact ht.publish_evicts hk hm hs
    · next hmoved =>
      rw [if_neg hmoved] at hs
      obtain ⟨hmax, hone⟩ := ht.kept.claims.single hf (Nat.le_of_not_lt hlen)
      exact ht.write_evicts hk hm hw hone (Nat.le_refl _) hmax (fun _ hmany => absurd hmany (by omega))
        (claimed_cacheSound ht.kept hf (Nat.le_of_not_lt hlen)) hs.1 hs.2 rfl

/-- One Subscriber; a slot of 40 bytes claimed, and 40 bytes published beside it. -/
def claimedBeside (arenaSize : Nat) : Publisher :=
  (((create (keepAllHistory arenaSize)).step smallLink (.matched 7 9 0)).step smallLink
    (.claim 40 (some 1))).step smallLink (.publish (List.replicate 40 0) plainRoute)

/-- With the other sample acknowledged in time, the claimed slot's sample takes its place. -/
theorem keepAll_publishClaimed_evicts_acked_once :
    EvictsAcked smallLink ((claimedBeside 100).step smallLink (.acknack 7 9 2 [] false plainRepair))
      (((claimedBeside 100).step smallLink (.acknack 7 9 2 [] false plainRepair)).publishClaimed
        smallLink 1 (List.replicate 40 0) false plainRoute).2 ∧
    (((claimedBeside 100).step smallLink (.acknack 7 9 2 [] false plainRepair)).publishClaimed
      smallLink 1 (List.replicate 40 0) false plainRoute).2.reliableCache.evicted.map Record.seqNo =
        [1] := by
  refine ⟨keepAll_publishClaimed_evicts_acked ?_ (by decide +kernel) (by decide +kernel) ?_,
    by decide +kernel⟩
  · refine .next _ (.next _ (.next _ (.next _ (.start _) trivial) trivial) ?_) ?_
    · intro _
      unfold CacheSound ReliableCache.StoreSound
      rw [if_neg (by decide +kernel)]
      exact Or.inl (by decide +kernel)
    · exact ⟨by decide +kernel, by decide +kernel⟩
  · unfold ClaimedSound
    rw [if_neg (by decide)]
    exact ⟨by unfold BytesAdmitted; decide +kernel,
      spansUncut_of_slots (by decide +kernel) (by decide +kernel)⟩

/-- The room asked about at the claim is taken by a publish in between, and the claimed slot's sample
then takes the place of that one, which nobody has acknowledged. -/
theorem publishClaimed_evicts_owed :
    ¬ ∀ (node : Context) (pub : Publisher), Reachable node (fun _ _ => True) pub →
      pub.keepAll = true → pub.anyPeerAckMatched = true →
      ∀ payload cdr moved route,
        (pub.publishClaimed node payload cdr moved route).1 = .wouldBlock ∨
        EvictsAcked node pub (pub.publishClaimed node payload cdr moved route).2 := by
  intro h
  have hr : Reachable smallLink (fun _ _ => True) (claimedBeside 100) :=
    .next _ (.next _ (.next _ (.start _) trivial) trivial) trivial
  rcases h _ _ hr (by decide +kernel) (by decide +kernel) 1 (List.replicate 40 0) false plainRoute with
    hblock | ⟨gone, hlog, hall⟩
  · revert hblock
    decide +kernel
  · have h0 : (claimedBeside 100).reliableCache.evicted = [] := by decide +kernel
    rw [h0, List.append_nil] at hlog
    have hmem : ((claimedBeside 100).publishClaimed smallLink 1 (List.replicate 40 0) false
        plainRoute).2.reliableCache.evicted.any
          (fun r => decide (r.sampleSeqNo = 1) && decide (0 < r.span smallLink)) = true := by
      decide +kernel
    rw [hlog, List.any_eq_true] at hmem
    obtain ⟨r, hr, hboth⟩ := hmem
    simp only [Bool.and_eq_true, decide_eq_true_eq] at hboth
    have hack := hall r hr 0 hboth.2 1 (by decide +kernel)
    rw [hboth.1] at hack
    revert hack
    decide

end Publisher

end Tickle
