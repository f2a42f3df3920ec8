import Tickle.Writer.KeepAll

/-! # What is still owed

A sample is owed until every matched Subscriber has acknowledged all its datagrams. KEEP_ALL's checks
compare seq_nos with wrapping arithmetic; while every acknowledgement lies within `2 ^ 30` of the next
seq_no (`AckNear`) they say what they are meant to say: no more than the bound is outstanding, and what
the write evicts is owed to nobody.
-/

namespace Tickle

open Serial Loop RingArena

namespace Publisher

variable {node : Context} {pub pub' : Publisher} {cdr : List UInt8} {limit : Nat} {route : Route}
  {old left : List (List Held)}

/-- Every matched Subscriber has acknowledged `x`. -/
def Acknowledged (pub : Publisher) (x : SeqNo) : Prop :=
  ∀ ack ∈ ackSeqNos pub.peerAcks, 0 < seqDelta ack x

instance (pub : Publisher) (x : SeqNo) : Decidable (pub.Acknowledged x) :=
  List.decidableBAll (fun ack => 0 < seqDelta ack x) (ackSeqNos pub.peerAcks)

/-- Every datagram of the record's sample is acknowledged. -/
def SampleAcked (node : Context) (pub : Publisher) (r : Record) : Prop :=
  ∀ j < r.span node, pub.Acknowledged (plus r.sampleSeqNo j)

instance (node : Context) (pub : Publisher) (r : Record) : Decidable (SampleAcked node pub r) :=
  inferInstanceAs (Decidable (∀ j < r.span node, pub.Acknowledged (plus r.sampleSeqNo j)))

/-! ## The checks without the wrapping -/

/-- `keep_all_acked_through()` seen from the next seq_no. -/
structure AckedThrough (pub : Publisher) (low : SeqNo) (r : Nat) : Prop where
  lowest : low ∈ ackSeqNos pub.peerAcks
  least : ∀ y ∈ ackSeqNos pub.peerAcks, seqDelta low (pub.seqNo + 1) ≤ seqDelta y (pub.seqNo + 1)
  near : -2 ^ 30 < seqDelta low (pub.seqNo + 1) ∧ seqDelta low (pub.seqNo + 1) < 2 ^ 30
  rounded : r ≤ 65536
  through : seqDelta pub.keepAllAckedThrough (pub.seqNo + 1) =
    seqDelta low (pub.seqNo + 1) - 1 - r
  starts : pub.reliableCache.recordContinues pub.reliableCache.ringDepth
    (pub.keepAllAckedThrough + 1) = false

theorem ackedThrough_spec {groups : List (List Held)} (hm : pub.anyPeerAckMatched = true)
    (hnear : AckNear pub)
    (hs : pub.reliableCache.Stored pub.reliableCache.ringDepth groups) :
    ∃ low r, AckedThrough pub low r := by
  obtain ⟨low, hlow, hmem, hle⟩ := peerAckLowest_spec hm hnear.comparable
  obtain ⟨r, hr, hplus, hstart, _⟩ := keepAllAckedThrough_spec hs
  have hn := hnear low hmem
  rw [hlow, Option.getD_some] at hplus
  have hback : plus pub.keepAllAckedThrough (r + 1) = low := by
    rw [plus_succ_right, hplus]
    bv_omega
  have hahead : seqDelta low pub.keepAllAckedThrough = (r + 1 : Nat) := by
    rw [← hback]
    exact seqDelta_plus _ (by omega)
  have hswap := @seqDelta_swap low pub.keepAllAckedThrough (by omega)
  refine ⟨low, r, hmem, hle, hn, hr, ?_, hstart⟩
  rw [@seqDelta_add pub.keepAllAckedThrough low (pub.seqNo + 1) (by omega) (by omega)]
  omega

theorem seqDelta_plus_succ (x : SeqNo) {n : Nat} (h : n < 2 ^ 31) :
    seqDelta (plus x n) (x + 1) = (n : Int) - 1 := by
  cases n with
  | zero =>
    rw [plus_zero, @seqDelta_eq_neg_steps x (x + 1) (by rw [steps_succ]; omega)
      (by rw [steps_succ]; omega), steps_succ]
    rfl
  | succ n =>
    rw [plus_succ, seqDelta_plus _ (by omega)]
    omega

/-- The unacknowledged run is counted without wrapping. -/
theorem AckedThrough.count {low : SeqNo} {r n bound : Nat} (h : AckedThrough pub low r)
    (hn : n < 2 ^ 17) (hbound : bound < 2 ^ 31) :
    steps pub.keepAllAckedThrough (plus pub.seqNo n) ≤ bound ↔
      0 ≤ (n : Int) - 1 - seqDelta pub.keepAllAckedThrough (pub.seqNo + 1) ∧
        (n : Int) - 1 - seqDelta pub.keepAllAckedThrough (pub.seqNo + 1) ≤ bound := by
  have h1 := seqDelta_plus_succ pub.seqNo (n := n) (by omega)
  have h2 := h.through
  have h3 := h.near
  have h4 := h.rounded
  have h5 := @seqDelta_sub (plus pub.seqNo n) pub.keepAllAckedThrough (pub.seqNo + 1) (by omega)
    (by omega) (by omega)
  constructor
  · intro hle
    have h6 := @seqDelta_eq_steps (plus pub.seqNo n) pub.keepAllAckedThrough (by omega)
    omega
  · rintro ⟨h6, h7⟩
    have h8 := (seqDelta_nonneg (plus pub.seqNo n) pub.keepAllAckedThrough).mp (by omega)
    have h9 := seqDelta_eq_steps h8
    omega

theorem keepAllBound_le : pub.keepAllBound ≤ pub.reliableCache.ringDepth := by
  unfold keepAllBound
  simp only
  split <;> omega

theorem keepAllWritable_iff (hk : pub.keepAll = true) (hd : pub.reliableCache.ringDepth ≠ 0)
    (hm : pub.anyPeerAckMatched = true) :
    pub.keepAllWritable = true ↔
      steps pub.keepAllAckedThrough (plus pub.seqNo (max pub.blockedDatagrams 1)) ≤
        pub.keepAllBound ∧
      (pub.blockedRecordBytes ≠ 0 → pub.reliableCache.admits pub.reliableCache.ringDepth
        pub.blockedRecordBytes pub.keepAllAckedThrough = true) := by
  have hmax : (if pub.blockedDatagrams > 1 then pub.blockedDatagrams else 1) =
      max pub.blockedDatagrams 1 := by
    split <;> omega
  unfold keepAllWritable
  simp only [hk, hd, hm, hmax, Bool.not_true, decide_false, Bool.or_self, Bool.false_eq_true,
    if_false]
  change (if steps pub.keepAllAckedThrough _ > _ then false else _) = true ↔ _
  by_cases hrun : steps pub.keepAllAckedThrough (plus pub.seqNo (max pub.blockedDatagrams 1)) >
      pub.keepAllBound
  · rw [if_pos hrun]
    simp only [Bool.false_eq_true, false_iff, not_and]
    omega
  · rw [if_neg hrun]
    simp only [Nat.le_of_not_lt hrun, true_and]
    by_cases h0 : pub.blockedRecordBytes = 0
    · simp [h0]
    · simp [h0]

theorem keepAllWritable_count (hw : pub.keepAllWritable = true) (hk : pub.keepAll = true)
    (hd : pub.reliableCache.ringDepth ≠ 0) (hm : pub.anyPeerAckMatched = true) :
    steps pub.keepAllAckedThrough (plus pub.seqNo (max pub.blockedDatagrams 1)) ≤
      pub.keepAllBound := ((keepAllWritable_iff hk hd hm).mp hw).1

/-- What passing `keep_all_refuses_encoded()` says. -/
structure Admission (node : Context) (pub : Publisher) (cdr : List UInt8) : Prop where
  datagrams : sampleDatagramCount node cdr node.fragWholeLimit > 1 →
    steps pub.keepAllAckedThrough
      (plus pub.seqNo (sampleDatagramCount node cdr node.fragWholeLimit)) ≤ pub.keepAllBound
  bytes : pub.reliableCache.admits pub.reliableCache.ringDepth
    (sampleCacheFootprint node cdr node.fragWholeLimit) pub.keepAllAckedThrough = true

theorem keepAllRefusedRecordBytes_eq_zero (hk : pub.keepAll = true)
    (hm : pub.anyPeerAckMatched = true) : pub.keepAllRefusedRecordBytes node cdr limit = 0 ↔
      pub.reliableCache.admits pub.reliableCache.ringDepth (sampleCacheFootprint node cdr limit)
        pub.keepAllAckedThrough = true := by
  have hpos := sampleCacheFootprint_pos node cdr limit
  unfold keepAllRefusedRecordBytes
  simp only [hk, hm, Bool.not_true, Bool.or_self, Bool.false_eq_true, if_false]
  split
  · next hadm => simp [hadm]
  · next hadm =>
    constructor
    · intro h0
      omega
    · intro h
      exact absurd h hadm

theorem keepAllRefusesEncoded_iff (hk : pub.keepAll = true) (hd : pub.reliableCache.ringDepth ≠ 0)
    (hm : pub.anyPeerAckMatched = true) :
    (pub.keepAllRefusesEncoded node cdr node.fragWholeLimit).1 = false ↔ Admission node pub cdr := by
  have hb := @keepAllRefusedRecordBytes_eq_zero node pub cdr node.fragWholeLimit hk hm
  unfold keepAllRefusesEncoded
  simp only [hk, hd, hm, ne_eq, not_false_eq_true, decide_true, Bool.and_true]
  split
  · next hrun =>
    simp only [Bool.and_eq_true, decide_eq_true_eq] at hrun
    simp only [Bool.true_eq_false, false_iff]
    intro h
    exact absurd (h.datagrams hrun.1) (Nat.not_le_of_gt hrun.2)
  · next hrun =>
    simp only [Bool.and_eq_true, decide_eq_true_eq, not_and] at hrun
    split
    · next hne =>
      simp only [Bool.true_eq_false, false_iff]
      intro h
      exact hne (hb.mpr h.bytes)
    · next heq =>
      simp only [true_iff]
      exact ⟨fun hmany => Nat.le_of_not_lt (hrun hmany), hb.mp (by simpa using heq)⟩

theorem admission_of_admitted (ha : pub.admitted node cdr = true) (hk : pub.keepAll = true)
    (hd : pub.reliableCache.ringDepth ≠ 0) (hm : pub.anyPeerAckMatched = true) :
    Admission node pub cdr := by
  simp only [admitted, Bool.and_eq_true, decide_eq_true_eq, Bool.not_eq_true'] at ha
  exact (keepAllRefusesEncoded_iff hk hd hm).mp ha.2

/-! ## Samples acknowledged whole -/

/-- No acknowledgement lies inside the seq_nos of a record retained whole: past its first is past all. -/
def SpansUncut (node : Context) (pub : Publisher) : Prop :=
  ∀ x r, pub.reliableCache.retained pub.reliableCache.ringDepth x = some r → r.continues = false →
    ∀ ack ∈ ackSeqNos pub.peerAcks, 0 < seqDelta ack x →
      ∀ j < r.span node, 0 < seqDelta ack (plus x j)

section Groups

variable {low : SeqNo} {r : Nat} {g : List Held}

/-- What was published before the next seq_no, seen from it. -/
theorem seqDelta_before (hR : pub.reliableCache.Ready pub.reliableCache.ringDepth old left
    (pub.seqNo + 1)) {h : Held} (hh : h ∈ old.flatten) :
    -2 ^ 30 < seqDelta h.seqNo (pub.seqNo + 1) ∧ seqDelta h.seqNo (pub.seqNo + 1) < 0 ∧
      seqDelta h.seqNo (pub.seqNo + 1) = -(steps h.seqNo (pub.seqNo + 1) : Int) := by
  obtain ⟨h1, h2⟩ := hR.before hh
  have h3 := seqDelta_eq_neg_steps h1 (by omega)
  omega

/-- Acknowledged is what lies at or before `keep_all_acked_through()`. -/
theorem AckedThrough.acknowledged (hA : AckedThrough pub low r) (hnear : AckNear pub) {x : SeqNo}
    (hx : -2 ^ 30 < seqDelta x (pub.seqNo + 1) ∧ seqDelta x (pub.seqNo + 1) < 2 ^ 30)
    (hle : seqDelta x (pub.seqNo + 1) ≤ seqDelta pub.keepAllAckedThrough (pub.seqNo + 1)) :
    pub.Acknowledged x := by
  intro ack hack
  have h1 := hA.least ack hack
  have h2 := hnear ack hack
  have h3 := hA.through
  rw [@seqDelta_sub ack x (pub.seqNo + 1) (by omega) (by omega) (by omega)]
  omega

/-- The first record of a sample held whole is under its first seq_no. -/
theorem sample_head {groups : List (List Held)} {first : SeqNo}
    (hs : pub.reliableCache.Stored pub.reliableCache.ringDepth groups) (hg : g ∈ groups)
    (hrec : g.map Held.record = (sampleRecords node first cdr limit).map some) :
    ∃ f ∈ g.head?, f.seqNo = first := by
  obtain ⟨f, conts, rfl, _⟩ := hs.grouped.samples g hg
  refine ⟨f, rfl, ?_⟩
  obtain ⟨x, hx, _, hseq⟩ := hs.records f (List.mem_flatten.mpr ⟨_, hg, by simp⟩)
  have hhead := congrArg List.head? hrec
  rw [List.map_cons, List.head?_cons, hx, List.head?_map] at hhead
  cases hl : (sampleRecords node first cdr limit).head? with
  | none => rw [hl] at hhead; cases hhead
  | some y =>
    rw [hl, Option.map_some, Option.some.injEq, Option.some.injEq] at hhead
    rw [← hseq, hhead, sampleRecords_seqNo (i := 0) (by rw [← hl, List.head?_eq_getElem?]), plus_zero]

/-- The fragments of a sample lie one behind the other. -/
theorem fragment_held {groups : List (List Held)} {count : Nat} {first : SeqNo}
    (hs : pub.reliableCache.Stored pub.reliableCache.ringDepth groups) (hg : g ∈ groups)
    (hrec : g.map Held.record = ((List.range count).map (fragRecord node first cdr count)).map some)
    {j : Nat} (hj : j < count) :
    ∃ h ∈ g, h.seqNo = plus first j ∧ h.continues = decide (j ≠ 0) := by
  have hmem : some (fragRecord node first cdr count j) ∈ g.map Held.record := by
    rw [hrec]
    exact List.mem_map_of_mem (List.mem_map_of_mem (List.mem_range.mpr hj))
  obtain ⟨h, hh, hr⟩ := List.mem_map.mp hmem
  obtain ⟨x, hx, _, hseq⟩ := hs.records h (List.mem_flatten.mpr ⟨g, hg, hh⟩)
  rw [hr, Option.some.injEq] at hx
  refine ⟨h, hh, ?_, ?_⟩
  · rw [← hseq, ← hx, ReliableCache.fragRecord_seqNo]
  · rw [Held.continues, hr, Option.any_some, ReliableCache.fragRecord_continues]

theorem group_length_le {groups : List (List Held)}
    (hs : pub.reliableCache.Stored pub.reliableCache.ringDepth groups) (hg : g ∈ groups) :
    g.length ≤ 65536 := by
  have h1 := ReliableCache.held_length_le pub.reliableCache pub.reliableCache.ringDepth
  have h2 : g.length ≤ groups.flatten.length := (List.sublist_flatten_of_mem hg).length_le
  have h3 := hs.grouped.ranged.depth_lt
  obtain ⟨f, conts, rfl, _⟩ := hs.grouped.samples g hg
  have h4 := hs.grouped.ranged.within (ReliableCache.mem_held (x := f) (by
    rw [hs.grouped.held]
    exact List.mem_flatten.mpr ⟨_, hg, by simp⟩)).1
  rw [hs.grouped.held] at h1
  omega

/-- The rounding passes over no continuation, so fragments whose first is covered are covered all. -/
theorem AckedThrough.fragments {first : SeqNo} {count : Nat} (hA : AckedThrough pub low r)
    (hR : pub.reliableCache.Ready pub.reliableCache.ringDepth old left (pub.seqNo + 1))
    (hg : g ∈ old)
    (hrec : g.map Held.record = ((List.range count).map (fragRecord node first cdr count)).map some)
    (hfirst : 0 ≤ seqDelta pub.keepAllAckedThrough first) {j : Nat} (hj : j < count) :
    -2 ^ 30 < seqDelta (plus first j) (pub.seqNo + 1) ∧
      seqDelta (plus first j) (pub.seqNo + 1) < 2 ^ 30 ∧
      seqDelta (plus first j) (pub.seqNo + 1) ≤ seqDelta pub.keepAllAckedThrough (pub.seqNo + 1) := by
  have hs := hR.stored
  have hgin : g ∈ old ++ left := by simp [hg]
  have hcount : count ≤ 65536 := by
    have h1 := congrArg List.length hrec
    have h2 := group_length_le hs hgin
    simp only [List.length_map, List.length_range] at h1
    omega
  have h2 := hA.through
  have h3 := hA.near
  have h4 := hA.rounded
  obtain ⟨f, hf, hfseq, _⟩ := fragment_held hs hgin hrec (j := 0) (by omega)
  obtain ⟨hlo, hhi, _⟩ := seqDelta_before hR (List.mem_flatten.mpr ⟨g, hg, hf⟩)
  rw [hfseq, plus_zero] at hlo hhi
  have hat : ∀ j < count, seqDelta (plus first j) (pub.seqNo + 1) =
      seqDelta first (pub.seqNo + 1) + j := by
    intro j hj
    have h5 := seqDelta_plus first (n := j) (by omega)
    rw [@seqDelta_add (plus first j) first (pub.seqNo + 1) (by omega) (by omega)]
    omega
  rw [@seqDelta_sub pub.keepAllAckedThrough first (pub.seqNo + 1) (by omega) (by omega)
    (by omega)] at hfirst
  have hj' := hat j hj
  refine ⟨by omega, by omega, ?_⟩
  by_contra hlt
  -- the seq_no after `ackedThrough` would be a continuation of this sample
  obtain ⟨k, hk⟩ : ∃ k : Nat, (k : Int) = seqDelta pub.keepAllAckedThrough (pub.seqNo + 1) -
      seqDelta first (pub.seqNo + 1) := ⟨_, Int.toNat_of_nonneg hfirst⟩
  have hthrough : plus first k = pub.keepAllAckedThrough := by
    have h6 := hat k (by omega)
    have h7 := @seqDelta_sub pub.keepAllAckedThrough (plus first k) (pub.seqNo + 1) (by omega)
      (by omega) (by omega)
    have h8 := (seqDelta_nonneg pub.keepAllAckedThrough (plus first k)).mp (by omega)
    rw [seqDelta_eq_steps h8] at h7
    exact steps_eq_zero.mp (by omega)
  obtain ⟨y, hy, hyseq, hycont⟩ := fragment_held hs hgin hrec (j := k + 1) (by omega)
  have hcont : pub.reliableCache.recordContinues pub.reliableCache.ringDepth
      (pub.keepAllAckedThrough + 1) = true := by
    rw [← hthrough, ← plus_succ_right]
    exact hs.recordContinues_iff.mpr
      ⟨y, List.mem_flatten.mpr ⟨g, hgin, hy⟩, hyseq, by simpa using hycont⟩
  rw [hA.starts] at hcont
  cases hcont

/-- A sample whose first record the rounded acknowledgement covers is acknowledged whole. -/
theorem AckedThrough.sampleAcked (hA : AckedThrough pub low r) (hnear : AckNear pub)
    (hR : pub.reliableCache.Ready pub.reliableCache.ringDepth old left (pub.seqNo + 1))
    (hw : ReliableCache.Whole node old) (huncut : SpansUncut node pub) (hg : g ∈ old)
    (hfirst : ∀ f ∈ g.head?, 0 ≤ seqDelta pub.keepAllAckedThrough f.seqNo) :
    ∀ h ∈ g, ∀ x, h.record = some x → SampleAcked node pub x := by
  intro h hh x hx j hj
  have hs := hR.stored
  have hgin : g ∈ old ++ left := by simp [hg]
  obtain ⟨first, cdr, limit, hrec⟩ := hw g hg
  obtain ⟨f, hf, hfseq⟩ := sample_head hs hgin hrec
  have hcovered := hfirst f hf
  rw [hfseq] at hcovered
  have hxin : x ∈ sampleRecords node first cdr limit := by
    have hmem : some x ∈ g.map Held.record := hx ▸ List.mem_map_of_mem hh
    rw [hrec] at hmem
    simpa using hmem
  obtain ⟨hsample, ⟨i, _, _, _, hfrags⟩ | hdata⟩ := sampleRecords_sample hxin
  · rw [hfrags] at hrec
    rw [hsample]
    obtain ⟨h1, h2, h3⟩ := hA.fragments hR hg hrec hcovered hj
    exact hA.acknowledged hnear ⟨h1, h2⟩ h3
  · -- one record over every seq_no of the sample
    obtain ⟨y, hy, _, hseq⟩ := hs.records h (List.mem_flatten.mpr ⟨g, hgin, hh⟩)
    rw [hx, Option.some.injEq] at hy
    have hx0 : h.seqNo = first := by rw [← hseq, ← hy, hdata]; rfl
    have hret : pub.reliableCache.retained pub.reliableCache.ringDepth first = some x :=
      hs.retained_eq.mpr ⟨h, List.mem_flatten.mpr ⟨g, hgin, hh⟩, hx0, hx⟩
    obtain ⟨hlo, hhi, _⟩ := seqDelta_before hR (List.mem_flatten.mpr ⟨g, hg, hh⟩)
    rw [hx0] at hlo hhi
    have h1 := hA.through
    have h2 := hA.near
    have h3 := hA.rounded
    rw [@seqDelta_sub pub.keepAllAckedThrough first (pub.seqNo + 1) (by omega) (by omega)
      (by omega)] at hcovered
    have hack := hA.acknowledged hnear (x := first) (by omega) (by omega)
    rw [hsample]
    intro ack hmem
    exact huncut first x hret (by rw [hdata]; rfl) ack hmem (hack ack hmem) j hj

end Groups

/-! ## One write -/

theorem makeDepthRoom_matched {datagrams : Nat} (hk : pub.keepAll = true)
    (hm : pub.anyPeerAckMatched = true) :
    pub.makeDepthRoom node cdr limit route datagrams = pub.reliableCache := by
  unfold makeDepthRoom keepAllRoomBeforeMatch
  simp [hk, hm]

/-- Within the count bound and with room for the bytes it stores, a write takes from the cache only
what is owed to nobody. -/
theorem checkAndCacheSample_evicts (hk : pub.keepAll = true) (hm : pub.anyPeerAckMatched = true)
    (hsamples : pub.reliableCache.sampleDepth = 0) (hnear : AckNear pub)
    (hR : pub.reliableCache.Ready pub.reliableCache.ringDepth old left (pub.seqNo + 1))
    (hw : ReliableCache.Whole node old) (hl : node.fragWholeLimit ≤ limit)
    (hlen : cdr.length ≤ node.maxSampleLength)
    (hcount : (sampleDatagramCount node cdr node.fragWholeLimit : Int) - 1 -
      seqDelta pub.keepAllAckedThrough (pub.seqNo + 1) ≤ pub.reliableCache.ringDepth)
    (hsound : CacheSound node pub cdr limit route)
    (hbytes : pub.reliableCache.admits pub.reliableCache.ringDepth
      (sampleCacheFootprint node cdr limit) pub.keepAllAckedThrough = true)
    (huncut : SpansUncut node pub) :
    ∃ gone, (pub.checkAndCacheSample node cdr limit route).evicted =
        gone ++ pub.reliableCache.evicted ∧ ∀ x ∈ gone, SampleAcked node pub x := by
  have hle : sampleDatagramCount node cdr node.fragWholeLimit ≤ 64 := sampleDatagramCount_le hlen
  have hpos := sampleDatagramCount_pos node cdr node.fragWholeLimit
  have hid : pub.reliableCache.admitSample = pub.reliableCache :=
    ReliableCache.admitSample_of_keepAll hsamples
  unfold CacheSound at hsound
  rw [checkAndCacheSample_eq]
  rw [makeDepthRoom_matched hk hm] at hsound ⊢
  obtain ⟨gone, kept, own, hent⟩ := @ReliableCache.store_entered pub.reliableCache old left node cdr
    limit (sampleDatagramCount node cdr node.fragWholeLimit) route.now (pub.seqNo + 1)
    (by rw [hid]; exact hR) (by rw [hid]; exact .refl _) hpos (by omega)
    (fun hmany => sampleDatagramCount_eq hl hmany) hsound
  rw [hid] at hent
  obtain ⟨low, r, hA⟩ := ackedThrough_spec hm hnear hR.stored
  have hgone := hent.gone_acked hR (by rw [sampleFootprints_sum]; exact sampleCacheFootprint_pos _ _ _)
    (by rw [sampleFootprints_sum]; exact hbytes) (by
      intro f hf hlt
      obtain ⟨h1, h2, h3⟩ := seqDelta_before hR hf
      have h4 := hA.through
      have h5 := hA.near
      have h6 := hA.rounded
      rw [@seqDelta_sub pub.keepAllAckedThrough f.seqNo (pub.seqNo + 1) (by omega) (by omega)
        (by omega)] at hlt
      omega)
  refine ⟨_, hent.log, fun x hx => ?_⟩
  obtain ⟨h, hh, hxr⟩ := List.mem_filterMap.mp (List.mem_reverse.mp hx)
  obtain ⟨g, hg, hhg⟩ := List.mem_flatten.mp hh
  exact hA.sampleAcked hnear hR hw huncut (by rw [hent.split]; simp [hg]) (hgone g hg) h hhg x hxr

end Publisher

end Tickle
