import Tickle.Writer.Grow
import Tickle.Writer.Resend

/-! # The runs of a Publisher

Everything an application, its Subscribers and the network do to one Publisher, step by step. In a run
whose publishes meet `CacheSound` the cache holds whole samples only: each publish stores a sample
whole or not at all, and the oldest record retained starts one.
-/

namespace Tickle

open Serial Loop RingArena

namespace ReliableCache

variable {c c' : ReliableCache} {d : Nat} {seqNo : SeqNo} {old left : List (List Held)}

/-- The record retained under `x`, found by the range and the slot as
`reliable_cache_record_continues()` finds it. -/
def retained (c : ReliableCache) (d : Nat) (x : SeqNo) : Option Record :=
  if !c.retains || seqDelta x c.oldestSeqNo < 0 || seqDelta c.newestSeqNo x < 0 then none
  else if c.slotLive d x then c.arena (c.slot d x).offset else none

/-- Retained is what is held. -/
theorem Stored.retained_eq {groups : List (List Held)} (hs : c.Stored d groups) {x : SeqNo}
    {r : Record} : c.retained d x = some r ↔
      ∃ h ∈ groups.flatten, h.seqNo = x ∧ h.record = some r := by
  have hr := hs.grouped.ranged
  unfold retained
  constructor
  · intro h
    split at h
    · cases h
    · next hin =>
      split at h
      · next hl =>
        simp only [Bool.or_eq_true, Bool.not_eq_true', decide_eq_true_eq, not_or,
          Bool.not_eq_false] at hin
        obtain ⟨⟨hc, h1⟩, h2⟩ := hin
        rw [seqDelta_neg] at h1 h2
        have hsum : steps c.oldestSeqNo c.newestSeqNo =
            steps c.oldestSeqNo x + steps x c.newestSeqNo := steps_trans (by omega)
        refine ⟨⟨x, (c.slot d x).offset, (c.slot d x).len, c.arena (c.slot d x).offset⟩, ?_, rfl, h⟩
        rw [← hs.grouped.held, held, if_pos hc]
        refine mem_heldFrom.mpr ⟨steps c.oldestSeqNo x, by omega, ?_⟩
        rw [plus_steps, heldAt_of_live hl]
      · cases h
  · rintro ⟨h, hh, rfl, hrec⟩
    rw [← hs.grouped.held] at hh
    obtain ⟨hc, i, hi, hseq, hat⟩ := mem_held hh
    have hw := hr.within hc
    have hlt := hr.depth_lt
    have h1 : steps c.oldestSeqNo h.seqNo = i := by rw [hseq, steps_plus _ (by omega)]
    have h2 := @steps_split c.oldestSeqNo h.seqNo c.newestSeqNo (by omega)
    have hrange : ¬ ((!c.retains || decide (seqDelta h.seqNo c.oldestSeqNo < 0) ||
        decide (seqDelta c.newestSeqNo h.seqNo < 0)) = true) := by
      simp only [hc, Bool.not_true, Bool.false_or, Bool.or_eq_true, decide_eq_true_eq, not_or,
        seqDelta_neg]
      omega
    have hl : c.slotLive d h.seqNo = true := by
      cases hl : c.slotLive d h.seqNo with
      | true => rfl
      | false => rw [heldAt_eq_none.mpr hl] at hat; cases hat
    rw [if_neg hrange, if_pos hl]
    rw [heldAt_of_live hl, Option.some.injEq] at hat
    rw [← hrec, ← hat]

/-- Every sample held is all the records of one publish. -/
def Whole (node : Context) (groups : List (List Held)) : Prop :=
  ∀ g ∈ groups, ∃ first cdr limit,
    g.map Held.record = (sampleRecords node first cdr limit).map some

/-- The cache between two publishes, the next of them under `seqNo`. -/
inductive Steady (node : Context) (c : ReliableCache) (seqNo : SeqNo) : Prop
  | unused : c.ringDepth = 0 → c.slotOrigin = 0 → Steady node c seqNo
  | ready (old left : List (List Held)) : c.Ready c.ringDepth old left seqNo →
      Whole node (old ++ left) → Steady node c seqNo

theorem Whole.suffix {node : Context} {a b : List (List Held)} (h : Whole node (a ++ b)) :
    Whole node b := fun g hg => h g (by simp [hg])

theorem Whole.relocate {node : Context} {offset : Nat} {groups : List (List Held)}
    (h : Whole node groups) : Whole node (relocateGroups offset groups) := by
  induction groups generalizing offset with
  | nil => simp [relocateGroups, Whole]
  | cons g gs ih =>
    intro x hx
    rw [relocateGroups, List.mem_cons] at hx
    rcases hx with rfl | hx
    · obtain ⟨first, cdr, limit, hg⟩ := h g (by simp)
      exact ⟨first, cdr, limit, by rw [relocate_record, hg]⟩
    · exact ih (fun y hy => h y (by simp [hy])) x hx

/-- An empty cache is steady. -/
theorem Steady.of_empty {node : Context} (h : c.slotOrigin = 0) (seqNo : SeqNo) :
    Steady node c seqNo := by
  by_cases hd : c.ringDepth = 0
  · exact .unused hd h
  · have hno : c.retains = false := by simp [retains, h]
    refine .ready [] [] (Grouped.ready ⟨⟨Nat.pos_of_ne_zero hd, c.ringDepth_lt, ?_, ?_, ?_⟩, ?_,
      held_of_not_retains hno, by simp⟩ _) (by simp [Whole])
    all_goals
      intro hc
      rw [hno] at hc
      cases hc

theorem Steady.same {node : Context} (h : Steady node c seqNo) (hs : Same c c') :
    Steady node c' seqNo := by
  cases h with
  | unused hd h0 => exact .unused (hs.store.ringDepth.trans hd) (hs.slotOrigin.trans h0)
  | ready old left hR hw =>
    refine .ready old left ?_ hw
    rw [hs.store.ringDepth]
    exact hs.ready hR

theorem Steady.grow {node : Context} {size : Nat} (h : Steady node c seqNo)
    (hg : c.grow size = some c') : Steady node c' seqNo := by
  cases h with
  | unused hd h0 =>
    refine Steady.of_empty ?_ _
    unfold ReliableCache.grow at hg
    split at hg
    · cases hg
    · split at hg
      · cases hg
      · simp only [hd, if_true, Option.some.injEq] at hg
        rw [← hg]
        exact h0
  | ready old left hR hw =>
    obtain ⟨hgrown, hR'⟩ := grow_spec hR rfl hg
    rw [← hgrown.ringDepth] at hR'
    refine .ready _ _ hR' ?_
    have := @Whole.relocate node 0 _ hw
    rwa [relocateGroups_append, Nat.zero_add] at this

theorem Steady.growUntil {node : Context} (enough : ReliableCache → Bool) (sizes : List Nat)
    (h : Steady node c seqNo) : Steady node (c.growUntil enough sizes).1 seqNo := by
  induction sizes generalizing c with
  | nil => exact h
  | cons size sizes ih =>
    unfold ReliableCache.growUntil
    split
    · exact h
    · cases hg : c.grow size with
      | none => exact h
      | some grown => exact ih (h.grow hg)

/-! ## One sample -/

/-- The sample is retained under every seq_no of its records, or under none of its seq_nos. -/
theorem Entered.all_or_none {first : SeqNo} {span : Nat} {sizes : List Nat} {records : List Record}
    {gone kept own : List (List Held)}
    (h : Entered d c c' old first span sizes records gone kept own) :
    (∀ r ∈ records, c'.retained d r.seqNo = some r) ∨
      ∀ i ≤ 65536, c'.retained d (plus first i) = none := by
  have hs := h.sent.stored
  rcases h.whole with rfl | ⟨g, rfl, hg⟩
  · refine Or.inr fun i hi => ?_
    rw [Option.eq_none_iff_forall_ne_some]
    intro r hr
    obtain ⟨x, hx, hseq, _⟩ := hs.retained_eq.mp hr
    obtain ⟨h1, h2⟩ := h.failed.before (h := x) (by simpa using hx)
    rw [hseq] at h1 h2
    by_cases h0 : plus first i = first
    · rw [h0, steps_self] at h1
      omega
    · have := steps_swap h0
      have := steps_plus first (n := i) (by omega)
      omega
  · refine Or.inl fun r hr => ?_
    have hmem : some r ∈ g.map Held.record := by
      rw [hg]
      exact List.mem_map_of_mem hr
    obtain ⟨x, hx, hrec⟩ := List.mem_map.mp hmem
    have hin : x ∈ ((kept ++ [g]) ++ []).flatten := by simp [hx]
    obtain ⟨r', hr', _, hseq⟩ := hs.records x hin
    rw [hrec, Option.some.injEq] at hr'
    subst hr'
    exact hs.retained_eq.mpr ⟨x, hin, hseq.symm, hrec⟩

theorem Entered.steady {node : Context} {first : SeqNo} {span : Nat} {sizes : List Nat}
    {cdr : List UInt8} {limit : Nat} {gone kept own : List (List Held)}
    (h : Entered d c c' old first span sizes (sampleRecords node first cdr limit) gone kept own)
    (hd : c.ringDepth = d) (hw : Whole node old) :
    Steady node c' (plus first span) ∧ Steady node c' first := by
  have hd' : c'.ringDepth = d := h.ringDepth.trans hd
  have hwhole : Whole node (kept ++ own) := by
    intro g hg
    rcases List.mem_append.mp hg with hg | hg
    · exact hw g (by simp [h.split, hg])
    · rcases h.whole with rfl | ⟨g', rfl, hrec⟩
      · simp at hg
      · rw [List.mem_singleton] at hg
        subst hg
        exact ⟨first, cdr, limit, hrec⟩
  subst hd'
  exact ⟨.ready _ _ h.sent (by simpa using hwhole), .ready _ _ h.failed hwhole⟩

/-- The cache a sample goes into lets it in whole: its fragments come round to none of their own, and a
record that spends several seq_nos passes over none that an entry names. -/
def StoreSound (node : Context) (c : ReliableCache) (first : SeqNo) (cdr : List UInt8)
    (limit span : Nat) : Prop :=
  if sampleDatagramCount node cdr limit > 1 then
    sampleDatagramCount node cdr limit ≤ c.ringDepth →
      (sampleFootprints node cdr limit).sum ≤ c.arenaSize →
      FragmentsFit c.admitSample c.ringDepth first (sampleFootprints node cdr limit)
  else span = 1 ∨ c.admitSample.SpanClear first span

/-- `check_and_cache_sample()` behind the room it made. -/
def store (node : Context) (c : ReliableCache) (first : SeqNo) (cdr : List UInt8) (limit now : Nat) :
    ReliableCache :=
  if sampleDatagramCount node cdr limit > 1 then
    c.cacheSampleFragments node cdr limit first (sampleDatagramCount node cdr limit) now
  else c.cacheReliableSample first cdr now

theorem cacheRecord_unused (hd : c.ringDepth = 0) (x : SeqNo) (length now : Nat) (record : Record) :
    c.cacheRecord x length now record = (c, none) := by
  unfold cacheRecord reserve
  simp only [hd, if_true]
  rfl

theorem admitSample_unused (hd : c.ringDepth = 0) : c.admitSample = c := by
  unfold admitSample
  split
  · rfl
  · exact whileN_of_not (by simp [hd]) _

theorem store_unused {node : Context} {cdr : List UInt8} {limit now : Nat} (hd : c.ringDepth = 0)
    (first : SeqNo) : c.store node first cdr limit now = c := by
  unfold store
  split
  · rw [cacheSampleFragments, if_pos hd]
  · unfold cacheReliableSample
    rw [admitSample_unused hd, cacheRecord_unused hd]
    rfl

/-- The sample into a cache that the bound in samples has been applied to. -/
theorem store_entered {node : Context} {cdr : List UInt8} {limit span now : Nat} {first : SeqNo}
    (hR : c.admitSample.Ready c.ringDepth old left first) (he : SameStore c c.admitSample)
    (hspan : 0 < span) (hlt : span ≤ 65536)
    (hcount : sampleDatagramCount node cdr limit > 1 → sampleDatagramCount node cdr limit = span)
    (hsound : StoreSound node c first cdr limit span) :
    ∃ gone kept own, Entered c.ringDepth c.admitSample (c.store node first cdr limit now) old first
      span (sampleFootprints node cdr limit) (sampleRecords node first cdr limit) gone kept own := by
  have hd := he.ringDepth
  unfold StoreSound at hsound
  unfold store
  split
  · next hmany =>
    rw [if_pos hmany] at hsound
    rw [← he.arenaSize] at hsound
    have hc := hcount hmany
    obtain ⟨gone, kept, own, h⟩ := @cacheSampleFragments_spec c c.ringDepth old left node cdr first
      limit now hR hd rfl he.arenaSize hmany (by omega) hsound
    rw [hc] at h ⊢
    exact ⟨gone, kept, own, h⟩
  · next hone =>
    rw [if_neg hone] at hsound
    have h1 : sampleFootprints node cdr limit = [roundup (recordLengthChecked cdr)] := by
      unfold sampleFootprints
      simp only
      rw [if_neg hone]
    have h2 : sampleRecords node first cdr limit = [.data first (padCdr cdr)] := by
      unfold sampleRecords
      simp only
      rw [if_neg hone]
    rw [h1, h2]
    exact @cacheReliableSample_spec c c.ringDepth first old left cdr span now hR hd hspan hlt hsound

/-- A sound publish keeps the cache steady, sent or not, and stores its sample whole or not at all. -/
theorem Steady.store {node : Context} {cdr : List UInt8} {limit span : Nat} {first : SeqNo}
    (h : Steady node c first) (now : Nat) (hspan : 0 < span) (hlt : span ≤ 65536)
    (hcount : sampleDatagramCount node cdr limit > 1 → sampleDatagramCount node cdr limit = span)
    (hsound : StoreSound node c first cdr limit span) :
    Steady node (c.store node first cdr limit now) (plus first span) ∧
    Steady node (c.store node first cdr limit now) first ∧
    (c.store node first cdr limit now).ringDepth = c.ringDepth ∧
    (c.store node first cdr limit now).sampleDepth = c.sampleDepth ∧
    ((∀ r ∈ sampleRecords node first cdr limit,
        (c.store node first cdr limit now).retained c.ringDepth r.seqNo = some r) ∨
      ∀ i ≤ 65536, (c.store node first cdr limit now).retained c.ringDepth (plus first i) = none) := by
  cases h with
  | unused hd h0 =>
    rw [store_unused hd]
    refine ⟨.unused hd h0, .unused hd h0, rfl, rfl, Or.inr fun i _ => ?_⟩
    simp [retained, retains, h0]
  | ready old left hR hw =>
    obtain ⟨gone₀, old', left', hsplit, he, hR'⟩ := admitSample_spec hR rfl
    obtain ⟨gone, kept, own, hent⟩ :=
      @store_entered c old' left' node cdr limit span now first hR' he.store hspan hlt hcount hsound
    have hw' : Whole node old' := by
      intro g hg
      exact hw g (by rw [hsplit]; simp [hg])
    obtain ⟨h1, h2⟩ := hent.steady he.store.ringDepth hw'
    exact ⟨h1, h2, hent.ringDepth.trans he.store.ringDepth,
      hent.sampleDepth.trans he.store.sampleDepth, hent.all_or_none⟩

/-! ## Resending -/

theorem Touched.ready (h : Touched c c') (hR : c.Ready d old left seqNo) :
    c'.Ready d old left seqNo := by
  have hret : c'.retains = c.retains := by rw [h.same]; rfl
  have hoc : c'.oldestSeqNo = c.oldestSeqNo := by rw [h.same]
  have hnc : c'.newestSeqNo = c.newestSeqNo := by rw [h.same]
  have hso : c'.slotOrigin = c.slotOrigin := by rw [h.same]
  have harena : c'.arena = c.arena := by rw [h.same]
  have hr := hR.stored.grouped.ranged
  have hheld : c'.held d = c.held d := by
    unfold held
    rw [hret, hoc, hnc]
    split
    · refine heldFrom_congr fun i _ => ?_
      unfold heldAt
      rw [h.slotLive, h.slot, harena]
    · rfl
  refine ⟨⟨⟨⟨hr.depth_pos, hr.depth_lt, ?_, ?_, ?_⟩, ?_, hheld.trans hR.stored.grouped.held,
    hR.stored.grouped.samples⟩, ?_, hR.stored.records⟩, ?_, ?_, ?_, hR.next, hR.single, ?_⟩
  · rw [hret, hso, hoc, hnc]; exact hr.forward
  · rw [hret, hso, hnc]; exact hr.near
  · rw [hret, hoc, hnc]; exact hr.within
  · intro hc
    rw [h.slotLive, hoc]
    exact hR.stored.grouped.settled (hret ▸ hc)
  · have h1 : c'.arenaSize = c.arenaSize := by rw [h.same]
    have h2 : c'.tail = c.tail := by rw [h.same]
    rw [h1, h2]
    exact hR.stored.laid
  · rw [hret, hoc]; exact hR.reach
  · rw [hoc]; exact hR.below
  · rw [hoc]; exact hR.above
  · intro hc i
    rw [h.index i, hoc, hnc]
    exact hR.gap (hret ▸ hc) i

theorem Steady.touched {node : Context} (h : Steady node c seqNo) (ht : Touched c c') :
    Steady node c' seqNo := by
  have hd : c'.ringDepth = c.ringDepth := by rw [ht.same]; rfl
  cases h with
  | unused h0 hso => exact .unused (hd.trans h0) (by rw [ht.same]; exact hso)
  | ready old left hR hw => exact .ready old left (hd ▸ ht.ready hR) hw

end ReliableCache

namespace Publisher

variable {node : Context} {pub : Publisher} {cdr : List UInt8} {limit datagrams : Nat} {route : Route}

/-- Room in the arena, made by growing, changes nothing that is held. -/
theorem makeDepthRoom_steady
    (h : ReliableCache.Steady node pub.reliableCache (pub.seqNo + 1)) :
    ReliableCache.Steady node (pub.makeDepthRoom node cdr limit route datagrams) (pub.seqNo + 1) := by
  unfold makeDepthRoom
  simp only
  split
  · unfold keepAllRoomBeforeMatch
    simp only
    split
    · exact h
    · exact h.growUntil _ _
  split
  · exact h
  split
  · exact h
  · have hsame : ∀ (c : ReliableCache) (k : Nat), ReliableCache.Same c
        { c with depthAssuredDatagrams := k } := fun _ _ =>
      ⟨⟨rfl, rfl, rfl, rfl, rfl, rfl, rfl⟩, rfl, rfl, rfl, rfl, rfl⟩
    have hshort : ∀ (c : ReliableCache) (k : Nat), ReliableCache.Same c
        { c with depthShortfalls := k } := fun _ _ =>
      ⟨⟨rfl, rfl, rfl, rfl, rfl, rfl, rfl⟩, rfl, rfl, rfl, rfl, rfl⟩
    have hgrown := (h.same (hsame _ 0)).growUntil
      (fun c => c.keepsDepth (sampleCacheFootprint node cdr limit)) route.growths
    split
    · exact hgrown
    · exact hgrown.same (hshort _ _)

theorem checkAndCacheSample_eq : pub.checkAndCacheSample node cdr limit route =
    (pub.makeDepthRoom node cdr limit route (sampleDatagramCount node cdr limit)).store node
      (pub.seqNo + 1) cdr limit route.now := rfl

/-- What has to hold of the cache when a sample is stored in it. -/
def CacheSound (node : Context) (pub : Publisher) (cdr : List UInt8) (limit : Nat) (route : Route) :
    Prop :=
  ReliableCache.StoreSound node
    (pub.makeDepthRoom node cdr limit route (sampleDatagramCount node cdr limit)) (pub.seqNo + 1) cdr
    limit (sampleDatagramCount node cdr node.fragWholeLimit)

theorem fragWholeLimit_le_wholeLimit (node : Context) (route : Route) :
    node.fragWholeLimit ≤ wholeLimit node route := by
  unfold wholeLimit
  split <;> omega

/-- A sample cut for a larger limit is cut as for the network. -/
theorem sampleDatagramCount_eq (hl : node.fragWholeLimit ≤ limit)
    (h : sampleDatagramCount node cdr limit > 1) :
    sampleDatagramCount node cdr limit = sampleDatagramCount node cdr node.fragWholeLimit := by
  unfold sampleDatagramCount at *
  split at h
  · rw [if_pos (by omega), if_pos (by omega)]
  · omega

theorem checkAndCacheSample_steady
    (h : ReliableCache.Steady node pub.reliableCache (pub.seqNo + 1))
    (hlen : cdr.length ≤ node.maxSampleLength) (hl : node.fragWholeLimit ≤ limit)
    (hsound : CacheSound node pub cdr limit route) :
    ReliableCache.Steady node (pub.checkAndCacheSample node cdr limit route)
      (plus pub.seqNo (sampleDatagramCount node cdr node.fragWholeLimit) + 1) ∧
    ReliableCache.Steady node (pub.checkAndCacheSample node cdr limit route) (pub.seqNo + 1) := by
  have hle : sampleDatagramCount node cdr node.fragWholeLimit ≤ 64 := sampleDatagramCount_le hlen
  obtain ⟨h1, h2, _⟩ := (makeDepthRoom_steady h).store route.now
    (sampleDatagramCount_pos node cdr node.fragWholeLimit) (by omega)
    (fun hm => sampleDatagramCount_eq hl hm) hsound
  rw [← plus_succ, plus_succ_right] at h1
  exact ⟨h1, h2⟩

/-! ## Steps and runs -/

/-- What can happen to a Publisher. -/
inductive Event
  | publish (cdr : List UInt8) (route : Route)
  | claim (capacity : Nat) (granted : Option Nat)
  | publishClaimed (payload : Nat) (cdr : List UInt8) (moved : Bool) (route : Route)
  | abandonClaim (payload : Nat)
  | matched (contextId entityId trackingWords : Nat)
  | unmatched (contextId : Nat) (entityId : Option Nat)
  | acknack (contextId entityId : Nat) (seqNo : SeqNo) (bitmap : List (BitVec 64)) (claims : Bool)
      (repair : Repair)

def step (node : Context) (pub : Publisher) : Event → Publisher
  | .publish cdr route => (pub.publish node cdr route).2
  | .claim capacity granted => (pub.claim node capacity granted).2
  | .publishClaimed payload cdr moved route => (pub.publishClaimed node payload cdr moved route).2
  | .abandonClaim payload => (pub.abandonClaim payload).2
  | .matched contextId entityId trackingWords => pub.claimPeerAck contextId entityId trackingWords
  | .unmatched contextId entityId => pub.forgetPeerAck contextId entityId
  | .acknack contextId entityId seqNo bitmap claims repair =>
    (pub.processAcknack contextId entityId seqNo bitmap claims repair).1

/-- The states of the runs whose every step is `sound` in the state it is taken in. -/
inductive Reachable (node : Context) (sound : Publisher → Event → Prop) : Publisher → Prop
  | start (opts : PublisherOptions) : Reachable node sound (create opts)
  | next {pub : Publisher} (event : Event) : Reachable node sound pub → sound pub event →
      Reachable node sound (pub.step node event)

/-- The admission checks of `publisher_publish_locked()`: the sample will be cached. -/
def admitted (pub : Publisher) (node : Context) (cdr : List UInt8) : Bool :=
  pub.keepAllWritable && cdr.length ≤ node.maxSampleLength &&
    !(pub.keepAllRefusesEncoded node cdr node.fragWholeLimit).1

theorem publish_of_not_admitted (h : pub.admitted node cdr = false) :
    (pub.publish node cdr route).2.reliableCache = pub.reliableCache ∧
    (pub.publish node cdr route).2.seqNo = pub.seqNo ∧
    (pub.publish node cdr route).2.claims = pub.claims ∧
    (pub.publish node cdr route).2.peerAcks = pub.peerAcks ∧
    (pub.publish node cdr route).2.keepAll = pub.keepAll := by
  unfold admitted at h
  unfold publish
  split
  · exact ⟨rfl, rfl, rfl, rfl, rfl⟩
  next hw =>
  split
  · exact ⟨rfl, rfl, rfl, rfl, rfl⟩
  next hl =>
  have hkeep : ∀ x, (pub.keepAllRefusesEncoded node cdr x).2.reliableCache = pub.reliableCache ∧
      (pub.keepAllRefusesEncoded node cdr x).2.seqNo = pub.seqNo ∧
      (pub.keepAllRefusesEncoded node cdr x).2.claims = pub.claims ∧
      (pub.keepAllRefusesEncoded node cdr x).2.peerAcks = pub.peerAcks ∧
      (pub.keepAllRefusesEncoded node cdr x).2.keepAll = pub.keepAll := by
    intro x
    unfold keepAllRefusesEncoded
    simp only
    split
    · exact ⟨rfl, rfl, rfl, rfl, rfl⟩
    · split
      · exact ⟨rfl, rfl, rfl, rfl, rfl⟩
      · exact ⟨rfl, rfl, rfl, rfl, rfl⟩
  simp only
  split
  · exact hkeep _
  · next hr =>
    simp only [Bool.not_eq_true', Bool.not_eq_false, Bool.not_eq_true] at hw hr
    simp [hw, hr, Nat.le_of_not_lt hl] at h

/-- What an admitted publish leaves: the sample cached, and its seq_nos spent unless the send failed. -/
theorem publish_of_admitted (h : pub.admitted node cdr = true) :
    pub.publish node cdr route =
      (if route.matched ∧ ¬ route.sent then .ioError else .ok,
        { pub.cached (pub.checkAndCacheSample node cdr (wholeLimit node route) route) with
          seqNo := if route.matched ∧ ¬ route.sent then pub.seqNo
            else plus pub.seqNo (sampleDatagramCount node cdr node.fragWholeLimit) }) := by
  simp only [admitted, Bool.and_eq_true, decide_eq_true_eq, Bool.not_eq_true'] at h
  obtain ⟨⟨hw, hl⟩, hr⟩ := h
  unfold publish
  simp only
  rw [if_neg (by simp [hw]), if_neg (by omega), if_neg (by simp [hr])]
  cases hm : route.matched with
  | false => simp
  | true =>
    cases hs : route.sent with
    | false => simp [cached]
    | true => simp

/-- Every claimed slot holds a sample of one datagram. -/
def ClaimsFit (node : Context) (pub : Publisher) : Prop :=
  ∀ claim ∈ pub.claims, claim.length ≤ node.maxSampleLength ∧
    headerLength + recordLengthChecked (List.replicate claim.length 0) ≤ node.fragWholeLimit

/-- The steps a run is asked about: what a publish stores goes in whole. -/
def Event.CacheSound (node : Context) (pub : Publisher) : Event → Prop
  | .publish cdr route => pub.admitted node cdr = true →
      Publisher.CacheSound node pub cdr (wholeLimit node route) route
  | .publishClaimed _ cdr moved route => moved = true → pub.admitted node cdr = true →
      Publisher.CacheSound node pub cdr (wholeLimit node route) route
  | _ => True

/-- What every reachable Publisher keeps. -/
structure Kept (node : Context) (pub : Publisher) : Prop where
  steady : ReliableCache.Steady node pub.reliableCache (pub.seqNo + 1)
  claims : ClaimsFit node pub

theorem Kept.publish (h : Kept node pub) (hs : (Event.publish cdr route).CacheSound node pub) :
    Kept node (pub.publish node cdr route).2 := by
  cases ha : pub.admitted node cdr with
  | false =>
    obtain ⟨h1, h2, h3, _⟩ := @publish_of_not_admitted node pub cdr route ha
    exact ⟨by rw [h1, h2]; exact h.steady, by unfold ClaimsFit; rw [h3]; exact h.claims⟩
  | true =>
    have hlen : cdr.length ≤ node.maxSampleLength := by
      simp only [admitted, Bool.and_eq_true, decide_eq_true_eq] at ha
      exact ha.1.2
    obtain ⟨hsent, hfailed⟩ := checkAndCacheSample_steady h.steady hlen
      (fragWholeLimit_le_wholeLimit node route) (hs ha)
    rw [publish_of_admitted ha]
    refine ⟨?_, h.claims⟩
    simp only [cached]
    split
    · exact hfailed
    · exact hsent

/-- A Publisher that differs in nothing the invariant reads. -/
theorem Kept.of_eq {pub' : Publisher} (h : Kept node pub)
    (hc : pub'.reliableCache = pub.reliableCache) (hs : pub'.seqNo = pub.seqNo)
    (hcl : ∀ claim ∈ pub'.claims, claim ∈ pub.claims) : Kept node pub' :=
  ⟨by rw [hc, hs]; exact h.steady, fun claim hclaim => h.claims claim (hcl claim hclaim)⟩

theorem claimRelease_subset (pub : Publisher) (payload : Nat) :
    ∀ claim ∈ (pub.claimRelease payload).claims, claim ∈ pub.claims := by
  intro claim hclaim
  exact List.mem_of_mem_filter hclaim

theorem recordLengthChecked_mono {a b : List UInt8} (h : a.length ≤ b.length) :
    recordLengthChecked a ≤ recordLengthChecked b := by
  unfold recordLengthChecked roundup
  omega

/-- A claimed slot's sample is one datagram. -/
theorem ClaimsFit.single {payload : Nat} {claim : Claim} (h : ClaimsFit node pub)
    (hf : pub.claims.find? (fun c => c.payload = payload) = some claim)
    (hlen : cdr.length ≤ claim.length) :
    cdr.length ≤ node.maxSampleLength ∧ sampleDatagramCount node cdr node.fragWholeLimit = 1 := by
  obtain ⟨h1, h2⟩ := h claim (List.mem_of_find?_eq_some hf)
  refine ⟨by omega, ?_⟩
  have := @recordLengthChecked_mono cdr (List.replicate claim.length 0) (by simpa using hlen)
  unfold sampleDatagramCount
  rw [if_neg (by omega)]

theorem Kept.publishClaimed {payload : Nat} {moved : Bool} (h : Kept node pub)
    (hs : (Event.publishClaimed payload cdr moved route).CacheSound node pub) :
    Kept node (pub.publishClaimed node payload cdr moved route).2 := by
  unfold Publisher.publishClaimed
  cases hf : pub.claims.find? (fun c => c.payload = payload) with
  | none => exact h
  | some claim =>
    simp only
    split
    · exact h.of_eq rfl rfl (claimRelease_subset pub payload)
    next hlen =>
    split
    · exact h.of_eq rfl rfl fun _ hc => hc
    split
    · next hm =>
      have hp := @Kept.publish node pub cdr route h (hs hm)
      exact hp.of_eq rfl rfl (claimRelease_subset _ payload)
    · obtain ⟨hmax, hone⟩ := h.claims.single hf (Nat.le_of_not_lt hlen)
      have hsound : Publisher.CacheSound node pub cdr node.fragWholeLimit route := by
        unfold Publisher.CacheSound ReliableCache.StoreSound
        rw [if_neg (by omega)]
        exact Or.inl hone
      obtain ⟨hsent, _⟩ := checkAndCacheSample_steady h.steady hmax (Nat.le_refl _) hsound
      rw [hone, plus_succ_right, plus_zero] at hsent
      exact ⟨hsent, fun c hc => h.claims c (claimRelease_subset _ payload c hc)⟩

theorem Kept.claim {capacity : Nat} {granted : Option Nat} (h : Kept node pub) :
    Kept node (pub.claim node capacity granted).2 := by
  unfold Publisher.claim
  split
  · exact h
  split
  · exact h.of_eq rfl rfl fun _ hc => hc
  simp only
  split
  · exact h
  next hfit =>
  cases granted with
  | none => exact h
  | some payload =>
    refine ⟨h.steady, fun claim hclaim => ?_⟩
    rcases List.mem_cons.mp hclaim with rfl | hclaim
    · simp only
      constructor
      · omega
      · omega
    · exact h.claims claim hclaim

/-- Recording an acknowledgement and answering its requests. -/
theorem processAcknack_kept {contextId entityId : Nat} {seqNo : SeqNo} {bitmap : List (BitVec 64)}
    {claims : Bool} {repair : Repair} (h : Kept node pub) :
    Kept node (pub.processAcknack contextId entityId seqNo bitmap claims repair).1 := by
  have hknown : ∀ p : Publisher, Kept node p → ∀ a b c,
      Kept node (p.claimPeerAck a b c) := by
    intro p hp a b c
    unfold claimPeerAck
    split
    · exact hp
    · exact hp.of_eq rfl rfl fun _ hc => hc
  have hrec : ∀ p : Publisher, Kept node p → ∀ a b c, Kept node (p.recordPeerAck a b c) := by
    intro p hp a b c
    unfold recordPeerAck
    split
    · exact hp
    · exact hp.of_eq rfl rfl fun _ hc => hc
  have hnot : ∀ p : Publisher, Kept node p → Kept node p.notifyWritableIfPending := by
    intro p hp
    unfold notifyWritableIfPending
    split
    · exact hp
    · exact hp.of_eq rfl rfl fun _ hc => hc
  unfold processAcknack
  split
  · exact h
  next hwords =>
  split
  · exact h
  simp only
  generalize hp : (Publisher.recordPeerAck _ contextId entityId seqNo).notifyWritableIfPending = p
  have hkept : Kept node p := by
    rw [← hp]
    refine hnot _ (hrec _ ?_ _ _ _)
    split
    · exact hknown _ h _ _ _
    · exact h
  split
  · obtain ⟨ht, _⟩ := @ReliableCache.retransmit_walk p.reliableCache.ringDepth repair
      p.lifespanDuration p.keepAll _ (requested_nodup seqNo (Nat.le_of_not_lt hwords))
      ⟨p.reliableCache, [], false⟩
    exact ⟨hkept.steady.touched ht, hkept.claims⟩
  · exact hkept

theorem Kept.step (h : Kept node pub) (event : Event) (hs : event.CacheSound node pub) :
    Kept node (pub.step node event) := by
  cases event with
  | publish cdr route => exact h.publish hs
  | claim capacity granted => exact h.claim
  | publishClaimed payload cdr moved route => exact h.publishClaimed hs
  | abandonClaim payload =>
    simp only [Publisher.step, abandonClaim]
    split
    · exact h
    · exact h.of_eq rfl rfl (claimRelease_subset pub payload)
  | matched contextId entityId trackingWords =>
    simp only [Publisher.step, claimPeerAck]
    split
    · exact h
    · exact h.of_eq rfl rfl fun _ hc => hc
  | unmatched contextId entityId => exact h.of_eq rfl rfl fun _ hc => hc
  | acknack contextId entityId seqNo bitmap claims repair => exact processAcknack_kept h

theorem create_kept (opts : PublisherOptions) : Kept node (create opts) :=
  ⟨ReliableCache.Steady.of_empty rfl _, by simp [ClaimsFit, create]⟩

theorem Reachable.kept {sound : Publisher → Event → Prop}
    (himp : ∀ pub event, sound pub event → event.CacheSound node pub)
    (h : Reachable node sound pub) : Kept node pub := by
  induction h with
  | start opts => exact create_kept opts
  | next event _ hs ih => exact ih.step event (himp _ _ hs)

/-! ## Whole samples or nothing -/

/-- Only whole samples are retained, and the oldest record is live and starts one. -/
structure WholeSamples (node : Context) (c : ReliableCache) : Prop where
  oldest : c.retains = true → c.slotLive c.ringDepth c.oldestSeqNo = true ∧
    c.recordStartsSample (c.slot c.ringDepth c.oldestSeqNo) = true
  whole : ∀ x r, c.retained c.ringDepth x = some r → ∃ first cdr limit,
    r ∈ sampleRecords node first cdr limit ∧
      ∀ r' ∈ sampleRecords node first cdr limit, c.retained c.ringDepth r'.seqNo = some r'

theorem steady_wholeSamples {c : ReliableCache} {seqNo : SeqNo}
    (h : ReliableCache.Steady node c seqNo) : WholeSamples node c := by
  cases h with
  | unused hd h0 =>
    refine ⟨?_, ?_⟩
    · intro hc
      simp [ReliableCache.retains, h0] at hc
    · intro x r hr
      simp [ReliableCache.retained, ReliableCache.retains, h0] at hr
  | ready old left hR hw =>
    have hs := hR.stored
    refine ⟨fun hc => ?_, fun x r hr => ?_⟩
    · have hlive := hs.grouped.settled hc
      refine ⟨hlive, ?_⟩
      have hhead := flatten_head_not_continues hs.grouped.samples
      rw [← hs.grouped.held, hs.grouped.settled.held_cons hc] at hhead
      simp only [ReliableCache.slotLive, Bool.and_eq_true] at hlive
      simp only [ReliableCache.recordStartsSample, Bool.and_eq_true, Bool.not_eq_true']
      exact ⟨hlive.1, by simpa [Held.continues, ReliableCache.entryContinues] using hhead⟩
    · obtain ⟨y, hy, hseq, hrec⟩ := hs.retained_eq.mp hr
      obtain ⟨g, hg, hyg⟩ := List.mem_flatten.mp hy
      obtain ⟨first, cdr, limit, hgr⟩ := hw g hg
      refine ⟨first, cdr, limit, ?_, ?_⟩
      · have hmem : some r ∈ g.map Held.record := hrec ▸ List.mem_map_of_mem hyg
        rw [hgr] at hmem
        simpa using hmem
      · intro r' hr'
        have hmem : some r' ∈ g.map Held.record := by
          rw [hgr]
          exact List.mem_map_of_mem hr'
        obtain ⟨z, hz, hzr⟩ := List.mem_map.mp hmem
        have hzin : z ∈ (old ++ left).flatten := List.mem_flatten.mpr ⟨g, hg, hz⟩
        obtain ⟨r'', h1, _, h3⟩ := hs.records z hzin
        rw [hzr, Option.some.injEq] at h1
        subst h1
        exact hs.retained_eq.mpr ⟨z, hzin, h3.symm, hzr⟩

/-- A sample just stored is retained under every seq_no of its records, or under none. -/
def AllOrNone (c : ReliableCache) (first : SeqNo) (records : List Record) : Prop :=
  (∀ i < records.length, c.retained c.ringDepth (plus first i) = records[i]?) ∨
    ∀ i < records.length, c.retained c.ringDepth (plus first i) = none

theorem sampleRecords_seqNo {first : SeqNo} {i : Nat} {r : Record}
    (h : (sampleRecords node first cdr limit)[i]? = some r) : r.seqNo = plus first i := by
  unfold sampleRecords at h
  simp only at h
  split at h
  · rw [List.getElem?_map, List.getElem?_range (by
      rcases Nat.lt_or_ge i (sampleDatagramCount node cdr limit) with hi | hi
      · exact hi
      · simp [List.getElem?_eq_none (l := List.range (sampleDatagramCount node cdr limit))
          (by simpa using hi)] at h)] at h
    simp only [Option.map_some, Option.some.injEq] at h
    rw [← h]
    exact ReliableCache.fragRecord_seqNo i
  · cases i with
    | zero =>
      simp only [List.getElem?_cons_zero, Option.some.injEq] at h
      rw [← h, plus_zero]
      rfl
    | succ i => simp at h

/-- In a run whose publishes are sound, the cache holds whole samples at every moment, and what a
publish stores it stores whole or not at all. -/
theorem reachable_wholeSamples (h : Reachable node (fun pub e => e.CacheSound node pub) pub) :
    WholeSamples node pub.reliableCache ∧
    ∀ cdr route, (Event.publish cdr route).CacheSound node pub → pub.admitted node cdr = true →
      AllOrNone (pub.checkAndCacheSample node cdr (wholeLimit node route) route) (pub.seqNo + 1)
        (sampleRecords node (pub.seqNo + 1) cdr (wholeLimit node route)) := by
  have hkept := h.kept fun _ _ hs => hs
  refine ⟨steady_wholeSamples hkept.steady, fun cdr route hs ha => ?_⟩
  have hlen : cdr.length ≤ node.maxSampleLength := by
    simp only [admitted, Bool.and_eq_true, decide_eq_true_eq] at ha
    exact ha.1.2
  have hle : sampleDatagramCount node cdr node.fragWholeLimit ≤ 64 := sampleDatagramCount_le hlen
  have hl := fragWholeLimit_le_wholeLimit node route
  obtain ⟨_, _, hd, _, hall⟩ := (makeDepthRoom_steady hkept.steady).store route.now
    (sampleDatagramCount_pos node cdr node.fragWholeLimit) (by omega)
    (fun hm => sampleDatagramCount_eq hl hm) (hs ha)
  rw [← hd, ← checkAndCacheSample_eq] at hall
  rcases hall with hall | hnone
  · refine Or.inl fun i hi => ?_
    rw [List.getElem?_eq_getElem hi]
    have hget : (sampleRecords node (pub.seqNo + 1) cdr (wholeLimit node route))[i]? =
        some ((sampleRecords node (pub.seqNo + 1) cdr (wholeLimit node route))[i]) :=
      List.getElem?_eq_getElem hi
    rw [← sampleRecords_seqNo hget]
    exact hall _ (List.getElem_mem hi)
  · refine Or.inr fun i hi => hnone i ?_
    have hcount : (sampleRecords node (pub.seqNo + 1) cdr (wholeLimit node route)).length ≤
        sampleDatagramCount node cdr (wholeLimit node route) := by
      unfold sampleRecords
      simp only
      split
      · simp
      · exact sampleDatagramCount_pos _ _ _
    have : sampleDatagramCount node cdr (wholeLimit node route) ≤ 64 := sampleDatagramCount_le hlen
    omega

/-- 563 bytes go as two fragments, into an empty arena. -/
theorem reachable_wholeSamples_fragmented :
    WholeSamples smallLink ((create (shortHistory 600)).step smallLink
      (.publish (List.replicate 563 0) plainRoute)).reliableCache ∧
    ((create (shortHistory 600)).step smallLink
      (.publish (List.replicate 563 0) plainRoute)).reliableCache.oldestSeqNo = 1 := by
  refine ⟨(reachable_wholeSamples (.next _ (.start (shortHistory 600)) ?_)).1, by decide +kernel⟩
  intro _
  unfold Publisher.CacheSound ReliableCache.StoreSound
  rw [if_pos (by decide +kernel)]
  intro _ _
  decide +kernel

/-- Behind a record of 24 bytes the same two fragments do not fit before the arena's end, and the second
takes the place of the first: what is retained then starts with a continuation. -/
theorem fragment_evicts_own_first :
    ¬ ∀ (node : Context) (pub : Publisher), Reachable node (fun _ _ => True) pub →
      WholeSamples node pub.reliableCache := by
  intro h
  have hr : Reachable smallLink (fun _ _ => True)
      (((create (shortHistory 600)).step smallLink (.publish (List.replicate 4 0) plainRoute)).step smallLink
        (.publish (List.replicate 563 0) plainRoute)) :=
    .next _ (.next _ (.start (shortHistory 600)) trivial) trivial
  have h1 := ((h _ _ hr).oldest (by decide +kernel)).2
  revert h1
  decide +kernel

end Publisher

end Tickle
