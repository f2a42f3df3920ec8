import Tickle.Writer.Publisher

/-! # Answering an ACKNACK

`process_acknack()`: the acknowledgement recorded, every requested record that is still held sent
again, and one eviction HEARTBEAT when a requested one is gone. The HEARTBEAT names the start of the
history that can be resent, while a record is gone slot by slot: `answers_requests` says exactly which
requests that leaves unanswered.
-/

namespace Tickle

open Serial Loop

/-- `tt_RELIABLE_BITMAP_MAX_WORDS`. -/
def reliableBitmapMaxWords : Nat := 64

/-- What answering meets outside the Publisher: the clock, the options of the context, the repair
pacing and whether a send succeeds. -/
structure Repair where
  now : Nat
  retry : Nat
  retryInterval : Nat
  pace : SeqNo → Bool
  sends : SeqNo → Bool

/-- What an ACKNACK is answered with. -/
structure Answer where
  resent : List SeqNo
  heartbeat : Option SeqNo
  deriving DecidableEq, Repr

/-- `tt_get_ns() >> RESENT_AT_SHIFT`, a `uint32_t`. -/
def resentClock (ns : Nat) : Nat := ns / 1024 % 2 ^ 32

/-- What `find_resendable_cache_entry()` finds. -/
inductive Lookup
  | gone
  | suppressed
  | resendable
  deriving DecidableEq, Repr

namespace ReliableCache

/-- `reliable_cache_entry_expired()`. -/
def entryExpired (entry : CacheIndex) (now lifespan : Nat) : Bool :=
  lifespan ≠ 0 && lifespan ≤ now - entry.timestamp

/-- `resend_suppressed()`. -/
def resendSuppressed (repair : Repair) (entry : CacheIndex) (keepAll : Bool) : Bool :=
  if keepAll || entry.retry < repair.retry then false
  else (resentClock repair.now + 2 ^ 32 - entry.resentAt) % 2 ^ 32 < resentClock repair.retryInterval

/-- `find_resendable_cache_entry()`. -/
def findResendableCacheEntry (cache : ReliableCache) (depth : Nat) (repair : Repair)
    (missing : SeqNo) (lifespan : Nat) (keepAll : Bool) : Lookup :=
  let entry := cache.slot depth missing
  if entry.len = 0 ∨ entry.seqNo ≠ missing then .gone
  else if resendSuppressed repair entry keepAll then .suppressed
  else if entryExpired entry repair.now lifespan then .gone
  else .resendable

/-- The loop of `reliable_cache_first_resendable_seq_no()`. -/
def firstResendableFrom (cache : ReliableCache) (depth now lifespan : Nat) : Nat → SeqNo → SeqNo
  | 0, _ => cache.newestSeqNo + 1
  | fuel + 1, seqNo =>
    if !cache.retains || seqDelta cache.newestSeqNo seqNo < 0 then cache.newestSeqNo + 1
    else if cache.slotLive depth seqNo && !entryExpired (cache.slot depth seqNo) now lifespan then seqNo
    else cache.firstResendableFrom depth now lifespan fuel (seqNo + 1)

/-- `reliable_cache_first_resendable_seq_no()`. -/
def firstResendableSeqNo (cache : ReliableCache) (depth now lifespan : Nat) : SeqNo :=
  cache.firstResendableFrom depth now lifespan (steps cache.oldestSeqNo cache.newestSeqNo + 2)
    cache.oldestSeqNo

/-- A record counted as resent. -/
def markResent (cache : ReliableCache) (depth : Nat) (now : Nat) (seqNo : SeqNo) : ReliableCache :=
  let entry := cache.slot depth seqNo
  { cache with
    index := Function.update cache.index (cache.slotIndex depth seqNo)
      { entry with
        retry := if entry.retry < 255 then entry.retry + 1 else entry.retry
        resentAt := resentClock now } }

/-- The state of `retransmit_reliable_samples()`'s walk. -/
structure Walk where
  cache : ReliableCache
  resent : List SeqNo
  anyGone : Bool

/-- `retransmit_one_sample()`. -/
def retransmitOneSample (depth : Nat) (repair : Repair) (lifespan : Nat) (keepAll : Bool)
    (walk : Walk) (missing : SeqNo) : Walk :=
  match walk.cache.findResendableCacheEntry depth repair missing lifespan keepAll with
  | .gone => { walk with anyGone := true }
  | .suppressed => walk
  | .resendable =>
    if !repair.pace missing then walk
    else if !repair.sends missing then walk
    else { walk with
      cache := walk.cache.markResent depth repair.now missing
      resent := walk.resent ++ [missing] }

end ReliableCache

/-- The seq_nos a bitmap names, lowest bit first. -/
def requested (seqNo : SeqNo) (bitmap : List (BitVec 64)) : List SeqNo :=
  ((List.range (bitmap.length * reliableBitmapWordBits)).filter fun i =>
    (bitmap.getD (i / reliableBitmapWordBits) 0).getLsbD (i % reliableBitmapWordBits)).map
      (plus seqNo)

namespace Publisher

/-- `retransmit_reliable_samples()`. -/
def retransmitReliableSamples (pub : Publisher) (repair : Repair) (seqNo : SeqNo)
    (bitmap : List (BitVec 64)) : Publisher × Answer :=
  let depth := pub.reliableCache.ringDepth
  let walk := (requested seqNo bitmap).foldl
    (ReliableCache.retransmitOneSample depth repair pub.lifespanDuration pub.keepAll)
    ⟨pub.reliableCache, [], false⟩
  ({ pub with reliableCache := walk.cache },
    ⟨walk.resent,
      if walk.anyGone then
        some (walk.cache.firstResendableSeqNo depth repair.now pub.lifespanDuration)
      else none⟩)

/-- `process_acknack()` at the Publisher it names; `claims` when `claim_from_acknack()` finds a reader
its announce has not matched yet. -/
def processAcknack (pub : Publisher) (contextId entityId : Nat) (seqNo : SeqNo)
    (bitmap : List (BitVec 64)) (claims : Bool) (repair : Repair) : Publisher × Answer :=
  if bitmap.length > reliableBitmapMaxWords then (pub, ⟨[], none⟩)
  else if pub.reliableCache.ringDepth = 0 then
    (pub, ⟨[], if pub.reliable && bitmap.any (· ≠ 0) then some (pub.seqNo + 1) else none⟩)
  else
    let known := if claims ∧ entityId ≠ 0 then pub.claimPeerAck contextId entityId 0 else pub
    let recorded := (known.recordPeerAck contextId entityId seqNo).notifyWritableIfPending
    if recorded.reliable then recorded.retransmitReliableSamples repair seqNo bitmap
    else (recorded, ⟨[], none⟩)

end Publisher

/-! ## What resending leaves as it is -/

namespace ReliableCache

variable {c c' : ReliableCache} {d : Nat} {repair : Repair} {lifespan : Nat} {keepAll : Bool}

/-- Only resend counts and times differ. -/
structure Touched (c c' : ReliableCache) : Prop where
  same : c' = { c with index := c'.index }
  index : ∀ i, c'.index i =
    { c.index i with retry := (c'.index i).retry, resentAt := (c'.index i).resentAt }

theorem Touched.refl (c : ReliableCache) : Touched c c := ⟨rfl, fun _ => rfl⟩

theorem Touched.trans {c₁ c₂ c₃ : ReliableCache} (h : Touched c₁ c₂) (h' : Touched c₂ c₃) :
    Touched c₁ c₃ where
  same := by rw [h'.same, h.same]
  index := fun i => by rw [h'.index, h.index]

theorem markResent_touched (c : ReliableCache) (d now : Nat) (x : SeqNo) :
    Touched c (c.markResent d now x) where
  same := rfl
  index := by
    intro i
    by_cases hi : i = c.slotIndex d x
    · subst hi
      simp [markResent, slot]
    · simp [markResent, Function.update_of_ne hi]

theorem Touched.slot (h : Touched c c') (x : SeqNo) : c'.slot d x =
    { c.slot d x with retry := (c'.slot d x).retry, resentAt := (c'.slot d x).resentAt } := by
  have hso : c'.slotOrigin = c.slotOrigin := by rw [h.same]
  rw [ReliableCache.slot, ReliableCache.slot, slotIndex, slotIndex, hso]
  exact h.index _

theorem Touched.slotLive (h : Touched c c') (x : SeqNo) : c'.slotLive d x = c.slotLive d x := by
  unfold ReliableCache.slotLive
  rw [h.slot x]

theorem Touched.entryExpired (h : Touched c c') (x : SeqNo) (now : Nat) :
    entryExpired (c'.slot d x) now lifespan = entryExpired (c.slot d x) now lifespan := by
  rw [h.slot x]
  rfl

/-- A resend is seen by no lookup but that of its own seq_no. -/
theorem findResendable_markResent {x y : SeqNo} (hne : y ≠ x)
    (hx : c.findResendableCacheEntry d repair x lifespan keepAll = .resendable) :
    (c.markResent d repair.now x).findResendableCacheEntry d repair y lifespan keepAll =
      c.findResendableCacheEntry d repair y lifespan keepAll := by
  by_cases hslot : c.slotIndex d y = c.slotIndex d x
  · -- the slot names `x`: `y` is gone before and after
    have hname : (c.slot d y).seqNo = x := by
      unfold findResendableCacheEntry at hx
      simp only at hx
      split at hx
      · cases hx
      · next h =>
        rw [not_or, ne_eq, Decidable.not_not] at h
        rw [slot, hslot]
        exact h.2
    have hname' : ((c.markResent d repair.now x).slot d y).seqNo = x := by
      rw [(markResent_touched c d repair.now x).slot y]
      exact hname
    unfold findResendableCacheEntry
    simp only
    rw [if_pos (Or.inr (by rw [hname']; exact hne.symm)), if_pos (Or.inr (by rw [hname]; exact hne.symm))]
  · have hsame : (c.markResent d repair.now x).slot d y = c.slot d y :=
      Function.update_of_ne hslot _ _
    unfold findResendableCacheEntry
    rw [hsame]

/-! ## The walk over the requests -/

/-- The request is sent again by this walk. -/
def sentAgain (c : ReliableCache) (d : Nat) (repair : Repair) (lifespan : Nat) (keepAll : Bool)
    (x : SeqNo) : Bool :=
  c.findResendableCacheEntry d repair x lifespan keepAll = .resendable &&
    repair.pace x && repair.sends x

/-- The request is for a record no longer held. -/
def isGone (c : ReliableCache) (d : Nat) (repair : Repair) (lifespan : Nat) (keepAll : Bool)
    (x : SeqNo) : Bool :=
  c.findResendableCacheEntry d repair x lifespan keepAll = .gone

theorem retransmitOneSample_spec (w : Walk) (x : SeqNo) :
    Touched w.cache (retransmitOneSample d repair lifespan keepAll w x).cache ∧
    (∀ y, y ≠ x → (retransmitOneSample d repair lifespan keepAll w x).cache.findResendableCacheEntry d
      repair y lifespan keepAll = w.cache.findResendableCacheEntry d repair y lifespan keepAll) ∧
    (retransmitOneSample d repair lifespan keepAll w x).resent =
      w.resent ++ (if w.cache.sentAgain d repair lifespan keepAll x then [x] else []) ∧
    (retransmitOneSample d repair lifespan keepAll w x).anyGone =
      (w.anyGone || w.cache.isGone d repair lifespan keepAll x) := by
  unfold retransmitOneSample sentAgain isGone
  cases hf : w.cache.findResendableCacheEntry d repair x lifespan keepAll with
  | gone => exact ⟨.refl _, fun _ _ => rfl, by simp, by simp⟩
  | suppressed => exact ⟨.refl _, fun _ _ => rfl, by simp, by simp⟩
  | resendable =>
    cases hp : repair.pace x with
    | false => exact ⟨.refl _, fun _ _ => rfl, by simp, by simp⟩
    | true =>
      cases hs : repair.sends x with
      | false => exact ⟨.refl _, fun _ _ => rfl, by simp, by simp⟩
      | true =>
        exact ⟨markResent_touched _ _ _ _, fun y hy => findResendable_markResent hy hf, by simp,
          by simp⟩

/-- Each request is answered by what the cache held before the walk. -/
theorem retransmit_walk {xs : List SeqNo} (hnodup : xs.Nodup) (w : Walk) :
    Touched w.cache (xs.foldl (retransmitOneSample d repair lifespan keepAll) w).cache ∧
    (xs.foldl (retransmitOneSample d repair lifespan keepAll) w).resent =
      w.resent ++ xs.filter (w.cache.sentAgain d repair lifespan keepAll) ∧
    (xs.foldl (retransmitOneSample d repair lifespan keepAll) w).anyGone =
      (w.anyGone || xs.any (w.cache.isGone d repair lifespan keepAll)) := by
  induction xs generalizing w with
  | nil => exact ⟨.refl _, by simp, by simp⟩
  | cons x xs ih =>
    obtain ⟨hx, hrest⟩ := List.nodup_cons.mp hnodup
    obtain ⟨htouch, hsame, hresent, hgone⟩ :=
      @retransmitOneSample_spec d repair lifespan keepAll w x
    obtain ⟨ht, hr, hg⟩ := ih hrest (retransmitOneSample d repair lifespan keepAll w x)
    have hne : ∀ y ∈ xs, y ≠ x := fun y hy h => hx (h ▸ hy)
    refine ⟨htouch.trans ht, ?_, ?_⟩
    · have hfilter : xs.filter ((retransmitOneSample d repair lifespan keepAll w x).cache.sentAgain d
          repair lifespan keepAll) = xs.filter (w.cache.sentAgain d repair lifespan keepAll) := by
        refine List.filter_congr fun y hy => ?_
        rw [sentAgain, sentAgain, hsame y (hne y hy)]
      rw [List.foldl_cons, hr, hresent, hfilter, List.append_assoc, List.filter_cons]
      split <;> simp
    · have hany : xs.any ((retransmitOneSample d repair lifespan keepAll w x).cache.isGone d repair
          lifespan keepAll) = xs.any (w.cache.isGone d repair lifespan keepAll) := by
        rw [Bool.eq_iff_iff, List.any_eq_true, List.any_eq_true]
        refine exists_congr fun y => and_congr_right fun hy => ?_
        rw [isGone, isGone, hsame y (hne y hy)]
      rw [List.foldl_cons, hg, hgone, hany, List.any_cons, Bool.or_assoc]

/-! ## Where the resendable history starts -/

/-- The seq_nos from the oldest retained record to the newest. -/
def retainedRun (c : ReliableCache) : List SeqNo :=
  if c.retains ∧ steps c.oldestSeqNo c.newestSeqNo < 2 ^ 31 then
    (List.range (steps c.oldestSeqNo c.newestSeqNo + 1)).map (plus c.oldestSeqNo)
  else []

/-- The record under `x` can still be resent. -/
def resendableAt (c : ReliableCache) (d now lifespan : Nat) (x : SeqNo) : Bool :=
  c.slotLive d x && !entryExpired (c.slot d x) now lifespan

theorem firstResendableFrom_eq {now : Nat} (hc : c.retains = true)
    (hnear : steps c.oldestSeqNo c.newestSeqNo < 2 ^ 31) (n i : Nat)
    (hi : i + n = steps c.oldestSeqNo c.newestSeqNo + 1) :
    c.firstResendableFrom d now lifespan (n + 1) (plus c.oldestSeqNo i) =
      (((List.range' i n).map (plus c.oldestSeqNo)).find? (c.resendableAt d now lifespan)).getD
        (c.newestSeqNo + 1) := by
  induction n generalizing i with
  | zero =>
    have hpast : seqDelta c.newestSeqNo (plus c.oldestSeqNo i) < 0 := by
      rw [seqDelta_neg]
      have h1 : plus c.oldestSeqNo i = c.newestSeqNo + 1 := by
        rw [show i = steps c.oldestSeqNo c.newestSeqNo + 1 by omega, plus_succ_right, plus_steps]
      have h2 : c.newestSeqNo + 1 ≠ c.newestSeqNo := by bv_omega
      have h3 := steps_swap h2
      have h4 := steps_succ c.newestSeqNo
      rw [h1]
      omega
    simp [firstResendableFrom, hpast]
  | succ n ih =>
    have hin : ¬ seqDelta c.newestSeqNo (plus c.oldestSeqNo i) < 0 := by
      rw [seqDelta_neg]
      have h1 := steps_plus c.oldestSeqNo (n := i) (by omega)
      have h2 := @steps_split c.oldestSeqNo (plus c.oldestSeqNo i) c.newestSeqNo (by omega)
      omega
    rw [firstResendableFrom, hc, List.range'_succ, List.map_cons, List.find?_cons]
    simp only [Bool.not_true, Bool.false_or, decide_eq_true_eq]
    rw [if_neg hin]
    change (if c.resendableAt d now lifespan (plus c.oldestSeqNo i) = true then _ else _) = _
    cases hr : c.resendableAt d now lifespan (plus c.oldestSeqNo i) with
    | true => simp
    | false =>
      simp only [Bool.false_eq_true, if_false]
      rw [← plus_succ_right]
      exact ih (i + 1) (by omega)

/-- The scan finds the oldest retained record that can be resent. -/
theorem firstResendableSeqNo_eq (c : ReliableCache) (d now lifespan : Nat) :
    c.firstResendableSeqNo d now lifespan =
      (c.retainedRun.find? (c.resendableAt d now lifespan)).getD (c.newestSeqNo + 1) := by
  unfold firstResendableSeqNo retainedRun
  by_cases hc : c.retains = true
  · by_cases hnear : steps c.oldestSeqNo c.newestSeqNo < 2 ^ 31
    · have h := @firstResendableFrom_eq c d lifespan now hc hnear
        (steps c.oldestSeqNo c.newestSeqNo + 1) 0 (by omega)
      rw [plus_zero] at h
      rw [if_pos ⟨hc, hnear⟩, h, List.range_eq_range']
    · have hpast : seqDelta c.newestSeqNo c.oldestSeqNo < 0 := by
        rw [seqDelta_neg]
        omega
      rw [if_neg (fun h => hnear h.2)]
      simp [firstResendableFrom, hpast]
  · rw [if_neg (fun h => hc h.1)]
    simp [firstResendableFrom, hc]

theorem Touched.firstResendableSeqNo (h : Touched c c') (now : Nat) :
    c'.firstResendableSeqNo d now lifespan = c.firstResendableSeqNo d now lifespan := by
  have hrun : c'.retainedRun = c.retainedRun := by rw [h.same]; rfl
  have hnew : c'.newestSeqNo = c.newestSeqNo := by rw [h.same]
  have hat : c'.resendableAt d now lifespan = c.resendableAt d now lifespan := by
    funext x
    rw [resendableAt, resendableAt, h.slotLive, h.entryExpired]
  rw [firstResendableSeqNo_eq, firstResendableSeqNo_eq, hrun, hnew, hat]

end ReliableCache

theorem requested_nodup (seqNo : SeqNo) {bitmap : List (BitVec 64)}
    (h : bitmap.length ≤ reliableBitmapMaxWords) : (requested seqNo bitmap).Nodup := by
  unfold requested
  refine List.Nodup.map_on ?_ (List.nodup_range.filter _)
  intro i hi j hj heq
  simp only [List.mem_filter, List.mem_range] at hi hj
  unfold reliableBitmapMaxWords at h
  unfold reliableBitmapWordBits at hi hj
  have h1 := steps_plus seqNo (n := i) (by omega)
  have h2 := steps_plus seqNo (n := j) (by omega)
  rw [heq] at h1
  omega

namespace Publisher

variable (pub : Publisher) (repair : Repair)

/-- The reader that asked for `x` is not left waiting: `x` is resent, or still held and resent recently,
or below the history the HEARTBEAT announces. -/
def Answered (answer : Answer) (x : SeqNo) : Prop :=
  x ∈ answer.resent ∨
  (pub.reliableCache.slotLive pub.reliableCache.ringDepth x = true ∧
    ReliableCache.resendSuppressed repair (pub.reliableCache.slot pub.reliableCache.ringDepth x)
      pub.keepAll = true) ∨
  ∃ first, answer.heartbeat = some first ∧ seqDelta x first < 0

/-- `x` lies before the oldest retained record that can still be resent; not past the newest record
when none can. -/
def BeforeResendable (x : SeqNo) : Prop :=
  seqDelta x ((pub.reliableCache.retainedRun.find?
    (pub.reliableCache.resendableAt pub.reliableCache.ringDepth repair.now pub.lifespanDuration)).getD
      (pub.reliableCache.newestSeqNo + 1)) < 0

/-- A request the walk answers. A record that is gone has to lie before the resendable history; one
that is due has to be let go by the pacing and sent, or to lie there too when another is gone. -/
def RequestSound (asked : List SeqNo) (x : SeqNo) : Prop :=
  match pub.reliableCache.findResendableCacheEntry pub.reliableCache.ringDepth repair x
      pub.lifespanDuration pub.keepAll with
  | .gone => pub.BeforeResendable repair x
  | .suppressed => True
  | .resendable => (repair.pace x = true ∧ repair.sends x = true) ∨
      (pub.BeforeResendable repair x ∧ ∃ y ∈ asked, pub.reliableCache.findResendableCacheEntry
        pub.reliableCache.ringDepth repair y pub.lifespanDuration pub.keepAll = .gone)

theorem requestSound_of_sent {asked : List SeqNo} {x : SeqNo}
    (hf : pub.reliableCache.findResendableCacheEntry pub.reliableCache.ringDepth repair x
      pub.lifespanDuration pub.keepAll = .resendable) (hp : repair.pace x = true)
    (hs : repair.sends x = true) : pub.RequestSound repair asked x := by
  rw [RequestSound, hf]
  exact Or.inl ⟨hp, hs⟩

theorem retransmitReliableSamples_answer {seqNo : SeqNo} {bitmap : List (BitVec 64)}
    (h : bitmap.length ≤ reliableBitmapMaxWords) :
    (pub.retransmitReliableSamples repair seqNo bitmap).2 =
      ⟨(requested seqNo bitmap).filter (pub.reliableCache.sentAgain pub.reliableCache.ringDepth repair
        pub.lifespanDuration pub.keepAll),
      if (requested seqNo bitmap).any (pub.reliableCache.isGone pub.reliableCache.ringDepth repair
          pub.lifespanDuration pub.keepAll) then
        some (pub.reliableCache.firstResendableSeqNo pub.reliableCache.ringDepth repair.now
          pub.lifespanDuration)
      else none⟩ := by
  obtain ⟨ht, hr, hg⟩ := @ReliableCache.retransmit_walk pub.reliableCache.ringDepth repair
    pub.lifespanDuration pub.keepAll _ (requested_nodup seqNo h) ⟨pub.reliableCache, [], false⟩
  unfold retransmitReliableSamples
  simp only
  rw [hr, hg, ht.firstResendableSeqNo]
  simp

/-- A single request: what the code does with it is enough exactly when `RequestSound`. -/
theorem answered_iff {seqNo : SeqNo} {bitmap : List (BitVec 64)}
    (h : bitmap.length ≤ reliableBitmapMaxWords) {x : SeqNo} (hx : x ∈ requested seqNo bitmap) :
    pub.Answered repair (pub.retransmitReliableSamples repair seqNo bitmap).2 x ↔
      pub.RequestSound repair (requested seqNo bitmap) x := by
  rw [pub.retransmitReliableSamples_answer repair h]
  unfold Answered RequestSound BeforeResendable
  rw [← ReliableCache.firstResendableSeqNo_eq]
  generalize requested seqNo bitmap = asked at *
  generalize hfirst : pub.reliableCache.firstResendableSeqNo pub.reliableCache.ringDepth repair.now
    pub.lifespanDuration = first
  simp only [List.mem_filter, hx, true_and]
  have hbeat : (∃ f, (if asked.any (pub.reliableCache.isGone pub.reliableCache.ringDepth repair
      pub.lifespanDuration pub.keepAll) = true then some first else none) = some f ∧
      seqDelta x f < 0) ↔ (seqDelta x first < 0 ∧ ∃ y ∈ asked,
        pub.reliableCache.findResendableCacheEntry pub.reliableCache.ringDepth repair y
          pub.lifespanDuration pub.keepAll = .gone) := by
    have hany : asked.any (pub.reliableCache.isGone pub.reliableCache.ringDepth repair
        pub.lifespanDuration pub.keepAll) = true ↔ ∃ y ∈ asked,
        pub.reliableCache.findResendableCacheEntry pub.reliableCache.ringDepth repair y
          pub.lifespanDuration pub.keepAll = .gone := by
      rw [List.any_eq_true]
      simp only [ReliableCache.isGone, decide_eq_true_eq]
    rw [← hany]
    split
    · next hg => simp [hg]
    · next hg => simp [hg]
  rw [hbeat]
  unfold ReliableCache.sentAgain
  cases hf : pub.reliableCache.findResendableCacheEntry pub.reliableCache.ringDepth repair x
      pub.lifespanDuration pub.keepAll with
  | gone =>
    -- a gone record is neither resent nor suppressed
    have hnot : ¬ (pub.reliableCache.slotLive pub.reliableCache.ringDepth x = true ∧
        ReliableCache.resendSuppressed repair
          (pub.reliableCache.slot pub.reliableCache.ringDepth x) pub.keepAll = true) := by
      rintro ⟨hl, hs⟩
      simp only [ReliableCache.slotLive, Bool.and_eq_true, decide_eq_true_eq] at hl
      unfold ReliableCache.findResendableCacheEntry at hf
      simp only at hf
      rw [if_neg (by simp [hl.1, hl.2]), if_pos hs] at hf
      cases hf
    simp only [reduceCtorEq, decide_false, Bool.false_and, Bool.false_eq_true, false_or, hnot]
    exact ⟨fun h => h.1, fun h => ⟨h, x, hx, hf⟩⟩
  | suppressed =>
    simp only [iff_true]
    refine Or.inr (Or.inl ?_)
    unfold ReliableCache.findResendableCacheEntry at hf
    simp only at hf
    split at hf
    · cases hf
    · next hl =>
      split at hf
      · next hs =>
        rw [not_or, ne_eq, Decidable.not_not] at hl
        exact ⟨by simp [ReliableCache.slotLive, hl.1, hl.2], hs⟩
      · split at hf <;> cases hf
  | resendable =>
    have hnot : ¬ (pub.reliableCache.slotLive pub.reliableCache.ringDepth x = true ∧
        ReliableCache.resendSuppressed repair
          (pub.reliableCache.slot pub.reliableCache.ringDepth x) pub.keepAll = true) := by
      rintro ⟨hl, hs⟩
      simp only [ReliableCache.slotLive, Bool.and_eq_true, decide_eq_true_eq] at hl
      unfold ReliableCache.findResendableCacheEntry at hf
      simp only at hf
      rw [if_neg (by simp [hl.1, hl.2]), if_pos hs] at hf
      cases hf
    simp only [decide_true, Bool.true_and, Bool.and_eq_true, hnot, false_or]

/-- Every published seq_no an ACKNACK names is answered exactly when each of them is a sound request. -/
theorem answers_requests (seqNo : SeqNo) (bitmap : List (BitVec 64))
    (h : bitmap.length ≤ reliableBitmapMaxWords) :
    (∀ x ∈ requested seqNo bitmap, 0 ≤ seqDelta pub.seqNo x →
      pub.Answered repair (pub.retransmitReliableSamples repair seqNo bitmap).2 x) ↔
    ∀ x ∈ requested seqNo bitmap, 0 ≤ seqDelta pub.seqNo x →
      pub.RequestSound repair (requested seqNo bitmap) x := by
  refine forall_congr' fun x => forall_congr' fun hx => imp_congr_right fun _ => ?_
  exact pub.answered_iff repair h hx

/-- A context on a link of the smallest MTU, where every send succeeds. -/
def smallLink : Context := ⟨548, 4000, smallest_control, smallest_samples, smallest_fragments⟩

def plainRoute : Route := ⟨548, true, true, [], false, 0⟩

def plainRepair : Repair := ⟨0, 3, 0, fun _ => true, fun _ => true⟩

/-- RELIABLE, KEEP_LAST 8, with a ring of 8 and an arena of `arenaSize` bytes. -/
def shortHistory (arenaSize : Nat) : PublisherOptions :=
  ⟨true, false, 8, 0, 8, arenaSize, 0, 0, 0, 4, 4, by decide⟩

/-- Three samples, the second of them larger than the whole arena of 100 bytes. -/
@[irreducible] def middleGap : Publisher :=
  ((((create (shortHistory 100)).publish smallLink (List.replicate 4 0) plainRoute).2.publish smallLink
    (List.replicate 200 0) plainRoute).2.publish smallLink (List.replicate 4 0) plainRoute).2

/-- The first and the third are resent. -/
theorem answers_requests_held :
    middleGap.Answered plainRepair (middleGap.retransmitReliableSamples plainRepair 1 [5]).2 1 ∧
      middleGap.Answered plainRepair (middleGap.retransmitReliableSamples plainRepair 1 [5]).2 3 := by
  suffices h : ∀ x ∈ requested 1 [5], 0 ≤ seqDelta middleGap.seqNo x →
      middleGap.RequestSound plainRepair (requested 1 [5]) x by
    have hall := (answers_requests middleGap plainRepair 1 [5] (by decide)).mpr h
    exact ⟨hall 1 (by decide +kernel) (by decide +kernel),
      hall 3 (by decide +kernel) (by decide +kernel)⟩
  intro x hx _
  have hasked : requested 1 [5] = [1, 3] := by decide +kernel
  have h1 : middleGap.reliableCache.findResendableCacheEntry middleGap.reliableCache.ringDepth
      plainRepair 1 middleGap.lifespanDuration middleGap.keepAll = .resendable := by decide +kernel
  have h3 : middleGap.reliableCache.findResendableCacheEntry middleGap.reliableCache.ringDepth
      plainRepair 3 middleGap.lifespanDuration middleGap.keepAll = .resendable := by decide +kernel
  rw [hasked, List.mem_cons, List.mem_singleton] at hx
  cases hx with
  | inl hx =>
    refine requestSound_of_sent middleGap plainRepair ?_ rfl rfl
    rw [hx]
    exact h1
  | inr hx =>
    refine requestSound_of_sent middleGap plainRepair ?_ rfl rfl
    rw [hx]
    exact h3

/-- The second was never cached; the HEARTBEAT that answers a request for it announces the first. -/
theorem tombstone_leaves_reader_waiting :
    ¬ ∀ (pub : Publisher) (repair : Repair) (seqNo : SeqNo) (bitmap : List (BitVec 64)),
      bitmap.length ≤ reliableBitmapMaxWords →
      ∀ x ∈ requested seqNo bitmap, 0 ≤ seqDelta pub.seqNo x →
        pub.Answered repair (pub.retransmitReliableSamples repair seqNo bitmap).2 x := by
  intro h
  rcases h middleGap plainRepair 2 [1] (by decide) 2 (by decide +kernel) (by decide +kernel) with
    hr | ⟨hl, _⟩ | ⟨first, hf, hb⟩
  · revert hr
    decide +kernel
  · revert hl
    decide +kernel
  · have hbeat : (middleGap.retransmitReliableSamples plainRepair 2 [1]).2.heartbeat = some 1 := by
      decide +kernel
    rw [hbeat, Option.some.injEq] at hf
    subst hf
    revert hb
    decide +kernel

end Publisher

end Tickle
