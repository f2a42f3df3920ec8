import Tickle.Writer.Fragments

/-! # A sample into the cache

`cache_reliable_sample()` and `cache_sample_fragments()` as one step on the samples held: what was
published before is dropped from the front, and the sample stands behind what is left, whole, or not
at all (`Entered`). The send may fail after that, and the seq_nos are then taken again, or go, and a
sample cached whole passes over those its network form would have spent.
-/

namespace Tickle

open Serial Loop RingArena

/-- The records a sample is cached as under `first`: one DATA, or one per fragment. -/
def sampleRecords (node : Context) (first : SeqNo) (cdr : List UInt8) (wholeLimit : Nat) :
    List Record :=
  let count := sampleDatagramCount node cdr wholeLimit
  if count > 1 then (List.range count).map (fragRecord node first cdr count)
  else [.data first (padCdr cdr)]

/-- The arena bytes of each of them. -/
def sampleFootprints (node : Context) (cdr : List UInt8) (wholeLimit : Nat) : List Nat :=
  let count := sampleDatagramCount node cdr wholeLimit
  if count > 1 then ReliableCache.fragFootprints node cdr count
  else [roundup (recordLengthChecked cdr)]

theorem roundup_roundup (n : Nat) : roundup (roundup n) = roundup n := by
  unfold roundup
  omega

theorem sampleFootprints_sum (node : Context) (cdr : List UInt8) (wholeLimit : Nat) :
    (sampleFootprints node cdr wholeLimit).sum = sampleCacheFootprint node cdr wholeLimit := by
  have := sampleDatagramCount_pos node cdr wholeLimit
  unfold sampleFootprints sampleCacheFootprint
  simp only
  split
  · rw [if_neg (by omega)]
    rfl
  · rw [if_pos (by omega), List.sum_singleton, recordLengthChecked, roundup_roundup]

namespace ReliableCache

variable {c c' : ReliableCache} {d : Nat} {seqNo : SeqNo} {old left : List (List Held)}

/-! ## Forth and back over a sample's seq_nos -/

/-- What was published before `seqNo` lies less than `2 ^ 30` behind it. -/
theorem Ready.before (hR : c.Ready d old left seqNo) {h : Held} (hh : h ∈ old.flatten) :
    0 < steps h.seqNo seqNo ∧ steps h.seqNo seqNo < 2 ^ 30 := by
  have hin : h ∈ c.held d := by rw [hR.stored.grouped.held]; simp [hh]
  have h1 := hR.below h hh
  have h2 := hR.reach (mem_held hin).1
  have h3 := steps_split (Nat.le_of_lt h1)
  omega

/-- Seq_nos that no entry names can be passed over. -/
theorem Ready.pass (hR : c.Ready d old [] seqNo) {k : Nat} (hk : k ≤ 65536)
    (hreach : c.retains = true → steps c.oldestSeqNo seqNo ≤ 65536)
    (hclear : ∀ i, (c.index i).len ≠ 0 → k ≤ steps seqNo (c.index i).seqNo) :
    c.Ready d old [] (plus seqNo k) := by
  have hplus : c.retains = true → steps c.oldestSeqNo (plus seqNo k) = steps c.oldestSeqNo seqNo + k :=
    fun hc => steps_plus_of (by have := hreach hc; omega)
  refine ⟨hR.stored, ?_, ?_, by simp, by simp, by simp, ?_⟩
  · intro hc
    have := hplus hc
    have := hreach hc
    omega
  · intro h hh
    have hin : h ∈ c.held d := by rw [hR.stored.grouped.held]; simp [hh]
    have := hplus (mem_held hin).1
    have := hR.below h hh
    omega
  · intro hc i hi hpast
    have h1 := hplus hc
    have h2 := hR.gap hc i hi hpast
    have h3 := steps_split h2
    have h4 := hclear i hi
    omega

/-- A publish that fails leaves the seq_nos it cached to be reserved again. -/
theorem Ready.back {kept own : List (List Held)} {first : SeqNo} {span : Nat}
    (hR : c.Ready d (kept ++ own) [] (plus first span)) (hspan : span ≤ 65536)
    (hkept : ∀ h ∈ kept.flatten, 0 < steps h.seqNo first ∧ steps h.seqNo first < 2 ^ 30)
    (hown : ∀ h ∈ own.flatten, ∃ j < span, h.seqNo = plus first j)
    (hnext : ∀ h ∈ own.flatten.head?, h.seqNo = first) (hsingle : own.length ≤ 1) :
    c.Ready d kept own first := by
  have hs : c.Stored d (kept ++ own) := by simpa using hR.stored
  have hold : c.retains = true → steps c.oldestSeqNo first < 2 ^ 30 := by
    intro hc
    obtain ⟨x, rest, hflat, hx, _⟩ := hs.grouped.head_seqNo hc
    rw [← hx]
    rw [List.flatten_append] at hflat
    cases hk : kept.flatten with
    | nil =>
      rw [hk, List.nil_append] at hflat
      rw [hnext x (by simp [hflat]), steps_self]
      omega
    | cons y ys =>
      rw [hk, List.cons_append, List.cons.injEq] at hflat
      exact (hkept x (by rw [hk, hflat.1]; simp)).2
  have hplus : ∀ j ≤ span, c.retains = true →
      steps c.oldestSeqNo (plus first j) = steps c.oldestSeqNo first + j :=
    fun j hj hc => steps_plus_of (by have := hold hc; omega)
  refine ⟨hs, hold, ?_, ?_, hnext, hsingle, ?_⟩
  · intro h hh
    have hin : h ∈ c.held d := by rw [hs.grouped.held]; simp [hh]
    have hc := (mem_held hin).1
    have h1 := hR.below h (by simp [hh])
    rw [hplus span (Nat.le_refl _) hc] at h1
    have h2 := hkept h hh
    have h3 := hold hc
    by_cases hlt : steps c.oldestSeqNo h.seqNo < steps c.oldestSeqNo first
    · exact hlt
    · -- past `first` by less than the span, it could not lie behind it
      have h4 := steps_split (Nat.le_of_not_lt hlt)
      have h5 : first ≠ h.seqNo := by rintro rfl; simp at h2
      have := steps_swap h5
      omega
  · intro h hh
    obtain ⟨j, hj, hseq⟩ := hown h hh
    have hin : h ∈ c.held d := by rw [hs.grouped.held]; simp [hh]
    rw [hseq, hplus j (Nat.le_of_lt hj) (mem_held hin).1]
    omega
  · intro hc i hi hpast
    have h1 := hR.gap hc i hi hpast
    rw [hplus span (Nat.le_refl _) hc] at h1
    omega

/-! ## A sample, whole or not at all -/

/-- A sample that spends `span` seq_nos from `first` on has gone into the cache: `kept` is left of what
was published before it, `own` is what is retained of it. Samples within the ring's reach stay when
the arena has room before them for `sizes`. -/
structure Entered (d : Nat) (c c' : ReliableCache) (old : List (List Held)) (first : SeqNo)
    (span : Nat) (sizes : List Nat) (records : List Record) (gone kept own : List (List Held)) :
    Prop where
  split : old = gone ++ kept
  sent : c'.Ready d (kept ++ own) [] (plus first span)
  failed : c'.Ready d kept own first
  whole : own = [] ∨ ∃ g, own = [g] ∧ g.map Held.record = records.map some
  barrier : ∀ pre b h rest, old = pre ++ b → b.flatten = h :: rest → steps h.seqNo first + span ≤ d →
    (sizes.sum ≤ c.arenaSize → Room c.arenaSize h.offset c.tail sizes) →
    ∃ pre', kept = pre' ++ b
  arenaSize : c'.arenaSize = c.arenaSize
  arenaLimit : c'.arenaLimit = c.arenaLimit
  ringDepth : c'.ringDepth = c.ringDepth
  sampleDepth : c'.sampleDepth = c.sampleDepth
  log : c'.evicted = (gone.flatten.filterMap Held.record).reverse ++ c.evicted

/-- What is not demanded by the count bound stays. -/
theorem Buried.barrier {gone kept pre b : List (List Held)} {first : Held} {rest : List Held}
    (h : Buried d c c' old seqNo gone kept) (hold : old = pre ++ b) (hb : b.flatten = first :: rest)
    (hcount : steps first.seqNo seqNo < d) : ∃ pre', kept = pre' ++ b := by
  obtain ⟨pre', hkept, _⟩ := @Drops.keeps _ _ pre b kept (hold ▸ h.count) (by
    intro _ hd
    have := hd first (by simp [hb])
    omega)
  exact ⟨pre', hkept⟩

/-- No entry that names a record names a seq_no after `first` within the span. -/
def SpanClear (c : ReliableCache) (first : SeqNo) (span : Nat) : Prop :=
  ∀ i, (c.index i).len ≠ 0 → (c.index i).seqNo ≠ first → span ≤ steps first (c.index i).seqNo

/-- A sample cached whole passes over the seq_nos of its span. -/
theorem Ready.skip {span : Nat} (hR : c'.Ready d old [] (seqNo + 1)) (hnew : c'.newestSeqNo = seqNo)
    (hindex : ∀ i, (c'.index i).len ≠ 0 → c'.index i = c.index i ∨ (c'.index i).seqNo = seqNo)
    (hspan : 0 < span) (hlt : span ≤ 65536) (hclear : span = 1 ∨ c.SpanClear seqNo span) :
    c'.Ready d old [] (plus seqNo span) := by
  obtain ⟨k, rfl⟩ : ∃ k, span = k + 1 := ⟨span - 1, by omega⟩
  rw [plus_succ]
  have hdlt := hR.stored.grouped.ranged.depth_lt
  refine hR.pass (by omega) ?_ ?_
  · intro hc
    have hw := hR.stored.grouped.ranged.within hc
    rw [hnew] at hw
    rw [steps_succ_right (by omega)]
    omega
  · intro i hi
    by_cases hne : (c'.index i).seqNo = seqNo
    · have h1 : seqNo + 1 ≠ seqNo := by bv_omega
      have h2 := steps_swap h1
      have h3 := steps_succ seqNo
      rw [hne]
      omega
    · rcases hclear with h1 | hclear
      · omega
      · rcases hindex i hi with he | he
        · rw [he] at hi hne ⊢
          have h1 := hclear i hi hne
          have h2 := steps_succ_left (Ne.symm hne)
          omega
        · exact absurd he hne

section Whole

variable {cdr : List UInt8} {span now : Nat}

theorem cacheReliableSample_spec (hR : c.admitSample.Ready d old left seqNo)
    (hd : c.admitSample.ringDepth = d) (hspan : 0 < span) (hlt : span ≤ 65536)
    (hclear : span = 1 ∨ c.admitSample.SpanClear seqNo span) :
    ∃ gone kept own, Entered d c.admitSample (c.cacheReliableSample seqNo cdr now) old seqNo span
      [roundup (recordLengthChecked cdr)] [.data seqNo (padCdr cdr)] gone kept own := by
  have hpos : 0 < recordLengthChecked cdr := by
    rw [recordLengthChecked_eq, dataFraming]
    omega
  unfold cacheReliableSample
  simp only
  by_cases hfit : roundup (recordLengthChecked cdr) ≤ c.admitSample.arenaSize
  · obtain ⟨gone, mid, kept, offset, hplace, h⟩ := @cacheRecord_spec c.admitSample d seqNo old left
      (recordLengthChecked cdr) now (.data seqNo (padCdr cdr)) hR hd hpos hfit
      (recordLengthChecked_eq cdr).symm rfl
    have h := h.same (countSample_same _ (c.admitSample.cacheRecord seqNo (recordLengthChecked cdr)
      now (.data seqNo (padCdr cdr))).2)
    generalize (c.admitSample.cacheRecord seqNo (recordLengthChecked cdr) now
      (.data seqNo (padCdr cdr))).1.countSample _ = c' at *
    have hready := h.own_ready (kept ++ [[⟨seqNo, offset, recordLengthChecked cdr,
      some (.data seqNo (padCdr cdr))⟩]]) (by simp) (by
        intro g hg
        rcases List.mem_append.mp hg with hg | hg
        · exact hR.stored.grouped.samples g (by simp [h.split, hg])
        · rw [List.mem_singleton] at hg
          exact ⟨_, [], hg, rfl, by simp⟩)
    have hsent := hready.skip h.landed.newest h.landed.index hspan hlt hclear
    refine ⟨gone, kept, _, h.split, hsent, ?_, Or.inr ⟨_, rfl, rfl⟩, ?_, h.landed.arenaSize,
      h.landed.arenaLimit, h.landed.ringDepth, h.landed.sampleDepth, h.log⟩
    · refine hsent.back hlt ?_ ?_ ?_ (by simp)
      · intro x hx
        exact hR.before (by simp [h.split, hx])
      · intro x hx
        simp only [List.flatten_cons, List.flatten_nil, List.append_nil, List.mem_singleton] at hx
        exact ⟨0, hspan, by rw [hx, plus_zero]⟩
      · intro x hx
        simp only [List.flatten_cons, List.flatten_nil, List.append_nil, List.head?_cons,
          Option.mem_some_iff] at hx
        rw [← hx]
    · intro pre b x rest hold hb hcount hroom
      obtain ⟨pre', hk, _⟩ := h.barrier hR.stored hold hb hpos (by omega) (hroom (by simpa using hfit))
      exact ⟨pre', hk⟩
  · obtain ⟨hnone, gone, kept, h⟩ := @cacheRecord_tombstone c.admitSample d seqNo old left
      (recordLengthChecked cdr) now (.data seqNo (padCdr cdr)) hR hd (Or.inr (Nat.lt_of_not_le hfit))
    rw [hnone]
    change ∃ gone kept own, Entered d c.admitSample (c.admitSample.cacheRecord seqNo
      (recordLengthChecked cdr) now (.data seqNo (padCdr cdr))).1 old seqNo span _ _ gone kept own
    generalize (c.admitSample.cacheRecord seqNo (recordLengthChecked cdr) now
      (.data seqNo (padCdr cdr))).1 = c' at *
    have hsent := h.ready.skip h.newest (fun i hi => Or.inl (h.index i hi)) hspan hlt hclear
    refine ⟨gone, kept, [], h.split, by simpa using hsent, ?_, Or.inl rfl, ?_, h.arenaSize,
      h.arenaLimit, h.ringDepth, h.sampleDepth, h.log⟩
    · refine Ready.back (by simpa using hsent) hlt ?_ (by simp) (by simp) (by simp)
      intro x hx
      exact hR.before (by simp [h.split, hx])
    · intro pre b x rest hold hb hcount _
      exact h.barrier hold hb (by omega)

end Whole

section Fragments

variable {node : Context} {cdr : List UInt8} {first : SeqNo} {count limit now : Nat}

/-- A sample of too many fragments, or of too many bytes, as one tombstone per fragment. -/
theorem tombstones_spec (hR : c.Ready d old left first) (hd : c.ringDepth = d) (i : Nat)
    (hi : i ≤ 65536) :
    ∃ gone kept left', old = gone ++ kept ∧ (i = 0 ∨ left' = []) ∧
      ((List.range i).foldl (cacheFragment node first cdr count now false) c).Ready d kept left'
        (plus first i) ∧
      (∀ pre b h rest, old = pre ++ b → b.flatten = h :: rest → steps h.seqNo first + i ≤ d →
        ∃ pre', kept = pre' ++ b) ∧
      ((List.range i).foldl (cacheFragment node first cdr count now false) c).arenaSize =
        c.arenaSize ∧
      ((List.range i).foldl (cacheFragment node first cdr count now false) c).arenaLimit =
        c.arenaLimit ∧
      ((List.range i).foldl (cacheFragment node first cdr count now false) c).ringDepth =
        c.ringDepth ∧
      ((List.range i).foldl (cacheFragment node first cdr count now false) c).sampleDepth =
        c.sampleDepth ∧
      ((List.range i).foldl (cacheFragment node first cdr count now false) c).evicted =
        (gone.flatten.filterMap Held.record).reverse ++ c.evicted := by
  have hdlt := hR.stored.grouped.ranged.depth_lt
  induction i with
  | zero =>
    refine ⟨[], old, left, rfl, Or.inl rfl, by rw [plus_zero]; exact hR, ?_, rfl, rfl, rfl, rfl, rfl⟩
    intro pre b h rest hold _ _
    exact ⟨pre, hold⟩
  | succ i ih =>
    obtain ⟨gone, kept, left', hsplit, _, hready, hbar, hsize, hlimit, hdepth, hsd, hlog⟩ :=
      ih (by omega)
    rw [List.range_succ, List.foldl_append, List.foldl_cons, List.foldl_nil]
    generalize (List.range i).foldl (cacheFragment node first cdr count now false) c = s at *
    obtain ⟨hnone, gone', kept', h⟩ := @cacheRecord_tombstone s d (plus first i) kept left' 0 now
      (fragRecord node first cdr count i) hready (hdepth.trans hd) (Or.inl rfl)
    have hstep : cacheFragment node first cdr count now false s i =
        (s.cacheRecord (plus first i) 0 now (fragRecord node first cdr count i)).1 := by
      unfold cacheFragment
      simp only [Bool.false_eq_true, if_false, hnone]
      split <;> rfl
    rw [hstep]
    generalize (s.cacheRecord (plus first i) 0 now (fragRecord node first cdr count i)).1 = s' at *
    refine ⟨gone ++ gone', kept', [], ?_, Or.inr rfl, ?_, ?_, h.arenaSize.trans hsize,
      h.arenaLimit.trans hlimit, h.ringDepth.trans hdepth, h.sampleDepth.trans hsd, ?_⟩
    · rw [hsplit, h.split, List.append_assoc]
    · rw [plus_add, plus_succ, plus_zero]
      exact h.ready
    · intro pre b x rest hold hb hcount
      obtain ⟨pre', hk⟩ := hbar pre b x rest hold hb (by omega)
      refine h.barrier hk hb ?_
      rw [steps_plus_of (by omega)]
      omega
    · rw [h.log, hlog]
      simp

theorem cacheSampleFragments_spec (hR : c.admitSample.Ready d old left first)
    (hd : c.admitSample.ringDepth = d) (hcd : c.ringDepth = d)
    (hsize : c.admitSample.arenaSize = c.arenaSize)
    (hmany : 1 < sampleDatagramCount node cdr limit) (hlt : sampleDatagramCount node cdr limit ≤ 65536)
    (hfit : sampleDatagramCount node cdr limit ≤ d →
      (sampleFootprints node cdr limit).sum ≤ c.admitSample.arenaSize →
      FragmentsFit c.admitSample d first (sampleFootprints node cdr limit)) :
    ∃ gone kept own, Entered d c.admitSample
      (c.cacheSampleFragments node cdr limit first (sampleDatagramCount node cdr limit) now) old first
      (sampleDatagramCount node cdr limit) (sampleFootprints node cdr limit)
      (sampleRecords node first cdr limit) gone kept own := by
  have hd0 := hR.stored.grouped.ranged.depth_pos
  have hfoot : sampleFootprints node cdr limit =
      fragFootprints node cdr (sampleDatagramCount node cdr limit) := by
    unfold sampleFootprints
    simp only
    rw [if_pos hmany]
  have hrec : sampleRecords node first cdr limit = (List.range (sampleDatagramCount node cdr limit)).map
      (fragRecord node first cdr (sampleDatagramCount node cdr limit)) := by
    unfold sampleRecords
    simp only
    rw [if_pos hmany]
  rw [hfoot] at hfit
  unfold cacheSampleFragments
  rw [if_neg (by omega), hcd, ← sampleFootprints_sum, hrec, hfoot]
  simp only
  generalize sampleDatagramCount node cdr limit = count at *
  rw [← hsize]
  by_cases hkeep : count ≤ d ∧ (fragFootprints node cdr count).sum ≤ c.admitSample.arenaSize
  · obtain ⟨gone, kept, own, hF⟩ := @Fragmented.all c.admitSample d old left node cdr first count now
      hR hd (by omega) hkeep.1 hkeep.2 (hfit hkeep.1 hkeep.2)
    simp only [hkeep, and_self, decide_true]
    generalize (List.range count).foldl (cacheFragment node first cdr count now true) c.admitSample =
      c' at *
    have hseq : ∀ h ∈ own, ∃ j < count, h.seqNo = plus first j := by
      intro h hh
      have hmem : (h.seqNo, h.record) ∈ own.map (fun h => (h.seqNo, h.record)) :=
        List.mem_map_of_mem hh
      rw [hF.records] at hmem
      obtain ⟨j, hj, heq⟩ := List.mem_map.mp hmem
      exact ⟨j, List.mem_range.mp hj, (Prod.mk.inj heq).1.symm⟩
    refine ⟨gone, kept, [own], hF.split, hF.ready, ?_, Or.inr ⟨own, rfl, ?_⟩, ?_, hF.arenaSize,
      hF.arenaLimit, hF.ringDepth, hF.sampleDepth, hF.log⟩
    · refine hF.ready.back hlt ?_ (by simpa using hseq) ?_ (by simp)
      · intro x hx
        exact hR.before (by simp [hF.split, hx])
      · intro x hx
        have := congrArg List.head? hF.records
        obtain ⟨k, rfl⟩ : ∃ k, count = k + 1 := ⟨count - 1, by omega⟩
        rw [List.range_succ_eq_map, List.map_cons, List.head?_cons, List.head?_map, plus_zero] at this
        simp only [List.flatten_cons, List.flatten_nil, List.append_nil, Option.mem_def] at hx
        rw [hx] at this
        simpa using congrArg (Option.map Prod.fst) this
    · have := congrArg (List.map Prod.snd) hF.records
      simpa [List.map_map, Function.comp_def] using this
    · intro pre b x rest hold hb hcount hroom
      obtain ⟨pre', hk, _⟩ := hF.barrier pre b x rest hold hb hcount (hroom hkeep.2)
      exact ⟨pre', hk⟩
  · obtain ⟨gone, kept, left', hsplit, hleft, hready, hbar, h1, h2, h3, h4, hlog⟩ :=
      @tombstones_spec c.admitSample d old left node cdr first count now hR hd count hlt
    rw [decide_eq_false hkeep]
    generalize (List.range count).foldl (cacheFragment node first cdr count now false) c.admitSample =
      c' at *
    obtain rfl : left' = [] := hleft.resolve_left (by omega)
    refine ⟨gone, kept, [], hsplit, by simpa using hready, ?_, Or.inl rfl, ?_, h1, h2, h3, h4, hlog⟩
    · refine Ready.back (by simpa using hready) hlt ?_ (by simp) (by simp) (by simp)
      intro x hx
      exact hR.before (by simp [hsplit, hx])
    · intro pre b x rest hold hb hcount _
      exact hbar pre b x rest hold hb hcount

end Fragments

/-! ## KEEP_LAST's bound -/

theorem admitSample_of_keepAll (h : c.sampleDepth = 0) : c.admitSample = c := by
  rw [admitSample, if_pos (Or.inl h)]

/-- The bound in samples drops from the front like the others; a failed publish's sample may go too. -/
theorem admitSample_spec (hR : c.Ready d old left seqNo) (hd : c.ringDepth = d) :
    ∃ gone old' left', old ++ left = gone ++ (old' ++ left') ∧
      Evicted d c c.admitSample gone.flatten ∧ c.admitSample.Ready d old' left' seqNo := by
  unfold admitSample
  split
  · exact ⟨[], old, left, rfl, .refl c, hR⟩
  · simp only [hd]
    obtain ⟨gone, kept, hall, _, he, hg, _⟩ := hR.stored.grouped.evictWhile
      (fun s => decide (d ≠ 0) && s.retains && decide (s.retainedSamples ≥ s.sampleDepth))
      (fun _ => True) (by
        intro s gone kept _ hg hcond
        simp only [Bool.and_eq_true] at hcond
        refine ⟨?_, trivial⟩
        rintro rfl
        rw [hg.not_retains] at hcond
        cases hcond.1.2)
    generalize whileN _ _ _ c = c' at *
    by_cases hlen : gone.length ≤ old.length
    · -- some of `old`
      obtain ⟨old', rfl, rfl⟩ : ∃ old', old = gone ++ old' ∧ kept = old' ++ left := by
        rcases List.append_eq_append_iff.mp hall with ⟨x, hx, hy⟩ | ⟨x, hx, hy⟩
        · have : x = [] := by
            rw [hx, List.length_append] at hlen
            exact List.eq_nil_of_length_eq_zero (by omega)
          subst this
          exact ⟨[], by simpa using hx.symm, by simpa using hy.symm⟩
        · exact ⟨x, hx, hy⟩
      exact ⟨gone, old', left, by simp, he, hR.evicted he hg⟩
    · -- all of it, and the one sample a failed publish left
      have hkept : kept = [] := by
        have h1 := congrArg List.length hall
        have h2 := hR.single
        simp only [List.length_append] at h1
        exact List.eq_nil_of_length_eq_zero (by omega)
      subst hkept
      exact ⟨gone, [], [], by simpa using hall, he, hg.ready seqNo⟩

end ReliableCache

end Tickle
