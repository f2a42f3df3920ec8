import Tickle.Writer.Assured

/-! # The depth reported at creation

`publisher_layout_of()` reports how many samples of a bounded type's largest size its cache keeps. The index ring is cut to
what 16 bits count, and to what the arena can fill: the second cut never tells (`depthKept_slots`), the first is left out of
the report. In every run of samples within the bound whose sends succeed, the newest samples reported are all retained, as
long as the ring counts their datagrams and no fragmented sample takes more than half of the arena.
-/

namespace Tickle

open Serial Loop RingArena

/-! ## What a sample within the bound takes -/

/-- A context whose links take the build's datagrams. -/
structure DefaultLimit (build : Build) (node : Context) : Prop where
  control : node.controlMax = build.controlMaxLength
  sample : node.maxSampleLength = build.maxSampleLength

section Bound

variable {build : Build} {node : Context} {cdr : List UInt8} {maxCdr : Nat}

theorem roundup_mono {m n : Nat} (le : m ≤ n) : roundup m ≤ roundup n := by
  unfold roundup
  omega

theorem sampleDatagrams_pos (build : Build) (n : Nat) : 0 < build.sampleDatagrams n := by
  unfold Build.sampleDatagrams
  dsimp only
  split
  · exact Nat.one_pos
  · exact Nat.add_pos_left Nat.one_pos _

theorem sampleDatagramCount_le_bound (limit : DefaultLimit build node) (within : cdr.length ≤ maxCdr) :
    sampleDatagramCount node cdr node.fragWholeLimit ≤ build.sampleDatagrams maxCdr := by
  have control := limit.control
  have padded := roundup_mono within
  have long : recordLengthChecked cdr = 20 + roundup cdr.length := by
    rw [recordLengthChecked_eq, padCdr_length]
    rfl
  unfold sampleDatagramCount
  split
  · next over_ =>
    rw [long] at over_
    unfold headerLength Context.fragWholeLimit at over_
    unfold Context.fragCountFor Context.fragFirstPayload Context.fragContPayload Build.sampleDatagrams
    rw [sampleCdrLength_eq, padCdr_length, control]
    dsimp only [headerLength]
    rw [if_neg (by omega)]
    apply Nat.add_le_add_left
    apply Nat.div_le_div_right
    omega
  · exact sampleDatagrams_pos build maxCdr

/-- `tt_sample_cache_bytes()` bounds the arena bytes of every sample within the type's bound. -/
theorem sampleFootprints_le_bound (limit : DefaultLimit build node) (within : cdr.length ≤ maxCdr) :
    (sampleFootprints node cdr node.fragWholeLimit).sum ≤ build.sampleCacheBytes maxCdr := by
  have fewer := sampleDatagramCount_le_bound limit within
  have padded := roundup_mono within
  have cont : fragHeaderLength 1 = 14 := rfl
  have first : fragHeaderLength 0 = 21 := rfl
  have some_ := sampleDatagramCount_pos node cdr node.fragWholeLimit
  have whole : roundup (recordLengthChecked cdr) = 20 + roundup cdr.length := by
    rw [recordLengthChecked, roundup_roundup]
    unfold roundup dataFraming
    omega
  have bound : roundup (dataFraming + maxCdr) = 20 + roundup maxCdr := by
    unfold roundup dataFraming
    omega
  unfold sampleFootprints Build.sampleCacheBytes
  dsimp only
  split
  · next many =>
    have sum := @fragFootprints_sum_le node cdr (sampleDatagramCount node cdr node.fragWholeLimit) some_
    rw [sampleCdrLength_eq, padCdr_length] at sum
    unfold fragmentOverhead at sum
    rw [if_neg (by omega), cont]
    rw [cont, first] at sum
    omega
  · rw [List.sum_singleton, whole, cont]
    split
    · omega
    · omega

end Bound

/-! ## The layout -/

/-- What the reported depth says of the arena and the ring. -/
structure Promises (build : Build) (type : TypeSupport) (layout : PublisherLayout) (depth : Nat) : Prop where
  depth : layout.depthKept ≤ depth
  record : layout.record = build.sampleCacheBytes (build.qosTypeMaxCdr type)
  arena : layout.record ≤ layout.arena
  bytes : 2 ≤ layout.depthKept → (layout.depthKept + 1) * layout.record ≤ layout.arena
  slots : layout.depthKept * build.sampleDatagrams (build.qosTypeMaxCdr type) ≤ 65535 →
    layout.depthKept * build.sampleDatagrams (build.qosTypeMaxCdr type) ≤ layout.ring

theorem sampleCacheBytes_pos (build : Build) (n : Nat) : 0 < build.sampleCacheBytes n := by
  unfold Build.sampleCacheBytes
  dsimp only
  split
  · exact Nat.lt_of_lt_of_le (by unfold dataFraming; omega) (le_roundup _)
  · omega

/-- The slots an arena of `kept` samples can fill are enough for them. -/
theorem depthKept_slots {build : Build} {n kept depth arena : Nat} (le : kept ≤ depth)
    (bytes : kept * build.sampleCacheBytes n ≤ arena) :
    kept * build.sampleDatagrams n ≤ 2 * (depth + 1) + arena / (build.controlMaxLength - (headerLength + 4 + 10)) := by
  by_cases whole : headerLength + 4 + 16 + roundup n ≤ build.controlMaxLength
  · have one : build.sampleDatagrams n = 1 := by
      unfold Build.sampleDatagrams
      dsimp only
      rw [if_pos whole]
    rw [one]
    generalize arena / (build.controlMaxLength - (headerLength + 4 + 10)) = filled
    omega
  -- one record for the first payload, one for a short last one, and a full continuation for every payload between
  have count : build.sampleDatagrams n ≤ 2 + roundup n / (build.controlMaxLength - (headerLength + 4 + 10)) := by
    unfold Build.sampleDatagrams
    dsimp only
    rw [if_neg whole]
    have same : build.controlMaxLength - (headerLength + 4) - 10 = build.controlMaxLength - (headerLength + 4 + 10) := by
      omega
    rw [same]
    generalize build.controlMaxLength - (headerLength + 4 + 10) = cont
    rcases Nat.eq_zero_or_pos cont with zero | pos
    · rw [zero]
      simp
    · have step : roundup n - (build.controlMaxLength - (headerLength + 4) - 17) + cont - 1 ≤ roundup n + cont := by omega
      have := Nat.div_le_div_right (c := cont) step
      rw [Nat.add_div_right _ pos] at this
      omega
  have padded : roundup n ≤ build.sampleCacheBytes n := by
    unfold Build.sampleCacheBytes
    dsimp only
    split
    · exact roundup_mono (by unfold dataFraming; omega)
    · omega
  calc kept * build.sampleDatagrams n
      ≤ kept * (2 + roundup n / (build.controlMaxLength - (headerLength + 4 + 10))) := Nat.mul_le_mul_left _ count
    _ = 2 * kept + kept * (roundup n / (build.controlMaxLength - (headerLength + 4 + 10))) := by rw [Nat.mul_add]; omega
    _ ≤ 2 * (depth + 1) + kept * roundup n / (build.controlMaxLength - (headerLength + 4 + 10)) :=
      Nat.add_le_add (by omega) (Nat.mul_div_le_mul_div_assoc ..)
    _ ≤ 2 * (depth + 1) + arena / (build.controlMaxLength - (headerLength + 4 + 10)) := by
      apply Nat.add_le_add_left
      exact Nat.div_le_div_right ((Nat.mul_le_mul_left _ padded).trans bytes)

theorem le_capped16 {m n : Nat} (few : m ≤ 65535) (le : m ≤ n) : m ≤ capped16 n := by
  unfold capped16
  split
  · exact le
  · exact few

/-- The layout of a bounded type that is cached. -/
theorem publisherLayoutOf_promises (build : Build) {type : TypeSupport} {actual : QosProfile}
    (cached : actual.reliable = true ∨ actual.transientLocal = true) (bounded : type.maxEncodedSize ≠ 0)
    (exact_ : type.maxEncodedSizeEstimated = false) :
    Promises build type (publisherLayoutOf build type actual) actual.depth := by
  have pos := sampleCacheBytes_pos build (build.qosTypeMaxCdr type)
  have on : (!(actual.reliable || actual.transientLocal)) = false := by
    rcases cached with h | h <;> simp [h]
  unfold publisherLayoutOf
  rw [on]
  dsimp only
  simp only [Bool.false_eq_true, if_false, bounded, exact_, or_self]
  generalize hr : build.sampleCacheBytes (build.qosTypeMaxCdr type) = record at *
  generalize hD : build.sampleDatagrams (build.qosTypeMaxCdr type) = D
  generalize (if (actual.depth + 1) * record < actual.bytes then (actual.depth + 1) * record else actual.bytes) = asked
  generalize harena : (if asked > record then asked else record) = arena
  generalize hfit : (if arena / record > 1 then arena / record - 1 else 1) = fit
  generalize hkept : (if fit < actual.depth then fit else actual.depth) = kept
  have arena_le : record ≤ arena := by
    rw [← harena]
    split
    · omega
    · exact Nat.le_refl _
  have kept_le : kept ≤ actual.depth ∧ kept ≤ fit := by
    rw [← hkept]
    split
    · omega
    · omega
  have bytes : 2 ≤ kept → (kept + 1) * record ≤ arena := by
    intro two
    have share : kept + 1 ≤ arena / record := by
      split at hfit
      · omega
      · omega
    exact (Nat.mul_le_mul_right _ share).trans (Nat.div_mul_le_self _ _)
  refine ⟨kept_le.1, hr.symm, arena_le, bytes, ?_⟩
  rw [hD]
  intro few
  have fill : kept * D ≤ 2 * (actual.depth + 1) + arena / (build.controlMaxLength - (headerLength + 4 + 10)) := by
    rw [← hD]
    apply depthKept_slots kept_le.1
    rw [hr]
    rcases Nat.lt_or_ge kept 2 with one | two
    · have : kept * record ≤ 1 * record := Nat.mul_le_mul_right _ (by omega)
      omega
    · have := bytes two
      rw [Nat.add_mul] at this
      omega
  apply le_capped16 few
  split
  · exact Nat.mul_le_mul_right _ kept_le.1
  · exact fill

/-! ## The newest samples -/

namespace ReliableCache

variable {node : Context} {c c' : ReliableCache} {rows kept own : List Held} {cdr : List UInt8} {first : SeqNo}
  {datagrams : Nat}

/-- `tail` has every record of the samples `recent`, each of at most `datagrams` of them, and what comes next is under
`next`. -/
structure Recent (node : Context) (datagrams : Nat) (next : SeqNo) (tail : List Held) (recent : List (SeqNo × List UInt8)) :
    Prop where
  samples : beginnings tail ≤ recent.length
  head : ∀ h ∈ tail.head?, h.continues = false ∧ steps h.seqNo next ≤ recent.length * datagrams
  records : ∀ sample ∈ recent, ∀ r ∈ sampleRecords node sample.1 sample.2 node.fragWholeLimit,
    ∃ h ∈ tail, h.seqNo = r.seqNo ∧ h.record = some r

theorem Recent.nil (next : SeqNo) : Recent node datagrams next [] [] where
  samples := Nat.le_refl 0
  head := by simp
  records := by simp

/-- The sample that comes next, behind them. -/
theorem Recent.snoc {tail : List Held} {recent : List (SeqNo × List UInt8)} {count : Nat}
    (h : Recent node datagrams first tail recent) (single : beginnings own ≤ 1) {o : Held} {post : List Held}
    (own_ : own = o :: post) (starts_ : o.continues = false) (name : o.seqNo = first) (few : count ≤ datagrams)
    (small : (recent.length + 1) * datagrams ≤ 65535)
    (records : ∀ r ∈ sampleRecords node first cdr node.fragWholeLimit, ∃ x ∈ own, x.seqNo = r.seqNo ∧ x.record = some r) :
    Recent node datagrams (plus first count) (tail ++ own) (recent ++ [(first, cdr)]) where
  samples := by
    have := h.samples
    rw [beginnings_append, List.length_append, List.length_singleton]
    omega
  head := by
    intro x mem
    rw [List.length_append, List.length_singleton]
    rw [Nat.add_mul] at small ⊢
    cases tail with
    | nil =>
      rw [List.nil_append, own_, List.head?_cons, Option.mem_def, Option.some.injEq] at mem
      rw [← mem, name, steps_plus _ (by omega)]
      exact ⟨starts_, by omega⟩
    | cons y rest =>
      rw [List.cons_append, List.head?_cons, Option.mem_def, Option.some.injEq] at mem
      obtain ⟨begins, near⟩ := h.head y rfl
      rw [← mem, steps_plus_of (by omega)]
      exact ⟨begins, by omega⟩
  records := by
    intro sample mem r rmem
    rcases List.mem_append.mp mem with old | new
    · obtain ⟨x, xmem, there⟩ := h.records sample old r rmem
      exact ⟨x, List.mem_append_left _ xmem, there⟩
    · rw [List.mem_singleton] at new
      subst new
      obtain ⟨x, xmem, there⟩ := records r rmem
      exact ⟨x, List.mem_append_right _ xmem, there⟩

/-- A ring used to its capacity. -/
theorem ringDepth_whole (whole : c.depth = c.capacity) (slots : 0 < c.capacity) (bytes : 0 < c.arenaSize) :
    c.ringDepth = c.capacity := by
  unfold ringDepth
  rw [if_neg (by omega)]
  split
  · exact whole
  · rfl

theorem Tallied.rows_eq {rows' : List Held} (h : c.Tallied rows) (h' : c.Tallied rows') : rows = rows' := by
  cases h with
  | blank blank _ none_ =>
    cases h' with
    | blank _ _ none' => rw [none_, none']
    | window window _ =>
      have := window.ranged.depth_pos
      rw [blank.unused] at this
      omega
  | window window _ =>
    cases h' with
    | blank blank _ _ =>
      have := window.ranged.depth_pos
      rw [blank.unused] at this
      omega
    | window window' _ => rw [← window.held, window'.held]

/-- A seq_no at or after the sample's first names none of what was held before it. -/
theorem Window.own_of_seqNo {d j : Nat} (h : c.Window d (kept ++ own)) {o : Held} {post : List Held} (own_ : own = o :: post)
    (name : o.seqNo = first) {x : Held} (mem : x ∈ kept ++ own) (at_ : x.seqNo = plus first j) (near : j < 65536) :
    x ∈ own := by
  rcases List.mem_append.mp mem with old | new
  · exfalso
    have sorted := (List.pairwise_append.mp h.sorted).2.2 x old o (by rw [own_]; simp)
    have reach := h.steps_newest (a := o) (by rw [own_]; simp)
    have small := h.ranged.depth_lt
    rw [name] at sorted reach
    rw [at_, steps_plus_of (by omega)] at sorted
    omega
  · exact new

/-- A fragmented sample of at most half the arena's bytes comes round to none of its own. -/
theorem storeSound_of_half {span : Nat} {limit : Nat} (arena : c.admitSample.arenaSize = c.arenaSize)
    (half : sampleDatagramCount node cdr limit = 1 ∨ 2 * (sampleFootprints node cdr limit).sum ≤ c.arenaSize)
    (one : sampleDatagramCount node cdr limit = span) : StoreSound node c first cdr limit span := by
  unfold StoreSound
  split
  · next many =>
    intro _ _ _ _
    rcases half with single | half
    · omega
    · rw [arena]
      by_cases flat : (sampleFootprints node cdr limit).sum ≤ c.arenaSize - c.admitSample.tail
      · rw [spill_eq_zero flat]
        exact Nat.zero_le _
      · have := spill_le_sum (c.arenaSize - c.admitSample.tail) (sampleFootprints node cdr limit)
        omega
  · next single =>
    have := sampleDatagramCount_pos node cdr limit
    left
    omega

/-- Every record of a sample that was stored whole is held behind what was there. -/
theorem Steady.own_records {now : Nat} (h : Steady node c first)
    (sound : StoreSound node c first cdr node.fragWholeLimit (sampleDatagramCount node cdr node.fragWholeLimit))
    (few : sampleDatagramCount node cdr node.fragWholeLimit ≤ 64) (used : c.ringDepth ≠ 0)
    (window : (c.store node first cdr node.fragWholeLimit now).Window c.ringDepth (kept ++ own)) {o : Held}
    {post : List Held} (own_ : own = o :: post) (name : o.seqNo = first) :
    ∀ r ∈ sampleRecords node first cdr node.fragWholeLimit, ∃ x ∈ own, x.seqNo = r.seqNo ∧ x.record = some r := by
  obtain ⟨steady, -, ring, -, either⟩ := h.store now (sampleDatagramCount_pos node cdr node.fragWholeLimit) (by omega)
    (fun _ => rfl) sound
  cases steady with
  | unused none_ _ => exact absurd (ring ▸ none_) used
  | ready old left ready whole =>
    rw [ring] at ready
    have held : (old ++ left).flatten = kept ++ own := by rw [← ready.stored.grouped.held, window.held]
    have found : ∀ x r, (c.store node first cdr node.fragWholeLimit now).retained c.ringDepth x = some r →
        ∃ y ∈ kept ++ own, y.seqNo = x ∧ y.record = some r := by
      intro x r there
      rw [← held]
      exact ready.stored.retained_eq.mp there
    rcases either with all | none_
    · intro r mem
      obtain ⟨i, lt, at_⟩ := List.getElem_of_mem mem
      have place : r.seqNo = plus first i := by
        have there : (sampleRecords node first cdr node.fragWholeLimit)[i]? = some r := by
          rw [List.getElem?_eq_getElem lt, at_]
        exact Publisher.sampleRecords_seqNo there
      have short : (sampleRecords node first cdr node.fragWholeLimit).length ≤ 64 := by
        unfold sampleRecords
        dsimp only
        split
        · rw [List.length_map, List.length_range]
          exact few
        · simp
      obtain ⟨y, ymem, yname, record⟩ := found _ _ (all r mem)
      exact ⟨y, window.own_of_seqNo own_ name ymem (yname.trans place) (by omega), yname, record⟩
    · exfalso
      obtain ⟨r, record, _⟩ := ready.stored.records o (by rw [held, own_]; simp)
      have there := ready.stored.retained_eq.mpr ⟨o, by rw [held, own_]; simp, name, record⟩
      have gone := none_ 0 (by omega)
      rw [plus_zero, there] at gone
      cases gone

end ReliableCache

namespace Publisher

variable {node : Context} {pub pub' : Publisher} {rows : List Held} {cdr : List UInt8} {limit : Nat} {route : Route}

/-- Without a hook to grow it, the arena stays as it is. -/
theorem makeDepthRoom_same (keepLast : pub.keepAll = false) (fixed : route.growths = []) (datagrams : Nat) :
    ReliableCache.Same pub.reliableCache (pub.makeDepthRoom node cdr limit route datagrams) ∧
      (pub.makeDepthRoom node cdr limit route datagrams).retainedSamples = pub.reliableCache.retainedSamples ∧
      (pub.reliableCache.depthAssuredDatagrams = 0 →
        (pub.makeDepthRoom node cdr limit route datagrams).depthAssuredDatagrams = 0) := by
  have same : ReliableCache.Same pub.reliableCache pub.reliableCache := ⟨.refl _, rfl, rfl, rfl, rfl, rfl⟩
  unfold makeDepthRoom
  simp only [keepLast, Bool.false_eq_true, if_false, fixed, ReliableCache.growUntil]
  split
  · exact ⟨same, rfl, id⟩
  split
  · exact ⟨same, rfl, id⟩
  split
  · exact ⟨⟨⟨rfl, rfl, rfl, rfl, rfl, rfl, rfl⟩, rfl, rfl, rfl, rfl, rfl⟩, rfl, fun _ => rfl⟩
  · exact ⟨⟨⟨rfl, rfl, rfl, rfl, rfl, rfl, rfl⟩, rfl, rfl, rfl, rfl, rfl⟩, rfl, fun _ => rfl⟩

/-- A Publisher that keeps its newest `k` samples, each of at most `datagrams` records and `record` arena bytes: `published`
are those it has stored, oldest first. -/
structure KeepsNewest (node : Context) (k datagrams record : Nat) (pub : Publisher) (rows : List Held)
    (published : List (SeqNo × List UInt8)) : Prop where
  counted : Counted node pub rows
  steady : ReliableCache.Steady node pub.reliableCache (pub.seqNo + 1)
  newest : rows ≠ [] → pub.reliableCache.newestSeqNo = pub.seqNo
  keepLast : pub.keepAll = false
  some_ : 0 < k
  depth : k ≤ pub.reliableCache.sampleDepth
  slots : k * datagrams ≤ pub.reliableCache.ringDepth
  arena : record ≤ pub.reliableCache.arenaSize
  bytes : 2 ≤ k → (k + 1) * record ≤ pub.reliableCache.arenaSize
  compact : 2 ≤ k → pub.reliableCache.Compact rows record
  recent : ∀ old recent, published = old ++ recent → recent.length ≤ k →
    ∃ pre tail, rows = pre ++ tail ∧ ReliableCache.Recent node datagrams (pub.seqNo + 1) tail recent

namespace KeepsNewest

variable {k datagrams record : Nat} {published : List (SeqNo × List UInt8)}

theorem quiet (h : KeepsNewest node k datagrams record pub rows published) (q : Quiet node pub pub') :
    KeepsNewest node k datagrams record pub' rows published := by
  have ht := q.touched
  have newest : pub'.reliableCache.newestSeqNo = pub.reliableCache.newestSeqNo := by rw [ht.same]
  have depth : pub'.reliableCache.sampleDepth = pub.reliableCache.sampleDepth := by rw [ht.same]
  have ring : pub'.reliableCache.ringDepth = pub.reliableCache.ringDepth := by rw [ht.same]; rfl
  have arena : pub'.reliableCache.arenaSize = pub.reliableCache.arenaSize := by rw [ht.same]
  have tail : pub'.reliableCache.tail = pub.reliableCache.tail := by rw [ht.same]
  refine ⟨h.counted.quiet q, ?_, ?_, q.keepAll.trans h.keepLast, h.some_, ?_, ?_, ?_, ?_, ?_, ?_⟩
  · rw [q.seqNo]
    exact h.steady.touched ht
  · rw [newest, q.seqNo]
    exact h.newest
  · rw [depth]
    exact h.depth
  · rw [ring]
    exact h.slots
  · rw [arena]
    exact h.arena
  · rw [arena]
    exact h.bytes
  · intro two
    have compact := h.compact two
    exact ⟨by rw [arena, tail]; exact compact.chained, compact.small, compact.weighed⟩
  · rw [q.seqNo]
    exact h.recent

theorem window (h : KeepsNewest node k datagrams record pub rows published) (pos : 0 < datagrams) :
    pub.reliableCache.Window pub.reliableCache.ringDepth rows := by
  cases h.counted.tallied with
  | blank blank _ _ =>
    have := Nat.mul_pos h.some_ pos
    have := h.slots
    rw [blank.unused] at this
    omega
  | window window _ => exact window

/-- A sample of no more than its share stored, and its seq_nos spent. -/
theorem stores (h : KeepsNewest node k datagrams record pub rows published)
    (st : Stores node pub pub' cdr node.fragWholeLimit route) (fixed : route.growths = [])
    (few : sampleDatagramCount node cdr node.fragWholeLimit ≤ datagrams)
    (fit : (sampleFootprints node cdr node.fragWholeLimit).sum ≤ record)
    (half : sampleDatagramCount node cdr node.fragWholeLimit = 1 ∨
      2 * (sampleFootprints node cdr node.fragWholeLimit).sum ≤ pub.reliableCache.arenaSize)
    (spent : pub'.seqNo = plus pub.seqNo (sampleDatagramCount node cdr node.fragWholeLimit)) :
    ∃ rows', KeepsNewest node k datagrams record pub' rows' (published ++ [(pub.seqNo + 1, cdr)]) := by
  have some_ := sampleDatagramCount_pos node cdr node.fragWholeLimit
  have upTo : sampleDatagramCount node cdr node.fragWholeLimit ≤ 64 := sampleDatagramCount_le st.short
  have share : datagrams ≤ k * datagrams := Nat.le_mul_of_pos_left _ h.some_
  have slots := h.slots
  have old := h.window (by omega)
  have lt := old.ranged.depth_lt
  have clear := old.clear_next h.newest
  obtain ⟨same, samples, flag⟩ := @makeDepthRoom_same node pub cdr node.fragWholeLimit route h.keepLast fixed
    (sampleDatagramCount node cdr node.fragWholeLimit)
  have cache := st.cache
  rw [checkAndCacheSample_eq] at cache
  have steady₁ := @makeDepthRoom_steady node pub cdr node.fragWholeLimit
    (sampleDatagramCount node cdr node.fragWholeLimit) route h.steady
  generalize hroom : pub.makeDepthRoom node cdr node.fragWholeLimit route
    (sampleDatagramCount node cdr node.fragWholeLimit) = room at same samples flag cache steady₁
  have ring : room.ringDepth = pub.reliableCache.ringDepth := same.store.ringDepth
  have roomed := ReliableCache.Roomed.same h.counted.tallied same samples
  obtain ⟨kept, own, e⟩ := @ReliableCache.Tallied.store room rows node cdr node.fragWholeLimit route.now (pub.seqNo + 1)
    roomed.tallied (roomed.clear h.counted.tallied flag clear)
  rw [← cache] at e
  have arena : room.arenaSize = pub.reliableCache.arenaSize := same.store.arenaSize
  have keep : room.keeps node cdr node.fragWholeLimit = true := by
    have := h.arena
    rw [ReliableCache.keeps, decide_eq_true_eq, ring, arena]
    omega
  have ample : 2 * (sampleFootprints node cdr node.fragWholeLimit).sum ≤ room.arenaSize ∨
      (sampleFootprints node cdr node.fragWholeLimit).length = 1 := by
    rcases half with single | half
    · right
      unfold sampleFootprints
      dsimp only
      rw [if_neg (by omega)]
      rfl
    · left
      rw [arena]
      exact half
  obtain ⟨o, post, own_, starts_, name, lens⟩ := e.whole keep ample
  have sound : ReliableCache.StoreSound node room (pub.seqNo + 1) cdr node.fragWholeLimit
      (sampleDatagramCount node cdr node.fragWholeLimit) := by
    apply ReliableCache.storeSound_of_half _ (by rw [arena]; exact half) rfl
    cases steady₁ with
    | unused none_ _ =>
      rw [ring] at none_
      omega
    | ready old left ready _ =>
      obtain ⟨_, _, _, _, evicted, _⟩ := ReliableCache.admitSample_spec ready rfl
      exact evicted.store.arenaSize
  have window' : pub'.reliableCache.Window room.ringDepth (kept ++ own) := by
    cases e.tallied with
    | blank blank _ _ =>
      have := blank.unused
      rw [e.ringDepth, ring] at this
      omega
    | window window _ =>
      rw [← e.ringDepth]
      exact window
  have filled : (ReliableCache.store node room (pub.seqNo + 1) cdr node.fragWholeLimit route.now).Window room.ringDepth
      (kept ++ own) := by
    rw [← cache]
    exact window'
  have records := steady₁.own_records sound upTo (by rw [ring]; omega) filled own_ name
  have next : pub'.seqNo + 1 = plus (pub.seqNo + 1) (sampleDatagramCount node cdr node.fragWholeLimit) := by
    rw [spent, ← plus_succ_right, plus_succ]
  obtain ⟨kept₂, own₂, entry⟩ := h.counted.entry clear st
  have counted := h.counted.stores clear st entry
  have all : kept₂ ++ own₂ = kept ++ own := counted.tallied.rows_eq e.tallied
  rw [all] at counted
  refine ⟨kept ++ own, counted, ?_, ?_, st.keepAll.trans h.keepLast, h.some_, ?_, ?_, ?_, ?_, ?_, ?_⟩
  · have := (checkAndCacheSample_steady h.steady st.short st.limit_le (show CacheSound _ _ _ _ route by
      unfold CacheSound
      rw [hroom]
      exact sound)).1
    rw [st.cache, spent]
    exact this
  · intro _
    rw [e.newest (by rw [ring]; omega), spent]
    obtain ⟨n, count⟩ : ∃ n, sampleDatagramCount node cdr node.fragWholeLimit = n + 1 :=
      ⟨sampleDatagramCount node cdr node.fragWholeLimit - 1, by omega⟩
    rw [count, plus_succ]
    rfl
  · rw [e.sampleDepth, same.store.sampleDepth]
    exact h.depth
  · rw [e.ringDepth, ring]
    exact h.slots
  · rw [e.arenaSize, arena]
    exact h.arena
  · rw [e.arenaSize, arena]
    exact h.bytes
  · intro two
    have compact := h.compact two
    have roomy := h.bytes two
    have twice : 2 * record ≤ (k + 1) * record := Nat.mul_le_mul_right _ (by omega)
    exact e.compact ⟨by rw [arena, same.tail]; exact compact.chained, compact.small, compact.weighed⟩ keep fit
      (by rw [arena]; omega)
  · intro before recent split few_
    rcases List.eq_nil_or_concat recent with rfl | ⟨others, last, rfl⟩
    · exact ⟨kept ++ own, [], by simp, .nil _⟩
    rw [List.concat_eq_append] at split few_ ⊢
    rw [← List.append_assoc] at split
    obtain ⟨split, newest⟩ := List.append_inj' split rfl
    rw [List.cons.injEq] at newest
    rw [← newest.1, next]
    rw [List.length_append, List.length_singleton] at few_
    obtain ⟨pre, tail, parts, held⟩ := h.recent before others split (by omega)
    have small : (others.length + 1) * datagrams ≤ 65535 := by
      have : (others.length + 1) * datagrams ≤ k * datagrams := Nat.mul_le_mul_right _ few_
      omega
    have behind := held.snoc e.single own_ starts_ name few small records
    cases tail with
    | nil => exact ⟨kept, own, rfl, behind⟩
    | cons x rest =>
      obtain ⟨begins, near⟩ := held.head x rfl
      have fewer := held.samples
      obtain ⟨pre', left_⟩ := e.spared pre x rest parts begins (.inr (by
        rw [same.store.sampleDepth]
        have := h.depth
        omega)) (by
        rw [ring]
        rw [Nat.add_mul] at small
        have : (others.length + 1) * datagrams ≤ k * datagrams := Nat.mul_le_mul_right _ few_
        rw [Nat.add_mul] at this
        omega) (by
        intro _
        have two : 2 ≤ k := by
          have : 0 < ReliableCache.beginnings (x :: rest) :=
            ReliableCache.beginnings_pos (by simp) (by simpa using begins)
          omega
        rw [arena, same.tail]
        exact (h.compact two).room old (h.bytes two) fit parts begins (by omega))
      exact ⟨pre', x :: rest ++ own, by rw [left_, List.append_assoc], behind⟩

end KeepsNewest

/-! ## Runs -/

/-- The samples a run stores, oldest first, each under its first seq_no. -/
def published (node : Context) : Publisher → List Event → List (SeqNo × List UInt8)
  | _, [] => []
  | pub, event :: rest => (pub.stored node event).toList.map (fun sample => (pub.seqNo + 1, sample.1)) ++
      published node (pub.step node event) rest

/-- A step whose sample is within the type's bound and goes at the default datagram limit into the cache as laid out. -/
def Event.WithinBound (node : Context) (maxCdr : Nat) (pub : Publisher) (event : Event) : Prop :=
  event.fails = false ∧ ∀ sample ∈ pub.stored node event,
    sample.1.length ≤ maxCdr ∧ sample.2.1 = node.fragWholeLimit ∧ sample.2.2.growths = []

instance (node : Context) (maxCdr : Nat) (pub : Publisher) (event : Event) : Decidable (event.WithinBound node maxCdr pub) :=
  inferInstanceAs (Decidable (_ ∧ ∀ sample ∈ pub.stored node event, _))

/-- And one that fits a single datagram, or half of the arena. -/
def Event.Halved (node : Context) (maxCdr : Nat) (pub : Publisher) (event : Event) : Prop :=
  event.WithinBound node maxCdr pub ∧ ∀ sample ∈ pub.stored node event,
    sampleDatagramCount node sample.1 node.fragWholeLimit = 1 ∨
      2 * (sampleFootprints node sample.1 node.fragWholeLimit).sum ≤ pub.reliableCache.arenaSize

instance (node : Context) (maxCdr : Nat) (pub : Publisher) (event : Event) : Decidable (event.Halved node maxCdr pub) :=
  inferInstanceAs (Decidable (_ ∧ ∀ sample ∈ pub.stored node event, _))

/-- The newest `k` samples of a run are found in the cache, every record under its seq_no. -/
def NewestRetained (node : Context) (k : Nat) (pub : Publisher) (events : List Event) : Prop :=
  ∀ sample ∈ (published node pub events).drop ((published node pub events).length - k),
    ∀ r ∈ sampleRecords node sample.1 sample.2 node.fragWholeLimit,
      (Run.after (step node) pub events).reliableCache.lookup r.seqNo = some r

namespace KeepsNewest

variable {build : Build} {k maxCdr : Nat} {stored_ : List (SeqNo × List UInt8)}

theorem step (limit : DefaultLimit build node)
    (h : KeepsNewest node k (build.sampleDatagrams maxCdr) (build.sampleCacheBytes maxCdr) pub rows stored_) {event : Event}
    (halved : event.Halved node maxCdr pub) :
    ∃ rows', KeepsNewest node k (build.sampleDatagrams maxCdr) (build.sampleCacheBytes maxCdr) (pub.step node event) rows'
      (stored_ ++ (pub.stored node event).toList.map (fun sample => (pub.seqNo + 1, sample.1))) := by
  obtain ⟨⟨sends, within⟩, half⟩ := halved
  rcases step_cases h.counted.claims event with ⟨none_, quiet⟩ | ⟨cdr, limit', route, some_, stores⟩
  · rw [none_]
    simp only [Option.toList_none, List.map_nil, List.append_nil]
    exact ⟨rows, h.quiet quiet⟩
  · obtain ⟨short, whole, fixed⟩ := within _ some_
    dsimp only at short whole fixed
    subst whole
    have numbers := step_seqNo h.counted.claims sends some_
    rw [some_]
    exact h.stores stores fixed (sampleDatagramCount_le_bound limit short) (sampleFootprints_le_bound limit short)
      (half _ some_) numbers

theorem run (limit : DefaultLimit build node)
    (h : KeepsNewest node k (build.sampleDatagrams maxCdr) (build.sampleCacheBytes maxCdr) pub rows stored_)
    (events : List Event)
    (halved : Run.Sound (Publisher.step node) (fun pub event => event.Halved node maxCdr pub) pub events) :
    ∃ rows', KeepsNewest node k (build.sampleDatagrams maxCdr) (build.sampleCacheBytes maxCdr)
      (Run.after (Publisher.step node) pub events) rows' (stored_ ++ Publisher.published node pub events) := by
  induction events generalizing pub rows stored_ with
  | nil =>
    simp only [Publisher.published, List.append_nil]
    exact ⟨rows, h⟩
  | cons event rest ih =>
    obtain ⟨rows₁, once⟩ := h.step limit halved.1
    obtain ⟨rows₂, more⟩ := ih once halved.2
    rw [List.append_assoc] at more
    exact ⟨rows₂, more⟩

theorem newestRetained (h : KeepsNewest node k (build.sampleDatagrams maxCdr) (build.sampleCacheBytes maxCdr)
      (Run.after (Publisher.step node) pub events) rows (Publisher.published node pub events)) :
    NewestRetained node k pub events := by
  intro sample mem r rmem
  obtain ⟨pre, tail, parts, recent⟩ := h.recent _ _ (List.take_append_drop
    ((Publisher.published node pub events).length - k) _).symm (by rw [List.length_drop]; omega)
  obtain ⟨x, xmem, name, record⟩ := recent.records sample mem r rmem
  rw [← name, (h.window (sampleDatagrams_pos build maxCdr)).lookup_of_mem (by rw [parts]; exact List.mem_append_right _ xmem),
    record]

end KeepsNewest

theorem create_keepsNewest {build : Build} (node : Context) {type : TypeSupport} {actual : QosProfile}
    (lifespanDuration peers claimsLimit : Nat) (keepLast : actual.keepAll = false)
    (promises : Promises build type (publisherLayoutOf build type actual) actual.depth)
    (some_ : 0 < (publisherLayoutOf build type actual).depthKept)
    (few : (publisherLayoutOf build type actual).depthKept * build.sampleDatagrams (build.qosTypeMaxCdr type) ≤ 65535) :
    KeepsNewest node (publisherLayoutOf build type actual).depthKept (build.sampleDatagrams (build.qosTypeMaxCdr type))
      (build.sampleCacheBytes (build.qosTypeMaxCdr type))
      (create (publisherOptions build type actual lifespanDuration peers claimsLimit)) [] [] := by
  have slots := promises.slots few
  have datagrams := sampleDatagrams_pos build (build.qosTypeMaxCdr type)
  have record := sampleCacheBytes_pos build (build.qosTypeMaxCdr type)
  have arena := promises.arena
  have bytes := promises.bytes
  have depth_lt := actual.depth_le
  rw [promises.record] at arena bytes
  have ring_pos : 0 < (publisherLayoutOf build type actual).ring :=
    Nat.lt_of_lt_of_le (Nat.mul_pos some_ datagrams) slots
  have ring : (create (publisherOptions build type actual lifespanDuration peers claimsLimit)).reliableCache.ringDepth =
      (publisherLayoutOf build type actual).ring := ReliableCache.ringDepth_whole rfl ring_pos (record.trans_le arena)
  refine ⟨create_counted (.profile ..), (create_kept _).steady, by simp, ?_, some_, ?_, ?_, arena, bytes, ?_, ?_⟩
  · simp [create, publisherOptions, keepLast]
  · simp only [create, publisherOptions, keepLast, Bool.false_eq_true, if_false]
    rw [Nat.mod_eq_of_lt (by omega)]
    exact promises.depth
  · rw [ring]
    exact slots
  · intro _
    exact ⟨trivial, by simp, by simp⟩
  · intro old recent split _
    obtain ⟨-, rfl⟩ := List.append_eq_nil_iff.mp split.symm
    exact ⟨[], [], rfl, .nil _⟩

theorem scant_depth : 2 ≤ 65535 := by decide

/-- RELIABLE, KEEP_LAST 2, with `bytes` for its history. -/
def scantProfile (bytes : Nat) : QosProfile := ⟨true, false, false, 2, bytes, scant_depth⟩

theorem scant_limit : DefaultLimit ⟨548, 4000⟩ smallLink := ⟨rfl, rfl⟩

/-- A small sample, and two of the largest size of a type of at most 600 bytes, two datagrams each. -/
def smallThenLargest : List Event :=
  [.publish (List.replicate 4 0) plainRoute, .publish (List.replicate 600 0) plainRoute,
    .publish (List.replicate 600 0) plainRoute]

/-- 65535 samples of two datagrams reported, and a ring of 65535 slots. -/
example : let layout := publisherLayoutOf ⟨548, 4000⟩ ⟨600, false⟩ ⟨true, false, false, 65535, 2 ^ 31, by decide⟩
    layout.depthKept = 65535 ∧ layout.ring = 65535 := by
  decide +kernel

end Publisher

end Tickle
