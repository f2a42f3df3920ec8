import Tickle.Writer.SampleCount

/-! # The depth kept, or said not to be

`make_depth_room()` asks where one block of the sample's whole footprint would go and takes the answer for what
storing its records one by one will do. For bytes that is right: what fits in one piece fits in many
(`Room.of_fits`). The ring of the index is not asked, and evicts a sample inside the depth without a word when
the datagrams since it outnumber its slots.
-/

namespace Tickle

open Serial Loop RingArena

/-! ## The bytes of a sample the assurance covers -/

section Covered

variable {node : Context} {cdr : List UInt8} {limit : Nat}

theorem fragPayloadOffset_succ (i : Nat) : node.fragPayloadOffset (i + 1) =
    node.fragPayloadOffset i + if i = 0 then node.fragFirstPayload else node.fragContPayload := by
  unfold Context.fragPayloadOffset
  cases i with
  | zero => simp
  | succ i => simp [Nat.add_mul, Nat.add_assoc]

/-- The fragments up to one carry the CDR up to its offset. -/
theorem fragPayloadLength_sum (cdrLen n : Nat) :
    ((List.range n).map fun i => node.fragPayloadLength i cdrLen).sum = min cdrLen (node.fragPayloadOffset n) := by
  induction n with
  | zero => simp [Context.fragPayloadOffset]
  | succ n ih =>
    rw [List.range_succ, List.map_append, List.sum_append, ih, fragPayloadOffset_succ]
    simp only [List.map_cons, List.map_nil, List.sum_cons, List.sum_nil, Context.fragPayloadLength]
    split
    · split
      · omega
      · omega
    · split
      · omega
      · omega

theorem fragFootprints_sum_le (count : Nat) (pos : 0 < count) :
    (ReliableCache.fragFootprints node cdr count).sum ≤ sampleCdrLength cdr + fragmentOverhead count := by
  have upTo : ∀ n, ((List.range n).map (fragFootprint node cdr)).sum ≤
      ((List.range n).map fun i => node.fragPayloadLength i (sampleCdrLength cdr)).sum +
        ((List.range n).map fragHeaderLength).sum + 3 * n := by
    intro n
    induction n with
    | zero => simp
    | succ n ih =>
      have := roundup_le (fragHeaderLength n + node.fragPayloadLength n (sampleCdrLength cdr))
      simp only [List.range_succ, List.map_append, List.map_cons, List.map_nil, List.sum_append, List.sum_cons,
        List.sum_nil, fragFootprint]
      omega
  have headers : ∀ n, ((List.range (n + 1)).map fragHeaderLength).sum = fragHeaderLength 0 + n * fragHeaderLength 1 := by
    intro n
    induction n with
    | zero => simp
    | succ n ih =>
      have cont : fragHeaderLength (n + 1) = fragHeaderLength 1 := by simp [fragHeaderLength]
      rw [List.range_succ, List.map_append, List.sum_append, ih, List.map_singleton, List.sum_singleton, cont, Nat.add_mul]
      omega
  have all := upTo count
  rw [fragPayloadLength_sum] at all
  obtain ⟨n, rfl⟩ : ∃ n, count = n + 1 := ⟨count - 1, by omega⟩
  rw [headers] at all
  unfold ReliableCache.fragFootprints fragmentOverhead
  simp only [Nat.add_sub_cancel]
  omega

theorem roundup_le_of_le {n m : Nat} (le : n ≤ m / 4 * 4) : roundup n ≤ m / 4 * 4 := by
  unfold roundup
  omega

/-- Within `depth_assured_len`, the records take no more than their share of the arena. -/
theorem sampleFootprints_le {room : Nat}
    (len : dataFraming + cdr.length ≤ assuredLongest (sampleDatagramCount node cdr limit) room) :
    (sampleFootprints node cdr limit).sum ≤ room := by
  unfold assuredLongest at len
  simp only at len
  have padded := roundup_le_of_le len
  unfold sampleFootprints
  simp only
  by_cases many : sampleDatagramCount node cdr limit > 1
  · rw [if_pos many] at padded ⊢
    have sum := @fragFootprints_sum_le node cdr (sampleDatagramCount node cdr limit) (by omega)
    have some_ : 20 ≤ roundup (dataFraming + cdr.length) := by
      have := le_roundup (dataFraming + cdr.length)
      unfold dataFraming at *
      omega
    have cdrLen : sampleCdrLength cdr = roundup (dataFraming + cdr.length) - dataFraming := rfl
    split at padded
    · unfold dataFraming at *
      omega
    · omega
  · rw [if_neg many] at padded ⊢
    rw [List.sum_singleton, recordLengthChecked, roundup_roundup]
    omega

theorem sampleFootprints_pos (node : Context) (cdr : List UInt8) (limit : Nat) :
    0 < (sampleFootprints node cdr limit).sum := by
  have foot : ∀ n, 0 < n → 0 < roundup n := fun n pos => Nat.lt_of_lt_of_le pos (le_roundup n)
  unfold sampleFootprints
  simp only
  split
  · next many =>
    have := @ReliableCache.fragFootprints_drop node cdr (sampleDatagramCount node cdr limit) 0 (by omega)
    rw [List.drop_zero] at this
    rw [this, List.sum_cons]
    have := foot _ (Nat.add_pos_left (ReliableCache.fragHeaderLength_pos 0)
      (node.fragPayloadLength 0 (sampleCdrLength cdr)))
    unfold fragFootprint
    omega
  · rw [List.sum_singleton]
    apply foot
    rw [recordLengthChecked_eq, dataFraming]
    omega

end Covered

namespace ReliableCache

variable {c c' : ReliableCache} {d : Nat} {rows : List Held}

/-! ## What `reliable_cache_keeps_depth()` predicts -/

/-- The first record that starts a sample, behind others that do not. -/
structure FirstStart (c : ReliableCache) (d : Nat) (rows : List Held) (x : SeqNo) (pre : List Held) (h : Held)
    (post : List Held) : Prop where
  split : rows = pre ++ h :: post
  before : ∀ a ∈ pre, a.continues = true
  starts_ : h.continues = false
  name : h.seqNo = x
  offset : h.offset = (c.slot d x).offset

theorem keepsDepthSkip_spec {fuel n : Nat} {x : SeqNo} (left : steps x c.newestSeqNo = n) (enough : n < fuel) :
    (c.keepsDepthSkip d fuel x = none ∧ ∀ a ∈ c.heldFrom d n (x + 1), a.continues = true) ∨
      ∃ y pre h post, c.keepsDepthSkip d fuel x = some y ∧ FirstStart c d (c.heldFrom d n (x + 1)) y pre h post := by
  induction fuel generalizing n x with
  | zero => omega
  | succ fuel ih =>
    unfold keepsDepthSkip
    by_cases last : x = c.newestSeqNo
    · subst last
      rw [steps_self] at left
      subst left
      rw [if_pos rfl]
      exact .inl ⟨rfl, by simp [heldFrom]⟩
    rw [if_neg last]
    have next := steps_succ_left last
    obtain ⟨m, rfl⟩ : ∃ m, n = m + 1 := ⟨n - 1, by omega⟩
    rw [heldFrom]
    cases live : c.slotLive d (x + 1) with
    | false =>
      rw [heldAt_eq_none.mpr live, Option.toList_none, List.nil_append]
      simp only [Bool.false_and, Bool.false_eq_true, if_false]
      exact ih (by omega) (by omega)
    | true =>
      rw [heldAt_of_live live, Option.toList_some, List.cons_append, List.nil_append]
      cases starts_ : c.recordStartsSample (c.slot d (x + 1)) with
      | true =>
        rw [if_pos (by simp)]
        simp only [recordStartsSample, Bool.and_eq_true, Bool.not_eq_true'] at starts_
        exact .inr ⟨x + 1, [], _, _, rfl, rfl, by simp, starts_.2, rfl, rfl⟩
      | false =>
        rw [if_neg (by simp)]
        have continuing : c.entryContinues (c.slot d (x + 1)) = true := by
          rw [slotLive_iff] at live
          simp only [recordStartsSample, Bool.and_eq_false_iff, decide_eq_false_iff_not, not_not,
            Bool.not_eq_false'] at starts_
          exact starts_.resolve_left live.1
        rcases ih (x := x + 1) (n := m) (by omega) (by omega) with ⟨none_, all⟩ | ⟨y, pre, h, post, some_, f⟩
        · refine .inl ⟨none_, ?_⟩
          intro a mem
          rcases List.mem_cons.mp mem with rfl | rest
          · exact continuing
          · exact all a rest
        · refine .inr ⟨y, _ :: pre, h, post, some_, by rw [f.split]; rfl, ?_, f.starts_, f.name, f.offset⟩
          intro a mem
          rcases List.mem_cons.mp mem with rfl | rest
          · exact continuing
          · exact f.before a rest

/-- A sample with fewer than the count of the whole beginning at or after it stands behind the first start past the
head. -/
theorem FirstStart.behind {x : SeqNo} {head : Held} {tail pre pre' post rest : List Held} {h h' : Held}
    (f : FirstStart c d tail x pre h post) (split : head :: tail = pre' ++ h' :: rest) (starts_ : h'.continues = false)
    (fewer : beginnings (h' :: rest) < beginnings (head :: tail)) : ∃ pre'', h :: post = pre'' ++ h' :: rest := by
  rw [f.split, ← List.cons_append] at split
  rcases List.append_eq_append_iff.mp split with ⟨cut, _, after⟩ | ⟨cut, before, after⟩
  · exact ⟨cut, after⟩
  · cases cut with
    | nil => exact ⟨[], after.symm⟩
    | cons a cut =>
      rw [List.cons_append] at after
      obtain ⟨rfl, rfl⟩ := List.cons.inj after
      cases pre' with
      | nil =>
        rw [List.nil_append] at before
        obtain ⟨rfl, rfl⟩ := List.cons.inj before
        rw [f.split] at fewer
        omega
      | cons b pre' =>
        rw [List.cons_append] at before
        obtain ⟨_, rfl⟩ := List.cons.inj before
        have := f.before h' (by simp)
        rw [starts_] at this
        cases this

/-- The answer yes leaves one piece of `footprint` bytes beside every sample inside the depth. -/
theorem Window.keepsDepth (h : c.Window c.ringDepth rows) (exact_ : c.retainedSamples = c.starts c.ringDepth)
    {footprint : Nat} (pos : 0 < footprint) (yes : c.keepsDepth footprint = true) {pre rest : List Held} {first : Held}
    (split : rows = pre ++ first :: rest) (starts_ : first.continues = false)
    (inside : beginnings (first :: rest) < c.sampleDepth) :
    footprint ≤ c.arenaSize ∧ ∃ offset, Fits c.arenaSize ((first :: rest).map Held.seg) c.tail footprint offset := by
  have ne : rows ≠ [] := by simp [split]
  have hc := h.retains ne
  have some_ : 0 < beginnings (first :: rest) := beginnings_pos (by simp) (by simpa using starts_)
  -- a place beside more records is a place beside fewer
  have fewer : ∀ pre' h' post offset, rows = pre' ++ h' :: post → (∃ pre'', h' :: post = pre'' ++ first :: rest) →
      offsetIn c.arenaSize false h'.offset c.tail footprint = some offset →
      ∃ offset, Fits c.arenaSize ((first :: rest).map Held.seg) c.tail footprint offset := by
    rintro pre' h' post offset split' ⟨pre'', behind⟩ place
    have laid := h.laid ne
    rw [split', List.map_append] at laid
    have laid' := laid.drop (n := pre'.length) (by simp)
    rw [List.drop_left' (by simp)] at laid'
    have fits := (@offsetIn_eq_some c.arenaSize c.tail footprint offset ((h' :: post).map Held.seg) pos).mp place
    rw [behind, List.map_append, List.map_cons] at laid' fits
    exact fits.drop laid'
  unfold ReliableCache.keepsDepth at yes
  rw [if_neg (by omega)] at yes
  split at yes
  · cases yes
  next fit =>
  refine ⟨by omega, ?_⟩
  simp only [hc, Bool.not_true, Bool.false_eq_true, if_false] at yes
  have cons := h.held
  rw [h.settled.held_cons hc] at cons
  by_cases full : c.retainedSamples ≥ c.sampleDepth
  · rw [if_pos full] at yes
    rcases @keepsDepthSkip_spec c c.ringDepth _ _ c.oldestSeqNo rfl (Nat.lt_succ_self _) with
      ⟨_, all⟩ | ⟨y, pre', h', post, found, f⟩
    · -- one sample at most is retained, and it is not inside a depth of one
      have one : beginnings rows ≤ 1 := by
        have none_ : beginnings (c.heldFrom c.ringDepth (steps c.oldestSeqNo c.newestSeqNo) (c.oldestSeqNo + 1)) = 0 := by
          rw [beginnings, List.countP_eq_zero]
          intro a mem
          simp [all a mem]
        rw [← cons, ← List.singleton_append, beginnings_append, none_]
        exact List.countP_le_length
      rw [exact_, h.starts] at full
      omega
    · rw [found] at yes
      simp only at yes
      obtain ⟨offset, place⟩ := Option.isSome_iff_exists.mp yes
      rw [← f.offset] at place
      have behind := f.behind (cons.trans split) starts_ (by
        rw [cons, ← h.starts, ← exact_]
        omega)
      rw [f.split, ← List.cons_append] at cons
      exact fewer _ h' post offset cons.symm behind place
  · rw [if_neg full] at yes
    simp only at yes
    obtain ⟨offset, place⟩ := Option.isSome_iff_exists.mp yes
    exact fewer [] _ _ offset cons.symm ⟨pre, cons.trans split⟩ place

/-- And so leaves room for the sample's records one by one. -/
theorem Window.roomInside {node : Context} {cdr : List UInt8} {limit : Nat} (h : c.Window c.ringDepth rows)
    (exact_ : c.retainedSamples = c.starts c.ringDepth) (yes : c.keepsDepth (sampleCacheFootprint node cdr limit) = true)
    {pre rest : List Held} {first : Held} (split : rows = pre ++ first :: rest) (starts_ : first.continues = false)
    (inside : beginnings (first :: rest) < c.sampleDepth) :
    Room c.arenaSize first.offset c.tail (sampleFootprints node cdr limit) := by
  have pos : 0 < sampleCacheFootprint node cdr limit := by
    rw [← sampleFootprints_sum]
    exact sampleFootprints_pos node cdr limit
  obtain ⟨_, offset, fits⟩ := h.keepsDepth exact_ pos yes split starts_ inside
  have laid := h.laid (by simp [split])
  rw [split, List.map_append] at laid
  have laid' := laid.drop (n := pre.length) (by simp)
  rw [List.drop_left' (by simp)] at laid'
  rw [← sampleFootprints_sum] at fits
  exact Room.of_fits laid' fits

/-! ## A cache the assurance holds of -/

/-- The arena bytes of these records. -/
def feet (rows : List Held) : Nat := (rows.map fun h => roundup h.len).sum

theorem feet_append (a b : List Held) : feet (a ++ b) = feet a + feet b := by
  unfold feet
  rw [List.map_append, List.sum_append]

/-- Records placed at the tail one after the other, and no sample over `room` bytes. -/
structure Compact (c : ReliableCache) (rows : List Held) (room : Nat) : Prop where
  chained : Chained c.arenaSize roundup (rows.map Held.seg) c.tail
  small : ∀ h ∈ rows, roundup h.len ≤ room
  weighed : ∀ pre h rest, rows = pre ++ h :: rest → h.continues = false →
    feet (h :: rest) ≤ beginnings (h :: rest) * room

/-- The samples inside the depth and one more leave a sample's room over: they all fit. -/
theorem Compact.room {room D : Nat} {sizes : List Nat} (compact : Compact c rows room) (h : c.Window d rows)
    (arena : (D + 1) * room ≤ c.arenaSize) (fit : sizes.sum ≤ room) {pre rest : List Held} {first : Held}
    (split : rows = pre ++ first :: rest) (starts_ : first.continues = false) (inside : beginnings (first :: rest) < D) :
    Room c.arenaSize first.offset c.tail sizes := by
  have laid := h.laid (by simp [split])
  have chained := compact.chained
  rw [split, List.map_append] at laid chained
  have laid' := laid.drop (n := pre.length) (by simp)
  rw [List.drop_left' (by simp)] at laid'
  have bytes : (((first :: rest).map Held.seg).map fun s => roundup s.2).sum = feet (first :: rest) := by
    rw [List.map_map]
    rfl
  have weighed := compact.weighed pre first rest split starts_
  have share : beginnings (first :: rest) * room + 2 * room ≤ (D + 1) * room := by
    rw [← Nat.add_mul]
    exact Nat.mul_le_mul_right room (by omega)
  have small : ∀ s ∈ (first :: rest).map Held.seg, roundup s.2 ≤ room := by
    intro s mem
    obtain ⟨x, mem', rfl⟩ := List.mem_map.mp mem
    exact compact.small x (by rw [split]; exact List.mem_append_right _ mem')
  apply Chained.room le_roundup chained.suffix laid' small
  · rw [← List.map_cons, bytes]
    omega
  · rw [← List.map_cons, bytes]
    omega

theorem Enters.compact {room count : Nat} {first : SeqNo} {sizes : List Nat} {keep : Bool} {kept own : List Held}
    (e : Enters c c' rows first count sizes keep kept own) (compact : Compact c rows room) (stored : keep = true)
    (fit : sizes.sum ≤ room) (twice : 2 * room ≤ c.arenaSize) : Compact c' (kept ++ own) room := by
  obtain ⟨o, post, own_, starts_, _, lens⟩ := e.whole stored (.inl (by omega))
  obtain ⟨gone, split⟩ := e.suffix
  have bytes : feet own ≤ room := by
    have := (List.take_sublist count sizes).sum_le_sum (by simp)
    rw [feet, lens]
    omega
  have some_ : 0 < beginnings own := by
    rw [own_]
    exact beginnings_pos (by simp) (by simpa using starts_)
  refine ⟨?_, ?_, ?_⟩
  · rw [e.arenaSize]
    exact e.chained compact.chained
  · intro h mem
    rcases List.mem_append.mp mem with old | new
    · exact compact.small h (by rw [split]; exact List.mem_append_right _ old)
    · have : roundup h.len ≤ feet own := List.le_sum_of_mem (List.mem_map_of_mem new)
      omega
  · intro pre h rest parts begins
    rcases List.append_eq_append_iff.mp parts with ⟨cut, _, after⟩ | ⟨cut, before, after⟩
    · -- it begins with the sample just stored
      have le : feet (h :: rest) ≤ feet own := by
        rw [after, feet_append]
        omega
      have : 0 < beginnings (h :: rest) := beginnings_pos (by simp) (by simpa using begins)
      have := Nat.le_mul_of_pos_left room this
      omega
    · cases cut with
      | nil =>
        rw [List.nil_append] at after
        have : 0 < beginnings (h :: rest) := beginnings_pos (by simp) (by simpa using begins)
        have := Nat.le_mul_of_pos_left room this
        rw [after] at *
        omega
      | cons a cut =>
        rw [List.cons_append] at after
        obtain ⟨rfl, rfl⟩ := List.cons.inj after
        have old := compact.weighed (gone ++ pre) h cut (by rw [split, before, List.append_assoc]) begins
        rw [← List.cons_append, feet_append, beginnings_append, Nat.add_mul]
        have := Nat.le_mul_of_pos_left room some_
        omega

/-- A record held is found under its seq_no. -/
theorem Window.lookup_of_mem (h : c.Window c.ringDepth rows) {x : Held} (mem : x ∈ rows) :
    c.lookup x.seqNo = x.record := by
  rw [← h.held] at mem
  obtain ⟨_, _, _, _, at_⟩ := mem_held mem
  unfold heldAt at at_
  split at at_
  · next live =>
    rw [lookup, if_pos live]
    rw [Option.some.injEq] at at_
    rw [← at_]
  · cases at_

/-! ## Inside the depth -/

/-- Every sample inside the depth begins within the ring of the last of `count` seq_nos from `first` on. -/
def InsideSlots (c : ReliableCache) (first : SeqNo) (count : Nat) : Prop :=
  ∀ t ∈ (c.held c.ringDepth).tails, beginnings t < c.sampleDepth →
    t.head?.all (fun h => h.continues || decide (steps h.seqNo first + count ≤ c.ringDepth)) = true

instance (c : ReliableCache) (first : SeqNo) (count : Nat) : Decidable (c.InsideSlots first count) :=
  inferInstanceAs (Decidable (∀ t ∈ (c.held c.ringDepth).tails, _))

/-- The `sample_depth - 1` newest samples of `c`, or all it has, are found in `c'`. -/
def KeepsInside (c c' : ReliableCache) : Prop :=
  ∀ pre first rest, c.held c.ringDepth = pre ++ first :: rest → first.continues = false →
    beginnings (first :: rest) < c.sampleDepth → ∀ x ∈ first :: rest, c'.lookup x.seqNo = x.record

theorem InsideSlots.near {first : SeqNo} {count : Nat} (h : c.InsideSlots first count) {pre rest : List Held} {a : Held}
    (split : c.held c.ringDepth = pre ++ a :: rest) (starts_ : a.continues = false)
    (inside : beginnings (a :: rest) < c.sampleDepth) : steps a.seqNo first + count ≤ c.ringDepth := by
  have := h (a :: rest) (by rw [split, List.mem_tails]; exact List.suffix_append _ _) inside
  simpa [starts_] using this

/-- Records whose names another list has begin as many samples, and are found where those are. -/
theorem lookup_of_names (found : ∀ x ∈ rows, c.lookup x.seqNo = x.record) {others : List Held}
    (names : rows.map Held.name = others.map Held.name) : ∀ x ∈ others, c.lookup x.seqNo = x.record := by
  intro x mem
  have : x.name ∈ rows.map Held.name := by
    rw [names]
    exact List.mem_map_of_mem mem
  obtain ⟨y, mem', same⟩ := List.mem_map.mp this
  simp only [Held.name, Prod.mk.injEq] at same
  rw [← same.1, ← same.2]
  exact found y mem'

/-- The same names, split the same way. -/
theorem names_split {others pre rest : List Held} {first : Held} (names : others.map Held.name = rows.map Held.name)
    (split : rows = pre ++ first :: rest) : ∃ pre' first' rest', others = pre' ++ first' :: rest' ∧
      (first' :: rest').map Held.name = (first :: rest).map Held.name := by
  rw [split, List.map_append] at names
  obtain ⟨pre', post', rfl, _, back⟩ := List.map_eq_append_iff.mp names
  rw [List.map_cons] at back
  obtain ⟨first', rest', rfl, head, tail⟩ := List.map_eq_cons_iff.mp back
  exact ⟨pre', first', rest', rfl, by rw [List.map_cons, List.map_cons, head, tail]⟩

/-- What is kept is found. -/
theorem Enters.found {first : SeqNo} {count : Nat} {sizes : List Nat} {keep : Bool} {kept own pre rest : List Held} {a : Held}
    (e : Enters c c' rows first count sizes keep kept own) (used : c.ringDepth ≠ 0) (stays : kept = pre ++ a :: rest) :
    ∀ x ∈ a :: rest, c'.lookup x.seqNo = x.record := by
  intro x mem
  cases e.tallied with
  | blank blank _ _ => exact absurd (e.ringDepth ▸ blank.unused) used
  | window window _ =>
    apply window.lookup_of_mem
    rw [stays, List.append_assoc]
    exact List.mem_append_right _ (List.mem_append_left _ mem)

end ReliableCache

namespace Publisher

variable {node : Context} {pub pub' : Publisher} {rows : List Held} {cdr : List UInt8} {limit : Nat} {route : Route}

/-- A counted cache whose assurance, while it is on, says what it was set for. -/
structure Measured (node : Context) (pub : Publisher) (rows : List Held) : Prop where
  counted : Counted node pub rows
  len : pub.reliableCache.sampleDepth ≠ 0 → pub.reliableCache.depthAssuredDatagrams ≠ 0 →
    pub.reliableCache.depthAssuredLen ≤ assuredLongest pub.reliableCache.depthAssuredDatagrams
      (pub.reliableCache.arenaSize / (pub.reliableCache.sampleDepth + 1))
  compact : pub.reliableCache.sampleDepth ≠ 0 → pub.reliableCache.depthAssuredDatagrams ≠ 0 →
    pub.reliableCache.Compact rows (pub.reliableCache.arenaSize / (pub.reliableCache.sampleDepth + 1))

theorem Measured.quiet (h : Measured node pub rows) (q : Quiet node pub pub') : Measured node pub' rows := by
  have ht := q.touched
  have samples : pub'.reliableCache.sampleDepth = pub.reliableCache.sampleDepth := by rw [ht.same]
  have assured : pub'.reliableCache.depthAssuredDatagrams = pub.reliableCache.depthAssuredDatagrams := by rw [ht.same]
  have len : pub'.reliableCache.depthAssuredLen = pub.reliableCache.depthAssuredLen := by rw [ht.same]
  have arena : pub'.reliableCache.arenaSize = pub.reliableCache.arenaSize := by rw [ht.same]
  have tail : pub'.reliableCache.tail = pub.reliableCache.tail := by rw [ht.same]
  refine ⟨h.counted.quiet q, ?_, ?_⟩
  · rw [samples, assured, len, arena]
    exact h.len
  · rw [samples, assured, arena]
    intro on flag
    have compact := h.compact on flag
    exact ⟨by rw [arena, tail]; exact compact.chained, compact.small, compact.weighed⟩

/-- What a sample under the assurance is: kept, in no more than its share of the arena. -/
theorem Measured.covered (h : Measured node pub rows) (on : pub.reliableCache.sampleDepth ≠ 0)
    (flag : pub.reliableCache.depthAssuredDatagrams ≠ 0)
    (datagrams : sampleDatagramCount node cdr limit = pub.reliableCache.depthAssuredDatagrams)
    (len : dataFraming + cdr.length ≤ pub.reliableCache.depthAssuredLen) :
    (sampleFootprints node cdr limit).sum ≤ pub.reliableCache.arenaSize / (pub.reliableCache.sampleDepth + 1) ∧
    (pub.reliableCache.sampleDepth + 1) *
      (pub.reliableCache.arenaSize / (pub.reliableCache.sampleDepth + 1)) ≤ pub.reliableCache.arenaSize ∧
    2 * (pub.reliableCache.arenaSize / (pub.reliableCache.sampleDepth + 1)) ≤ pub.reliableCache.arenaSize ∧
    pub.reliableCache.keeps node cdr limit = true := by
  have fit : (sampleFootprints node cdr limit).sum ≤
      pub.reliableCache.arenaSize / (pub.reliableCache.sampleDepth + 1) := by
    apply sampleFootprints_le
    rw [datagrams]
    exact len.trans (h.len on flag)
  have arena := Nat.mul_div_le pub.reliableCache.arenaSize (pub.reliableCache.sampleDepth + 1)
  have twice : 2 * (pub.reliableCache.arenaSize / (pub.reliableCache.sampleDepth + 1)) ≤
      (pub.reliableCache.sampleDepth + 1) * (pub.reliableCache.arenaSize / (pub.reliableCache.sampleDepth + 1)) :=
    Nat.mul_le_mul_right _ (by omega)
  refine ⟨fit, arena, by omega, ?_⟩
  have ring : pub.reliableCache.depthAssuredDatagrams ≤ pub.reliableCache.ringDepth := by
    rw [(h.counted.spaced on flag).1]
    exact Nat.le_mul_of_pos_left _ (Nat.pos_of_ne_zero on)
  rw [ReliableCache.keeps, decide_eq_true_eq]
  omega

theorem Measured.stores {kept own : List Held} (h : Measured node pub rows)
    (clear : pub.reliableCache.Clear (pub.seqNo + 1)) (st : Stores node pub pub' cdr limit route)
    (entry : Entry node pub pub' rows cdr limit kept own) : Measured node pub' (kept ++ own) := by
  have counted := h.counted.stores clear st entry
  cases entry with
  | assured on flag datagrams len e =>
    have flags : pub'.reliableCache.depthAssuredDatagrams = pub.reliableCache.depthAssuredDatagrams :=
      congrArg (fun books => books.2.1) e.books
    have lens : pub'.reliableCache.depthAssuredLen = pub.reliableCache.depthAssuredLen :=
      congrArg (fun books => books.2.2) e.books
    obtain ⟨fit, _, twice, keep⟩ := h.covered on flag datagrams len
    refine ⟨counted, ?_, ?_⟩
    · rw [flags, lens, e.sampleDepth, e.arenaSize]
      exact h.len
    · rw [e.sampleDepth, e.arenaSize]
      intro _ _
      exact e.compact (h.compact on flag) keep fit twice
  | counted room rows₁ off roomed how e =>
    have off' : pub'.reliableCache.sampleDepth ≠ 0 → pub'.reliableCache.depthAssuredDatagrams = 0 := by
      have flags : pub'.reliableCache.depthAssuredDatagrams = room.depthAssuredDatagrams :=
        congrArg (fun books => books.2.1) e.books
      rw [e.sampleDepth, roomed.sampleDepth, flags]
      exact off.resolve_left
    refine ⟨counted, ?_, ?_⟩
    · intro on flag
      exact absurd (off' on) flag
    · intro on flag
      exact absurd (off' on) flag

/-! ## The depth kept, or said -/

/-- The sample stored keeps the samples inside the depth, or `depth_shortfalls` says it does not. -/
def DepthKept (pub pub' : Publisher) : Prop :=
  pub.reliableCache.depthShortfalls < pub'.reliableCache.depthShortfalls ∨
    pub.reliableCache.KeepsInside pub'.reliableCache

theorem Measured.depthKept {kept own : List Held} (h : Measured node pub rows)
    (slots : pub.reliableCache.InsideSlots (pub.seqNo + 1) (sampleDatagramCount node cdr limit))
    (entry : Entry node pub pub' rows cdr limit kept own) : DepthKept pub pub' := by
  cases h.counted.tallied with
  | blank blank _ _ =>
    right
    intro pre first rest split
    have retains : pub.reliableCache.retains = false := by simp [ReliableCache.retains, blank.origin]
    rw [ReliableCache.held_of_not_retains retains] at split
    simp at split
  | window window exact_ =>
    have used : pub.reliableCache.ringDepth ≠ 0 := by
      have := window.ranged.depth_pos
      omega
    cases entry with
    | assured on flag datagrams len e =>
      right
      intro pre first rest split starts_ inside
      obtain ⟨fit, arena, _, _⟩ := h.covered on flag datagrams len
      have near := slots.near split starts_ inside
      rw [window.held] at split
      obtain ⟨pre', stays⟩ := e.spared pre first rest split starts_ (.inl flag) near fun _ =>
        (h.compact on flag).room window arena fit split starts_ inside
      exact e.found used stays
    | counted room rows₁ off roomed how e =>
      cases how with
      | short _ more =>
        left
        have : pub'.reliableCache.depthShortfalls = room.depthShortfalls := congrArg Prod.fst e.books
        rw [this]
        exact more
      | keepAll all _ =>
        right
        intro pre first rest _ _ inside
        rw [h.counted.keepAll all] at inside
        exact absurd inside (Nat.not_lt_zero _)
      | unbounded none_ _ =>
        right
        intro pre first rest _ _ inside
        rw [none_] at inside
        exact absurd inside (Nat.not_lt_zero _)
      | covered same datagrams _ =>
        right
        intro pre first rest _ _ inside
        have := sampleDatagramCount_pos node cdr limit
        rw [same] at off
        omega
      | fits off' yes =>
        right
        intro pre first rest split starts_ inside
        have near := slots.near split starts_ inside
        rw [window.held] at split
        obtain ⟨pre₁, first₁, rest₁, split₁, names⟩ := ReliableCache.names_split roomed.names split
        have same : first₁.seqNo = first.seqNo ∧ first₁.record = first.record := by
          have := congrArg List.head? names
          simpa [Held.name] using this
        have depth := roomed.ringDepth used
        have starts₁ : first₁.continues = false := by
          rw [Held.continues, same.2]
          exact starts_
        have inside₁ : ReliableCache.beginnings (first₁ :: rest₁) < room.sampleDepth := by
          rw [ReliableCache.beginnings_names names, roomed.sampleDepth]
          exact inside
        obtain ⟨pre', stays⟩ := e.spared pre₁ first₁ rest₁ split₁ starts₁ (.inr inside₁)
          (by rw [same.1, depth]; exact near) fun _ => by
            cases roomed.tallied with
            | blank blank _ _ => exact absurd (depth ▸ blank.unused) used
            | window window₁ exact₁ => exact window₁.roomInside exact₁ yes split₁ starts₁ inside₁
        exact ReliableCache.lookup_of_names (e.found (by rw [depth]; exact used) stays) names

/-! ## Runs -/

/-- What a sample stored is asked: its seq_nos are free, and the ring has slots for it beside the samples inside the
depth. -/
def SlotsFor (node : Context) (pub : Publisher) : Option (List UInt8 × Nat × Route) → Prop
  | none => True
  | some (cdr, limit, _) => pub.reliableCache.Clear (pub.seqNo + 1) ∧
      pub.reliableCache.InsideSlots (pub.seqNo + 1) (sampleDatagramCount node cdr limit)

instance (node : Context) (pub : Publisher) : ∀ sample, Decidable (pub.SlotsFor node sample)
  | none => isTrue trivial
  | some (_, _, _) => inferInstanceAs (Decidable (_ ∧ _))

def Event.Slotted (node : Context) (pub : Publisher) (event : Event) : Prop := pub.SlotsFor node (pub.stored node event)

instance (node : Context) (pub : Publisher) (event : Event) : Decidable (event.Slotted node pub) :=
  inferInstanceAs (Decidable (pub.SlotsFor node (pub.stored node event)))

theorem Measured.step (h : Measured node pub rows) (event : Event) (slotted : event.Slotted node pub) :
    (∃ rows', Measured node (pub.step node event) rows') ∧
      ((pub.stored node event).isSome = true → DepthKept pub (pub.step node event)) := by
  unfold Event.Slotted at slotted
  rcases step_cases h.counted.claims event with ⟨none_, quiet⟩ | ⟨cdr, limit, route, stored_, stores⟩
  · refine ⟨⟨rows, h.quiet quiet⟩, ?_⟩
    rw [none_]
    intro some_
    cases some_
  · rw [stored_] at slotted
    obtain ⟨clear, slots⟩ := slotted
    obtain ⟨kept, own, entry⟩ := h.counted.entry clear stores
    exact ⟨⟨_, h.stores clear stores entry⟩, fun _ => h.depthKept slots entry⟩

theorem create_measured {opts : PublisherOptions} (created : opts.Created) : Measured node (create opts) [] := by
  refine ⟨create_counted created, ?_, ?_⟩
  · intro _ on
    have keepLast : opts.historyKeepAll = false := by
      cases all : opts.historyKeepAll with
      | true => simp [create, all] at on
      | false => rfl
    have flag : opts.assuredDatagrams ≠ 0 := by simpa [create, keepLast] using on
    simp only [create, keepLast, Bool.false_eq_true, if_false]
    exact (created.assures flag).1.len
  · intro _ _
    exact ⟨trivial, by simp, by simp⟩

/-- In a run whose samples all find their seq_nos free and slots beside the samples inside the depth, every sample
stored keeps those samples, or `depth_shortfalls` says it does not. -/
theorem depthKept_of_slotted (node : Context) {opts : PublisherOptions} (created : opts.Created) (events : List Event)
    (slotted : Run.Sound (step node) (fun pub event => event.Slotted node pub) (create opts) events) (event : Event)
    (last : event.Slotted node (Run.after (step node) (create opts) events))
    (stores : ((Run.after (step node) (create opts) events).stored node event).isSome = true) :
    DepthKept (Run.after (step node) (create opts) events)
      ((Run.after (step node) (create opts) events).step node event) := by
  have kept : ∀ pub event, (∃ rows, Measured node pub rows) → event.Slotted node pub →
      ∃ rows, Measured node (pub.step node event) rows := by
    rintro pub event ⟨rows, measured⟩ free
    exact (measured.step event free).1
  obtain ⟨rows, measured⟩ := Run.keeps kept ⟨[], create_measured created⟩ slotted
  exact (measured.step event last).2 stores

/-- KEEP_LAST 3 of an unbounded type, built for datagrams of 1472 bytes: a ring of 9 slots. -/
def keepLastThree : PublisherOptions :=
  publisherOptions ⟨1472, 4000⟩ ⟨0, false⟩ ⟨true, false, false, 3, 65536, by decide⟩ 0 4 4

/-- Three small samples on a link of the smallest MTU. -/
theorem depthKept_small :
    DepthKept (Run.after (step smallLink) (create keepLastThree)
        [.publish (List.replicate 4 0) plainRoute, .publish (List.replicate 4 0) plainRoute])
      ((Run.after (step smallLink) (create keepLastThree)
        [.publish (List.replicate 4 0) plainRoute, .publish (List.replicate 4 0) plainRoute]).step smallLink
        (.publish (List.replicate 4 0) plainRoute)) :=
  depthKept_of_slotted smallLink (.profile _ _ _ _ _ _) _ (by decide +kernel) _ (by decide +kernel) (by decide +kernel)

/-- There a sample of 3900 bytes takes 8 of the 9 slots, behind a small one. -/
def smallThenWide : List Event := [.publish (List.replicate 4 0) plainRoute, .publish (List.replicate 3900 0) plainRoute]

theorem smallThenWide_held : (Run.after (step smallLink) (create keepLastThree) smallThenWide).reliableCache.held
    (Run.after (step smallLink) (create keepLastThree) smallThenWide).reliableCache.ringDepth ≠ [] := by
  decide +kernel

/-- One more small sample, and the two inside the depth of 3 do not fit the ring: the first is evicted, and nothing
says so. -/
theorem evicted_inside_depth :
    ¬ ∀ (node : Context) (opts : PublisherOptions), opts.Created → ∀ (events : List Event) (event : Event),
      ((Run.after (step node) (create opts) events).stored node event).isSome = true →
      DepthKept (Run.after (step node) (create opts) events)
        ((Run.after (step node) (create opts) events).step node event) := by
  intro h
  have kept := h smallLink keepLastThree (.profile _ _ _ _ _ _) smallThenWide
    (.publish (List.replicate 4 0) plainRoute) (by decide +kernel)
  rcases kept with more | inside
  · revert more
    decide +kernel
  · have lost := inside [] _ _ (List.cons_head_tail smallThenWide_held).symm (by decide +kernel) (by decide +kernel) _
      List.mem_cons_self
    revert lost
    decide +kernel

end Publisher

end Tickle
