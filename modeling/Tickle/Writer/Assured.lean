import Tickle.Writer.Shortfall

/-! # The depth a ring assures

With `depth_assured_datagrams` set, a sample it covers is stored without asking `make_depth_room()` and without
`reliable_cache_admit_sample()`. As long as every sample spends as many seq_nos as it is cached in records, the
samples begin exactly that many apart, so the one the ring evicts for the new sample's first slot is the one the
count would have evicted (`reserve_evictOldest`): both paths leave the same cache. A sample that is cached whole
for a shared-memory slot and spends the seq_nos of the several datagrams of its network form breaks this.
-/

namespace Tickle

open Serial Loop RingArena

namespace ReliableCache

variable {c c' : ReliableCache} {d : Nat} {rows : List Held} {seqNo : SeqNo}

/-- The same cache, its samples counted. -/
def counting (c : ReliableCache) : ReliableCache := { c with depthAssuredDatagrams := 0 }

/-! ## What does not read the flag -/

@[simp] theorem counting_ringDepth (c : ReliableCache) : c.counting.ringDepth = c.ringDepth := rfl

@[simp] theorem counting_arenaSize (c : ReliableCache) : c.counting.arenaSize = c.arenaSize := rfl

@[simp] theorem counting_sampleDepth (c : ReliableCache) : c.counting.sampleDepth = c.sampleDepth := rfl

@[simp] theorem counting_held (c : ReliableCache) (d : Nat) : c.counting.held d = c.held d := by
  have each : ∀ n x, c.counting.heldFrom d n x = c.heldFrom d n x := by
    intro n
    induction n with
    | zero => intro x; rfl
    | succ n ih =>
      intro x
      rw [heldFrom, heldFrom, ih]
      rfl
  unfold held
  rw [each]
  rfl

theorem same_counting (c : ReliableCache) : Same c c.counting :=
  ⟨⟨rfl, rfl, rfl, rfl, rfl, rfl, rfl⟩, rfl, rfl, rfl, rfl, rfl⟩

theorem counting_dropLeadingTombstones (c : ReliableCache) (d : Nat) :
    c.counting.dropLeadingTombstones d = (c.dropLeadingTombstones d).counting := by
  apply whileN_comm counting
  · intro s
    rfl
  · intro s
    change (if s.oldestSeqNo = s.newestSeqNo then _ else _) = counting (if _ then _ else _)
    split
    · rfl
    · rfl

theorem counting_buryOldest (c : ReliableCache) (d : Nat) : c.counting.buryOldest d = (c.buryOldest d).counting := by
  unfold buryOldest
  change (if (c.slot d c.oldestSeqNo).seqNo = c.oldestSeqNo then _ else _) = counting (if _ then _ else _)
  split
  · rfl
  · rfl

theorem counting_evictOne (c : ReliableCache) (d : Nat) : c.counting.evictOne d = (c.evictOne d).counting := by
  unfold evictOne
  rw [counting_buryOldest]
  change (if (!c.retains) = true then _ else if c.oldestSeqNo = c.newestSeqNo then _ else _) =
    counting (if _ then _ else if _ then _ else _)
  split
  · rfl
  split
  · rfl
  · exact counting_dropLeadingTombstones { c.buryOldest d with oldestSeqNo := c.oldestSeqNo + 1 } d

theorem counting_evictOldest (c : ReliableCache) (d : Nat) : c.counting.evictOldest d = (c.evictOldest d).counting := by
  unfold evictOldest
  rw [counting_evictOne]
  apply whileN_comm counting
  · intro s
    rfl
  · intro s
    exact counting_evictOne s d

theorem counting_reserve (c : ReliableCache) (seqNo : SeqNo) (length now : Nat) :
    c.counting.reserve seqNo length now = ((c.reserve seqNo length now).1.counting, (c.reserve seqNo length now).2) := by
  have index : c.counting.reserveIndexRoom c.ringDepth seqNo = (c.reserveIndexRoom c.ringDepth seqNo).counting := by
    apply whileN_comm counting
    · intro s
      rfl
    · intro s
      exact counting_evictOldest s _
  have bytes : ∀ (s : ReliableCache) footprint, s.counting.reserveByteRoom c.ringDepth footprint =
      (s.reserveByteRoom c.ringDepth footprint).counting := by
    intro s footprint
    apply whileN_comm counting
    · intro s
      rfl
    · intro s
      exact counting_evictOldest s _
  unfold reserve
  simp only [counting_ringDepth, counting_arenaSize, index]
  split
  · rfl
  generalize c.reserveIndexRoom c.ringDepth seqNo = s
  have entry : s.counting.reserveEntry c.ringDepth seqNo now = (s.reserveEntry c.ringDepth seqNo now).counting := rfl
  simp only [entry, bytes, counting_dropLeadingTombstones]
  split
  · rfl
  generalize (s.reserveEntry c.ringDepth seqNo now).reserveByteRoom c.ringDepth (roundup length) = free
  have place : free.counting.writeOffset c.ringDepth (roundup length) = free.writeOffset c.ringDepth (roundup length) := rfl
  rw [place]
  cases free.writeOffset c.ringDepth (roundup length) with
  | none => rfl
  | some offset => rfl

theorem counting_cacheRecord (c : ReliableCache) (seqNo : SeqNo) (length now : Nat) (record : Record) :
    c.counting.cacheRecord seqNo length now record =
      ((c.cacheRecord seqNo length now record).1.counting, (c.cacheRecord seqNo length now record).2) := by
  unfold cacheRecord
  simp only [counting_reserve]
  cases (c.reserve seqNo length now).2 with
  | none => rfl
  | some offset => rfl

theorem counting_countSample (c : ReliableCache) (place : Option Nat) :
    c.counting.countSample place = (c.countSample place).counting := by
  unfold countSample
  split
  · rfl
  · rfl

theorem counting_cacheFragment (node : Context) (first : SeqNo) (cdr : List UInt8) (count now : Nat) (keep : Bool)
    (c : ReliableCache) (i : Nat) : cacheFragment node first cdr count now keep c.counting i =
      (cacheFragment node first cdr count now keep c i).counting := by
  unfold cacheFragment
  simp only [counting_cacheRecord, counting_countSample]
  split
  · rfl
  · rfl

/-! ## The count and the ring evict the same sample -/

/-- Samples begin exactly `k` seq_nos apart, the last of them `k` before `next`, and nothing stands before the first of
them. -/
structure Regular (k : Nat) (rows : List Held) (next : SeqNo) : Prop where
  head : rows.head?.any Held.continues = false
  apart : ∀ pre h rest, rows = pre ++ h :: rest → h.continues = false →
    steps h.seqNo next = beginnings (h :: rest) * k

theorem Regular.suffix {k : Nat} {gone kept : List Held} (h : Regular k (gone ++ kept) seqNo)
    (head : kept.head?.any Held.continues = false) : Regular k kept seqNo := by
  refine ⟨head, ?_⟩
  intro pre first rest split
  exact h.apart (gone ++ pre) first rest (by rw [split, List.append_assoc])

/-- The ring has a slot for the next sample beside fewer samples than the depth. -/
theorem Regular.indexRoom {k D : Nat} (regular : Regular k rows seqNo) (h : c.Window d rows) (fresh : c.Fresh rows seqNo)
    (pos : 0 < k) (depth : d = D * k) (fewer : beginnings rows < D) :
    (c.retains && decide ((seqNo - c.oldestSeqNo + 1).toNat > d)) = false := by
  cases hc : c.retains with
  | false => rfl
  | true =>
    obtain ⟨first, rest, rfl, oldest, _⟩ := h.head hc
    have away := regular.apart [] first rest rfl (by simpa using regular.head)
    have less : beginnings (first :: rest) * k < D * k := Nat.mul_lt_mul_of_pos_right fewer pos
    rw [oldest] at away
    rw [Bool.true_and, sub_succ (fresh.reach hc), decide_eq_false_iff_not]
    omega

theorem beginnings_sample {first : Held} {conts rest : List Held} (starts_ : first.continues = false)
    (continuing : ∀ x ∈ conts, x.continues = true) : beginnings (first :: conts ++ rest) = beginnings rest + 1 := by
  have none_ : beginnings conts = 0 := by
    rw [beginnings, List.countP_eq_zero]
    intro a mem
    simp [continuing a mem]
  have one : beginnings (first :: conts) = 1 := by
    rw [← List.singleton_append, beginnings_append, none_]
    simp [beginnings, starts_]
  rw [beginnings_append, one, Nat.add_comm]

/-- What both paths do before the sample's first record: nothing, or the oldest sample goes. -/
inductive Yields (d : Nat) (c c' : ReliableCache) (rows kept : List Held) : Prop
  | stays : c' = c → kept = rows → Yields d c c' rows kept
  | oldest (gone : List Held) : c' = c.evictOldest d → rows = gone ++ kept → IsSample gone → Evicted d c c' gone →
      Yields d c c' rows kept

/-- The count's bound before a sample, and the ring's for its first slot. -/
structure Agree (d : Nat) (c c' : ReliableCache) (rows : List Held) (seqNo : SeqNo) (kept : List Held) : Prop where
  yields : Yields d c c' rows kept
  admits : c.counting.admitSample = c'.counting
  index : c.reserveIndexRoom d seqNo = c'.reserveIndexRoom d seqNo
  window : c'.Window d kept
  fewer : beginnings kept < c.sampleDepth
  regular : ∀ k, Regular k rows seqNo → Regular k kept seqNo

theorem Window.agree {k : Nat} (h : c.Window d rows) (hd : c.ringDepth = d) (exact_ : c.retainedSamples = c.starts d)
    (fresh : c.Fresh rows seqNo) (regular : Regular k rows seqNo) (pos : 0 < k) (depth : d = c.sampleDepth * k)
    (bound : beginnings rows ≤ c.sampleDepth) : ∃ c' kept, Agree d c c' rows seqNo kept := by
  have used := h.ranged.depth_pos
  have on : c.sampleDepth ≠ 0 := by
    rintro zero
    rw [zero, Nat.zero_mul] at depth
    omega
  have loop : c.counting.admitSample = whileN (fun s => d ≠ 0 && s.retains && s.retainedSamples ≥ s.sampleDepth)
      (fun s => s.evictOldest d) (steps c.oldestSeqNo c.newestSeqNo + 1) c.counting := by
    rw [ReliableCache.admitSample, if_neg (by simp [counting, on]), counting_ringDepth, hd]
    rfl
  rcases Nat.lt_or_ge (beginnings rows) c.sampleDepth with fewer | full
  · refine ⟨c, rows, .stays rfl rfl, ?_, rfl, h, fewer, fun _ regular => regular⟩
    rw [loop]
    apply whileN_of_not
    have less : ¬ c.retainedSamples ≥ c.sampleDepth := by
      rw [exact_, h.starts]
      omega
    simp only [counting, less, decide_false, Bool.and_false]
  · have ne : rows ≠ [] := by
      rintro rfl
      simp only [beginnings, List.countP_nil] at full
      omega
    obtain ⟨first, conts, rest, rfl, continuing, head, he, window, count⟩ := h.evictOldest ne
    have starts_ : first.continues = false := by simpa using regular.head
    have one := @beginnings_sample first conts rest starts_ continuing
    have fewer : beginnings rest < c.sampleDepth := by omega
    have regular' : ∀ k, Regular k (first :: conts ++ rest) seqNo → Regular k rest seqNo :=
      fun _ regular => regular.suffix head
    have fresh' := fresh.evicted he window
    refine ⟨c.evictOldest d, rest, .oldest (first :: conts) rfl rfl ⟨first, conts, rfl, starts_, continuing⟩ he, ?_, ?_,
      window, fewer, regular'⟩
    · rw [loop, whileN_step, counting_evictOldest]
      · apply whileN_of_not
        have less : ¬ (c.evictOldest d).retainedSamples ≥ (c.evictOldest d).sampleDepth := by
          rw [count exact_, window.starts, he.store.sampleDepth]
          omega
        simp only [counting, less, decide_false, Bool.and_false]
      · have retains : c.counting.retains = true := h.retains ne
        have more : c.counting.retainedSamples ≥ c.counting.sampleDepth := by
          change c.retainedSamples ≥ c.sampleDepth
          rw [exact_, h.starts]
          exact full
        have some_ : d ≠ 0 := by omega
        rw [retains, decide_eq_true more, decide_eq_true some_]
        rfl
    · have enough := (regular' k regular).indexRoom window fresh' pos depth fewer
      have away := regular.apart [] first (conts ++ rest) rfl starts_
      have retains := h.retains ne
      have oldest : first.seqNo = c.oldestSeqNo := by
        obtain ⟨x, xs, split, oldest, _⟩ := h.head retains
        rw [← oldest, (List.cons.inj split).1]
      have asked : (c.retains && decide ((seqNo - c.oldestSeqNo + 1).toNat > d)) = true := by
        rw [retains, Bool.true_and, sub_succ (fresh.reach retains), decide_eq_true_eq, ← oldest, away,
          ← List.cons_append, one, depth]
        have : beginnings rest + 1 = c.sampleDepth := by omega
        rw [this]
        omega
      have still : (c.evictOldest d).reserveIndexRoom d seqNo = c.evictOldest d := by
        apply whileN_of_not
        exact enough
      rw [still]
      unfold ReliableCache.reserveIndexRoom
      rw [whileN_step]
      · apply whileN_of_not
        exact enough
      · exact asked

theorem Agree.store {kept : List Held} (a : Agree d c c' rows seqNo kept) : SameStore c c' := by
  cases a.yields with
  | stays same _ =>
    rw [same]
    exact .refl c
  | oldest gone _ _ _ he => exact he.store

/-- What is left stood at the end, before the same tail. -/
theorem Agree.behind {kept : List Held} (a : Agree d c c' rows seqNo kept) (ne : kept ≠ []) :
    ∃ gone, rows = gone ++ kept ∧ c'.tail = c.tail := by
  cases a.yields with
  | stays same left => exact ⟨[], left.symm, by rw [same]⟩
  | oldest gone _ split _ he => exact ⟨gone, split, (he.range (a.window.retains ne)).2.2.1⟩

/-- A reserve asks the ring first: what it has evicted before makes no difference. -/
theorem Agree.reserve {kept : List Held} (a : Agree d c c' rows seqNo kept) (hd : c.ringDepth = d) (used : 0 < d)
    (length now : Nat) : c'.reserve seqNo length now = c.reserve seqNo length now := by
  have depth : c'.ringDepth = d := a.store.ringDepth.trans hd
  have some_ : d ≠ 0 := by omega
  unfold ReliableCache.reserve
  simp only [depth, hd, a.store.arenaSize, ← a.index, some_, if_false]

theorem foldl_counting (node : Context) (first : SeqNo) (cdr : List UInt8) (count now : Nat) (keep : Bool)
    (fragments : List Nat) (c : ReliableCache) :
    fragments.foldl (cacheFragment node first cdr count now keep) c.counting =
      (fragments.foldl (cacheFragment node first cdr count now keep) c).counting := by
  induction fragments generalizing c with
  | nil => rfl
  | cons i fragments ih => rw [List.foldl_cons, List.foldl_cons, counting_cacheFragment, ih]

/-- The sample stored under the assurance and the sample stored by the count leave one cache. -/
theorem Agree.stores {kept : List Held} {node : Context} {cdr : List UInt8} {limit now : Nat}
    (a : Agree d c c' rows seqNo kept) (hd : c.ringDepth = d) (used : 0 < d) (flag : c.depthAssuredDatagrams ≠ 0) :
    c.counting.store node seqNo cdr limit now = (c.store node seqNo cdr limit now).counting := by
  have skipped : c.admitSample = c := by rw [ReliableCache.admitSample, if_pos (.inr flag)]
  have record : ∀ length record, c'.cacheRecord seqNo length now record = c.cacheRecord seqNo length now record := by
    intro length record
    unfold ReliableCache.cacheRecord
    rw [a.reserve hd used]
  unfold ReliableCache.store
  split
  · next many =>
    unfold cacheSampleFragments
    rw [counting_ringDepth, counting_arenaSize, a.admits, skipped, if_neg (by omega), if_neg (by omega), foldl_counting]
    -- the paths part before the first fragment and meet behind it
    obtain ⟨n, count⟩ : ∃ n, sampleDatagramCount node cdr limit = n + 1 :=
      ⟨sampleDatagramCount node cdr limit - 1, by omega⟩
    rw [count, List.range_succ_eq_map, List.foldl_cons, List.foldl_cons]
    unfold cacheFragment
    simp only [plus_zero, record]
  · unfold cacheReliableSample
    simp only [a.admits, skipped, counting_cacheRecord, record, counting_countSample]

/-! ## What the count's path finds first -/

/-- The samples inside the depth leave a whole sample's room over, so `make_depth_room()` has nothing to make. -/
theorem Compact.keepsDepth {room footprint : Nat} (compact : Compact c rows room) (h : c.Window c.ringDepth rows)
    (exact_ : c.retainedSamples = c.starts c.ringDepth) (head : rows.head?.any Held.continues = false)
    (bound : beginnings rows ≤ c.sampleDepth) (arena : (c.sampleDepth + 1) * room ≤ c.arenaSize)
    (fit : footprint ≤ room) (pos : 0 < footprint) : c.keepsDepth footprint = true := by
  have whole : room ≤ (c.sampleDepth + 1) * room := Nat.le_mul_of_pos_left room (Nat.succ_pos _)
  -- beside every sample inside the depth there is a place for one piece
  have place : ∀ pre first rest, rows = pre ++ first :: rest → first.continues = false →
      beginnings (first :: rest) < c.sampleDepth →
      (offsetIn c.arenaSize false first.offset c.tail footprint).isSome = true := by
    intro pre first rest split starts_ inside
    have free := @Compact.room _ _ _ _ _ [footprint] compact h arena (by simpa using fit) _ _ _ split starts_ inside
    obtain ⟨offset, fits⟩ := @Room.fits c.arenaSize c.tail footprint [] (rest.map Held.seg) first.seg free pos
    have found := (@offsetIn_eq_some c.arenaSize c.tail footprint offset (first.seg :: rest.map Held.seg) pos).mpr fits
    exact Option.isSome_iff_exists.mpr ⟨offset, found⟩
  unfold ReliableCache.keepsDepth
  split
  · rfl
  next on =>
  rw [if_neg (by omega)]
  cases hc : c.retains with
  | false => rfl
  | true =>
    simp only [Bool.not_true, Bool.false_eq_true, if_false]
    have cons := h.held
    rw [h.settled.held_cons hc] at cons
    obtain ⟨first, rest, split, oldest, offset⟩ := h.head hc
    have starts_ : first.continues = false := by
      rw [split] at head
      simpa using head
    by_cases full : c.retainedSamples ≥ c.sampleDepth
    · rw [if_pos full]
      rcases @keepsDepthSkip_spec c c.ringDepth _ _ c.oldestSeqNo rfl (Nat.lt_succ_self _) with
        ⟨none_, _⟩ | ⟨y, pre, second, post, found, f⟩
      · rw [none_]
      · rw [found]
        simp only
        rw [← f.offset]
        rw [f.split] at cons
        have parts := cons.trans split
        obtain ⟨same, behind⟩ := List.cons.inj parts
        have split' : rows = (first :: pre) ++ second :: post := by rw [split, ← behind]; rfl
        apply place _ _ _ split' f.starts_
        have one : 0 < beginnings (first :: pre) := beginnings_pos (by simp) (by simpa using starts_)
        rw [split', beginnings_append] at bound
        omega
    · rw [if_neg full]
      simp only
      rw [← offset]
      apply place [] first rest split starts_
      rw [exact_, h.starts, split] at full
      omega

theorem growUntil_of_enough {enough : ReliableCache → Bool} (yes : enough c = true) (sizes : List Nat) :
    c.growUntil enough sizes = (c, true) := by
  cases sizes with
  | nil =>
    unfold ReliableCache.growUntil
    rw [yes]
  | cons size sizes =>
    unfold ReliableCache.growUntil
    rw [if_pos yes]

/-- A window whose newest seq_no is the last one spent leaves the next ones free. -/
theorem Window.clear_next (h : c.Window c.ringDepth rows) (newest : rows ≠ [] → c.newestSeqNo = seqNo) :
    c.Clear (seqNo + 1) := by
  left
  intro i _ len
  obtain ⟨hc, _, upTo⟩ := h.live i len
  have ne : rows ≠ [] := by
    rw [← h.held]
    exact h.settled.retains_iff.mp hc
  have within := h.ranged.within hc
  have small := h.ranged.depth_lt
  rw [newest ne] at upTo within
  have apart := steps_split upTo
  have next : steps (c.index i).seqNo (seqNo + 1) = steps (c.index i).seqNo seqNo + 1 := steps_succ_right (by omega)
  have other : (c.index i).seqNo ≠ seqNo + 1 := by
    intro same
    rw [← same, steps_self] at next
    omega
  have := steps_swap other
  rw [seqDelta_neg]
  omega

/-- A sample of `k` seq_nos behind samples `k` apart. -/
theorem Regular.snoc {k : Nat} {own : List Held} (regular : Regular k rows seqNo) (small : k < 65536)
    (near : ∀ h ∈ rows, h.continues = false → steps h.seqNo seqNo < 65536) (head : own.head?.any Held.continues = false)
    (heads : ∀ h ∈ own, h.continues = false → h.seqNo = seqNo) (one : beginnings own = 1) :
    Regular k (rows ++ own) (plus seqNo k) := by
  have last : ∀ pre h rest, own = pre ++ h :: rest → h.continues = false →
      steps h.seqNo (plus seqNo k) = beginnings (h :: rest) * k := by
    intro pre h rest split starts_
    have some_ : 0 < beginnings (h :: rest) := beginnings_pos (by simp) (by simpa using starts_)
    have single : beginnings (h :: rest) = 1 := by
      rw [split, beginnings_append] at one
      omega
    rw [heads h (by simp [split]) starts_, steps_plus _ (by omega), single, Nat.one_mul]
  constructor
  · cases rows with
    | nil => exact head
    | cons first rest => simpa using regular.head
  · intro pre h rest split starts_
    rcases List.append_eq_append_iff.mp split with ⟨cut, _, after⟩ | ⟨cut, before, after⟩
    · exact last cut h rest after starts_
    · cases cut with
      | nil => exact last [] h rest after.symm starts_
      | cons a cut =>
        rw [List.cons_append] at after
        obtain ⟨rfl, rfl⟩ := List.cons.inj after
        have away := regular.apart pre h cut before starts_
        have := near h (by simp [before]) starts_
        rw [steps_plus_of (by omega), away, ← List.cons_append, beginnings_append, one, Nat.add_mul, Nat.one_mul]

end ReliableCache

namespace Publisher

variable {node : Context} {pub pub' : Publisher} {rows : List Held} {cdr : List UInt8} {limit : Nat} {route : Route}

/-- The same Publisher, its samples counted. -/
def counting (pub : Publisher) : Publisher := { pub with reliableCache := pub.reliableCache.counting }

/-- A Publisher whose samples have all spent as many seq_nos as the assurance counts records. -/
structure Steady (node : Context) (pub : Publisher) (rows : List Held) : Prop where
  measured : Measured node pub rows
  on : pub.reliableCache.sampleDepth ≠ 0
  flag : pub.reliableCache.depthAssuredDatagrams ≠ 0
  newest : rows ≠ [] → pub.reliableCache.newestSeqNo = pub.seqNo
  regular : ReliableCache.Regular pub.reliableCache.depthAssuredDatagrams rows (pub.seqNo + 1)

namespace Steady

theorem ringDepth (h : Steady node pub rows) : pub.reliableCache.ringDepth =
    pub.reliableCache.sampleDepth * pub.reliableCache.depthAssuredDatagrams :=
  (h.measured.counted.spaced h.on h.flag).1

theorem used (h : Steady node pub rows) : pub.reliableCache.ringDepth ≠ 0 := by
  rw [h.ringDepth]
  exact Nat.mul_ne_zero h.on h.flag

theorem window (h : Steady node pub rows) : pub.reliableCache.Window pub.reliableCache.ringDepth rows ∧
    pub.reliableCache.retainedSamples = pub.reliableCache.starts pub.reliableCache.ringDepth := by
  cases h.measured.counted.tallied with
  | blank blank _ _ => exact absurd blank.unused h.used
  | window window exact_ => exact ⟨window, exact_⟩

theorem keepLast (h : Steady node pub rows) : pub.keepAll = false := by
  cases all : pub.keepAll with
  | false => rfl
  | true => exact absurd (h.measured.counted.keepAll all) h.on

theorem fresh (h : Steady node pub rows) : pub.reliableCache.Fresh rows (pub.seqNo + 1) := by
  by_cases ne : rows = []
  · subst ne
    refine ⟨?_, by simp⟩
    intro hc
    rw [h.window.1.not_retains] at hc
    cases hc
  · have next := h.window.1.fresh (Nat.le_refl 1) (by omega)
    rwa [h.newest ne] at next

theorem clear (h : Steady node pub rows) : pub.reliableCache.Clear (pub.seqNo + 1) :=
  h.window.1.clear_next h.newest

theorem agree (h : Steady node pub rows) : ∃ c kept, ReliableCache.Agree pub.reliableCache.ringDepth pub.reliableCache c
    rows (pub.seqNo + 1) kept :=
  h.window.1.agree rfl h.window.2 h.fresh h.regular (Nat.pos_of_ne_zero h.flag) h.ringDepth
    (h.measured.counted.bound h.on)

theorem quiet (h : Steady node pub rows) (q : Quiet node pub pub') : Steady node pub' rows := by
  have ht := q.touched
  have samples : pub'.reliableCache.sampleDepth = pub.reliableCache.sampleDepth := by rw [ht.same]
  have assured : pub'.reliableCache.depthAssuredDatagrams = pub.reliableCache.depthAssuredDatagrams := by rw [ht.same]
  have newest : pub'.reliableCache.newestSeqNo = pub.reliableCache.newestSeqNo := by rw [ht.same]
  refine ⟨h.measured.quiet q, ?_, ?_, ?_, ?_⟩
  · rw [samples]
    exact h.on
  · rw [assured]
    exact h.flag
  · rw [newest, q.seqNo]
    exact h.newest
  · rw [assured, q.seqNo]
    exact h.regular

end Steady

/-- What the assurance is said to cover: a sample of exactly its datagrams, and no longer than its length. -/
def Covers (node : Context) (pub : Publisher) (cdr : List UInt8) (limit : Nat) : Prop :=
  sampleDatagramCount node cdr limit = pub.reliableCache.depthAssuredDatagrams ∧
    dataFraming + cdr.length ≤ pub.reliableCache.depthAssuredLen

instance (node : Context) (pub : Publisher) (cdr : List UInt8) (limit : Nat) : Decidable (pub.Covers node cdr limit) :=
  inferInstanceAs (Decidable (_ ∧ _))

/-- `make_depth_room()` run for a covered sample finds the depth kept. -/
theorem Steady.makeDepthRoom_counting (h : Steady node pub rows) (covers : pub.Covers node cdr limit) :
    pub.counting.makeDepthRoom node cdr limit route (sampleDatagramCount node cdr limit) = pub.reliableCache.counting := by
  obtain ⟨fit, arena, _, _⟩ := h.measured.covered h.on h.flag covers.1 covers.2
  have compact := h.measured.compact h.on h.flag
  have some_ := sampleDatagramCount_pos node cdr limit
  have yes : pub.reliableCache.counting.keepsDepth (sampleCacheFootprint node cdr limit) = true := by
    have window := h.window.1.same (ReliableCache.same_counting _)
    refine @ReliableCache.Compact.keepsDepth pub.reliableCache.counting rows _ _
      ⟨compact.chained, compact.small, compact.weighed⟩ window ?_ h.regular.head (h.measured.counted.bound h.on) arena ?_ ?_
    · have exact_ := h.window.2
      rw [h.window.1.starts] at exact_
      rw [ReliableCache.counting_ringDepth, window.starts]
      exact exact_
    · rw [← sampleFootprints_sum]
      exact fit
    · rw [← sampleFootprints_sum]
      exact sampleFootprints_pos node cdr limit
  unfold makeDepthRoom
  simp only
  have off : ¬ (sampleDatagramCount node cdr limit = pub.counting.reliableCache.depthAssuredDatagrams ∧
      dataFraming + cdr.length ≤ pub.counting.reliableCache.depthAssuredLen) := by
    rintro ⟨zero, _⟩
    change sampleDatagramCount node cdr limit = 0 at zero
    omega
  have on : ¬ pub.counting.reliableCache.sampleDepth = 0 := h.on
  have keepLast : ¬ pub.counting.keepAll = true := by
    change ¬ pub.keepAll = true
    rw [h.keepLast]
    exact Bool.false_ne_true
  rw [if_neg keepLast, if_neg on, if_neg off]
  have same : { pub.counting.reliableCache with depthAssuredDatagrams := 0 } = pub.reliableCache.counting := rfl
  rw [same, ReliableCache.growUntil_of_enough yes]
  rfl

/-! ## One write under the assurance -/

/-- The samples inside the depth stay, at most the oldest sample goes, whole, and the cache is the one
`make_depth_room()` and `reliable_cache_admit_sample()` would have left. -/
structure AssuredWrite (node : Context) (pub pub' : Publisher) (cdr : List UInt8) (limit : Nat) (route : Route) : Prop where
  keeps : pub.reliableCache.KeepsInside pub'.reliableCache
  evicts : ∃ gone kept own, pub.reliableCache.held pub.reliableCache.ringDepth = gone ++ kept ∧
    pub'.reliableCache.held pub'.reliableCache.ringDepth = kept ++ own ∧ (gone = [] ∨ IsSample gone) ∧
    kept.head?.any Held.continues = false ∧
    ∀ h ∈ own, ∃ j < sampleDatagramCount node cdr limit, h.seqNo = plus (pub.seqNo + 1) j
  same : pub'.reliableCache.counting = pub.counting.checkAndCacheSample node cdr limit route

theorem Steady.covered_store (h : Steady node pub rows) (covers : pub.Covers node cdr limit)
    (st : Stores node pub pub' cdr limit route) :
    pub'.reliableCache = pub.reliableCache.store node (pub.seqNo + 1) cdr limit route.now ∧
      pub'.reliableCache.counting = pub.reliableCache.counting.store node (pub.seqNo + 1) cdr limit route.now := by
  have direct : pub.makeDepthRoom node cdr limit route (sampleDatagramCount node cdr limit) = pub.reliableCache := by
    unfold makeDepthRoom
    unfold Covers at covers
    simp only [h.keepLast, Bool.false_eq_true, if_false, if_neg h.on, if_pos covers]
  have cache := st.cache
  rw [checkAndCacheSample_eq, direct] at cache
  obtain ⟨c, kept, agree⟩ := h.agree
  refine ⟨cache, ?_⟩
  rw [cache, agree.stores rfl (Nat.pos_of_ne_zero h.used) h.flag]

/-- What is held afterwards: what the count left, and the sample behind it. -/
theorem Steady.filled (h : Steady node pub rows) (covers : pub.Covers node cdr limit)
    (st : Stores node pub pub' cdr limit route) {c : ReliableCache} {kept : List Held}
    (agree : ReliableCache.Agree pub.reliableCache.ringDepth pub.reliableCache c rows (pub.seqNo + 1) kept) :
    ∃ own, ReliableCache.Filled pub.reliableCache.ringDepth pub.reliableCache.counting.admitSample
      pub'.reliableCache.counting kept (pub.seqNo + 1) (sampleFootprints node cdr limit)
      (pub.reliableCache.counting.keeps node cdr limit) (sampleDatagramCount node cdr limit) kept own := by
  have small := h.window.1.ranged.depth_lt
  have regular := agree.regular _ h.regular
  have window : pub.reliableCache.counting.admitSample.Window pub.reliableCache.ringDepth kept := by
    rw [agree.admits]
    exact agree.window.same (ReliableCache.same_counting c)
  have fresh : pub.reliableCache.counting.admitSample.Fresh kept (pub.seqNo + 1) := by
    rw [agree.admits]
    apply ReliableCache.Fresh.same _ (ReliableCache.same_counting c)
    cases agree.yields with
    | stays same left =>
      rw [same, left]
      exact h.fresh
    | oldest gone _ split _ he =>
      have before := h.fresh
      rw [split] at before
      exact before.evicted he agree.window
  have store : ReliableCache.SameStore pub.reliableCache.counting pub.reliableCache.counting.admitSample := by
    have bare := agree.store
    rw [agree.admits]
    exact ⟨bare.arena, bare.arenaSize, bare.arenaLimit, bare.capacity, bare.depth, bare.newestSeqNo, bare.sampleDepth⟩
  obtain ⟨kept', own, f⟩ := @ReliableCache.Window.store pub.reliableCache.counting pub.reliableCache.ringDepth kept node cdr
    (pub.seqNo + 1) limit route.now window fresh rfl store
  rw [← (h.covered_store covers st).2] at f
  obtain ⟨gone, split⟩ := f.suffix
  have all : kept' = kept := by
    cases kept with
    | nil => exact (List.append_eq_nil_iff.mp split.symm).2
    | cons first rest =>
      have starts_ : first.continues = false := by simpa using regular.head
      obtain ⟨before, whole, tail⟩ := agree.behind (by simp)
      obtain ⟨fit, arena, _, _⟩ := h.measured.covered h.on h.flag covers.1 covers.2
      obtain ⟨⟨pre, stays⟩, _⟩ := f.spared [] first rest rfl starts_ (by
        rw [regular.apart [] first rest rfl starts_, covers.1, h.ringDepth, ← Nat.succ_mul]
        exact Nat.mul_le_mul_right _ agree.fewer) (by
        intro _
        rw [agree.admits]
        change Room c.arenaSize first.offset c.tail _
        rw [agree.store.arenaSize, tail]
        exact (h.measured.compact h.on h.flag).room h.window.1 arena fit whole starts_ agree.fewer)
      have := congrArg List.length split
      have := congrArg List.length stays
      simp only [List.length_append] at *
      have none_ : pre = [] := List.length_eq_zero_iff.mp (by omega)
      rw [stays, none_, List.nil_append]
  rw [all] at f
  exact ⟨own, f⟩

theorem Steady.insideSlots (h : Steady node pub rows) (covers : pub.Covers node cdr limit) :
    pub.reliableCache.InsideSlots (pub.seqNo + 1) (sampleDatagramCount node cdr limit) := by
  intro t suffix inside
  rw [h.window.1.held, List.mem_tails] at suffix
  obtain ⟨pre, split⟩ := suffix
  cases t with
  | nil => rfl
  | cons first rest =>
    cases starts_ : first.continues with
    | true => simp [starts_]
    | false =>
      have near : steps first.seqNo (pub.seqNo + 1) + sampleDatagramCount node cdr limit ≤ pub.reliableCache.ringDepth := by
        rw [h.regular.apart pre first rest split.symm starts_, covers.1, h.ringDepth, ← Nat.succ_mul]
        exact Nat.mul_le_mul_right _ inside
      simpa [starts_] using near

/-- A covered sample stored, and its seq_nos spent, as many as its records. -/
theorem Steady.write (h : Steady node pub rows) (covers : pub.Covers node cdr limit)
    (st : Stores node pub pub' cdr limit route)
    (spent : pub'.seqNo = plus pub.seqNo pub.reliableCache.depthAssuredDatagrams) :
    AssuredWrite node pub pub' cdr limit route ∧ ∃ rows', Steady node pub' rows' := by
  obtain ⟨c, kept, agree⟩ := h.agree
  obtain ⟨own, f⟩ := h.filled covers st agree
  obtain ⟨cache, counted⟩ := h.covered_store covers st
  obtain ⟨fit, arena, twice, keep⟩ := h.measured.covered h.on h.flag covers.1 covers.2
  have small := h.window.1.ranged.depth_lt
  have some_ := sampleDatagramCount_pos node cdr limit
  obtain ⟨kept', own', e⟩ := @ReliableCache.Tallied.store pub.reliableCache rows node cdr limit route.now (pub.seqNo + 1)
    h.measured.counted.tallied h.clear
  rw [← cache] at e
  have entry : Entry node pub pub' rows cdr limit kept' own' := .assured h.on h.flag covers.1 covers.2 e
  have books := e.books
  have measured := h.measured.stores h.clear st entry
  have held : pub'.reliableCache.held pub'.reliableCache.ringDepth = kept ++ own := by
    rw [e.ringDepth, ← ReliableCache.counting_held]
    exact f.window.held
  have same : kept' ++ own' = kept ++ own := by
    rw [← held]
    cases e.tallied with
    | blank blank _ _ => exact absurd (e.ringDepth ▸ blank.unused) h.used
    | window window _ => exact window.held.symm
  rw [same] at measured
  have flag : pub'.reliableCache.depthAssuredDatagrams = pub.reliableCache.depthAssuredDatagrams :=
    congrArg (fun books => books.2.1) books
  have regular := agree.regular _ h.regular
  have size : pub.reliableCache.counting.admitSample.arenaSize = pub.reliableCache.arenaSize := by
    rw [agree.admits]
    exact agree.store.arenaSize
  have ring : sampleDatagramCount node cdr limit ≤ pub.reliableCache.ringDepth := by
    rw [ReliableCache.keeps, decide_eq_true_eq] at keep
    exact keep.1
  obtain ⟨o, post, own_, begins, name, _⟩ := f.whole keep (.inl (by rw [size]; omega)) ring some_
  have one : ReliableCache.beginnings own = 1 := by
    have := f.single
    have : 0 < ReliableCache.beginnings own := ReliableCache.beginnings_pos (by simp [own_]) (by simpa [own_] using begins)
    omega
  have next : pub'.seqNo + 1 = plus (pub.seqNo + 1) pub.reliableCache.depthAssuredDatagrams := by
    rw [spent, ← plus_succ_right, plus_succ]
  have near : ∀ x ∈ kept, x.continues = false → steps x.seqNo (pub.seqNo + 1) < 65536 := by
    intro x mem starts_
    obtain ⟨pre, rest, split⟩ := List.append_of_mem mem
    have fewer := agree.fewer
    rw [split, ReliableCache.beginnings_append] at fewer
    have : ReliableCache.beginnings (x :: rest) * pub.reliableCache.depthAssuredDatagrams ≤
        pub.reliableCache.sampleDepth * pub.reliableCache.depthAssuredDatagrams :=
      Nat.mul_le_mul_right _ (by omega)
    rw [regular.apart pre x rest split starts_]
    rw [← h.ringDepth] at this
    omega
  refine ⟨⟨?_, ?_, ?_⟩, kept ++ own, measured, ?_, ?_, ?_, ?_⟩
  · rcases h.measured.depthKept (h.insideSlots covers) entry with more | inside
    · rw [show pub'.reliableCache.depthShortfalls = pub.reliableCache.depthShortfalls from congrArg Prod.fst books] at more
      omega
    · exact inside
  · have whole : ∃ gone, rows = gone ++ kept ∧ (gone = [] ∨ IsSample gone) := by
      cases agree.yields with
      | stays _ left => exact ⟨[], left.symm, .inl rfl⟩
      | oldest gone _ split sample _ => exact ⟨gone, split, .inr sample⟩
    obtain ⟨gone, split, sample⟩ := whole
    exact ⟨gone, kept, own, h.window.1.held.trans split, held, sample, regular.head, f.within⟩
  · rw [counted, checkAndCacheSample_eq, h.makeDepthRoom_counting covers]
    rfl
  · rw [e.sampleDepth]
    exact h.on
  · rw [flag]
    exact h.flag
  · intro _
    rw [e.newest h.used, spent, ← covers.1]
    obtain ⟨n, count⟩ : ∃ n, sampleDatagramCount node cdr limit = n + 1 := ⟨sampleDatagramCount node cdr limit - 1, by omega⟩
    rw [count, plus_succ]
    rfl
  · rw [flag, next]
    apply regular.snoc (by rw [← covers.1]; omega) near _ f.heads one
    simp [own_, begins]

/-! ## Runs -/

/-- The sends of this event fail. -/
def Event.fails : Event → Bool
  | .publish _ route => route.matched && !route.sent
  | .publishClaimed _ _ moved route => moved && route.matched && !route.sent
  | _ => false

/-- The sample an event stores is one the assurance covers. -/
def Event.Covered (node : Context) (pub : Publisher) (event : Event) : Prop :=
  ∀ sample ∈ pub.stored node event, pub.Covers node sample.1 sample.2.1

instance (node : Context) (pub : Publisher) (event : Event) : Decidable (event.Covered node pub) :=
  inferInstanceAs (Decidable (∀ sample ∈ pub.stored node event, _))

/-- And its network form takes as many datagrams, all sent. -/
def Event.Spent (node : Context) (pub : Publisher) (event : Event) : Prop :=
  event.Covered node pub ∧ event.fails = false ∧ ∀ sample ∈ pub.stored node event,
    sampleDatagramCount node sample.1 node.fragWholeLimit = pub.reliableCache.depthAssuredDatagrams

instance (node : Context) (pub : Publisher) (event : Event) : Decidable (event.Spent node pub) :=
  inferInstanceAs (Decidable (_ ∧ _))

theorem stored_publish (admitted : pub.admitted node cdr = true) :
    pub.stored node (.publish cdr route) = some (cdr, wholeLimit node route, route) := by
  simp only [stored, admitted, if_true]

/-- What is sent is numbered. -/
theorem step_seqNo (fit : ClaimsFit node pub) {event : Event} (sends : event.fails = false)
    (stored_ : pub.stored node event = some (cdr, limit, route)) :
    (pub.step node event).seqNo = plus pub.seqNo (sampleDatagramCount node cdr node.fragWholeLimit) := by
  have published : ∀ cdr' route', pub.admitted node cdr' = true → (route'.matched && !route'.sent) = false →
      (pub.publish node cdr' route').2.seqNo = plus pub.seqNo (sampleDatagramCount node cdr' node.fragWholeLimit) := by
    intro cdr' route' admitted sends
    rw [publish_of_admitted admitted]
    simp only
    rw [if_neg]
    simpa using sends
  cases event with
  | publish cdr' route' =>
    simp only [stored] at stored_
    split at stored_
    · next admitted =>
      obtain ⟨rfl, _⟩ := Prod.mk.inj (Option.some.inj stored_)
      exact published _ _ admitted sends
    · cases stored_
  | publishClaimed payload cdr' moved route' =>
    simp only [stored] at stored_
    simp only [step, publishClaimed]
    cases hf : pub.claims.find? (fun c => c.payload = payload) with
    | none =>
      rw [hf] at stored_
      cases stored_
    | some claim =>
      rw [hf] at stored_
      simp only at stored_ ⊢
      split at stored_
      · cases stored_
      next ready =>
      simp only [Bool.or_eq_true, decide_eq_true_eq, Bool.not_eq_true', not_or, Bool.not_eq_false] at ready
      rw [if_neg ready.1, if_neg (by simp [ready.2])]
      cases moved with
      | true =>
        simp only [if_true] at stored_ ⊢
        split at stored_
        · next admitted =>
          obtain ⟨rfl, _⟩ := Prod.mk.inj (Option.some.inj stored_)
          exact published _ _ admitted (by simpa [Event.fails] using sends)
        · cases stored_
      | false =>
        simp only [Bool.false_eq_true, if_false] at stored_ ⊢
        obtain ⟨rfl, _⟩ := Prod.mk.inj (Option.some.inj stored_)
        rw [(fit.single hf (Nat.le_of_not_lt ready.1)).2]
        rfl
  | claim capacity granted => cases stored_
  | abandonClaim payload => cases stored_
  | matched contextId entityId trackingWords => cases stored_
  | unmatched contextId entityId => cases stored_
  | acknack contextId entityId seqNo bitmap claims repair => cases stored_

theorem Steady.step (h : Steady node pub rows) (event : Event) (spent : event.Spent node pub) :
    (∃ rows', Steady node (pub.step node event) rows') ∧
      ∀ cdr limit route, pub.stored node event = some (cdr, limit, route) →
        AssuredWrite node pub (pub.step node event) cdr limit route := by
  obtain ⟨covered, sends, network⟩ := spent
  rcases step_cases h.measured.counted.claims event with ⟨none_, quiet⟩ | ⟨cdr, limit, route, stored_, stores⟩
  · refine ⟨⟨rows, h.quiet quiet⟩, ?_⟩
    intro cdr limit route some_
    rw [none_] at some_
    cases some_
  · have covers := covered _ stored_
    have numbers := step_seqNo h.measured.counted.claims sends stored_
    rw [network _ stored_] at numbers
    obtain ⟨write, next⟩ := h.write covers stores numbers
    refine ⟨next, ?_⟩
    intro cdr' limit' route' some_
    rw [stored_] at some_
    cases some_
    exact write

theorem create_steady {opts : PublisherOptions} (created : opts.Created) (on : opts.assuredDatagrams ≠ 0) :
    Steady node (create opts) [] := by
  obtain ⟨assures, _⟩ := created.assures on
  have depth := assures.depth
  refine ⟨create_measured created, ?_, ?_, fun ne => absurd rfl ne, rfl, by simp⟩
  · simp only [create, assures.keepLast, Bool.false_eq_true, if_false]
    omega
  · simp only [create, assures.keepLast, Bool.false_eq_true, if_false]
    exact on

/-- In a run whose samples are all covered, each sent and as many datagrams in its network form as it is cached in,
every write keeps the depth, evicts at most one whole sample and leaves the cache the count would have left. -/
theorem assuredWrite_of_spent (node : Context) {opts : PublisherOptions} (created : opts.Created)
    (on : opts.assuredDatagrams ≠ 0) (events : List Event)
    (spent : Run.Sound (step node) (fun pub event => event.Spent node pub) (create opts) events) (event : Event)
    (last : event.Spent node (Run.after (step node) (create opts) events)) {cdr : List UInt8} {limit : Nat} {route : Route}
    (stored_ : (Run.after (step node) (create opts) events).stored node event = some (cdr, limit, route)) :
    AssuredWrite node (Run.after (step node) (create opts) events)
      ((Run.after (step node) (create opts) events).step node event) cdr limit route := by
  have kept : ∀ pub event, (∃ rows, Steady node pub rows) → event.Spent node pub →
      ∃ rows, Steady node (pub.step node event) rows := by
    rintro pub event ⟨rows, steady⟩ spent
    exact (steady.step event spent).1
  obtain ⟨rows, steady⟩ := Run.keeps kept ⟨[], create_steady created on⟩ spent
  exact (steady.step event last).2 cdr limit route stored_

/-- KEEP_LAST 2 of a type of at most 1000 bytes, built for datagrams of 1472: one datagram a sample, two slots. -/
def keepLastTwo : PublisherOptions :=
  publisherOptions ⟨1472, 4000⟩ ⟨1000, false⟩ ⟨true, false, false, 2, 65536, by decide⟩ 0 4 4

/-- Three small samples: the third takes the first one's place. -/
theorem assuredWrite_small :
    AssuredWrite smallLink (Run.after (step smallLink) (create keepLastTwo)
        [.publish (List.replicate 4 0) plainRoute, .publish (List.replicate 4 0) plainRoute])
      ((Run.after (step smallLink) (create keepLastTwo)
        [.publish (List.replicate 4 0) plainRoute, .publish (List.replicate 4 0) plainRoute]).step smallLink
        (.publish (List.replicate 4 0) plainRoute)) (List.replicate 4 0) (wholeLimit smallLink plainRoute) plainRoute :=
  assuredWrite_of_spent smallLink (.profile _ _ _ _ _ _) (by decide +kernel) _ (by decide +kernel) _ (by decide +kernel)
    (stored_publish (by decide +kernel))

/-- Every destination's shared-memory slot takes 2000 bytes. -/
def sharedRoute : Route := { plainRoute with wholeToPeers := 2000 }

theorem sharedOnce_held : (Run.after (step smallLink) (create keepLastTwo)
    [.publish (List.replicate 1000 0) sharedRoute]).reliableCache.held
    (Run.after (step smallLink) (create keepLastTwo) [.publish (List.replicate 1000 0) sharedRoute]).reliableCache.ringDepth
      ≠ [] := by
  decide +kernel

/-- Two samples of 1000 bytes, each one record in the cache and two datagrams on a link of the smallest MTU: the second
evicts the first. -/
theorem assured_sample_lost :
    ¬ ∀ (node : Context) (opts : PublisherOptions), opts.Created → opts.assuredDatagrams ≠ 0 →
      ∀ (events : List Event),
        Run.Sound (step node) (fun pub event => event.Covered node pub) (create opts) events → ∀ event : Event,
        event.Covered node (Run.after (step node) (create opts) events) → ∀ (cdr : List UInt8) (limit : Nat) (route : Route),
        (Run.after (step node) (create opts) events).stored node event = some (cdr, limit, route) →
        AssuredWrite node (Run.after (step node) (create opts) events)
          ((Run.after (step node) (create opts) events).step node event) cdr limit route := by
  intro h
  have write := h smallLink keepLastTwo (.profile _ _ _ _ _ _) (by decide +kernel)
    [.publish (List.replicate 1000 0) sharedRoute] (by decide +kernel) (.publish (List.replicate 1000 0) sharedRoute)
    (by decide +kernel) (List.replicate 1000 0) (wholeLimit smallLink sharedRoute) sharedRoute (stored_publish (by decide +kernel))
  have lost := write.keeps [] _ _ (List.cons_head_tail sharedOnce_held).symm (by decide +kernel) (by decide +kernel) _
    List.mem_cons_self
  revert lost
  decide +kernel

end Publisher

end Tickle
