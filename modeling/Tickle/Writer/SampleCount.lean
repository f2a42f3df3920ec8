import Tickle.Writer.Depth
import Tickle.Writer.Layout

/-! # The sample count over the runs of a Publisher

In every run whose publishes find no record retained at or after their first seq_no, `retained_samples` is
the number of retained records that start a sample. With a depth in samples the cache then retains no more
than the depth, and its bound evicts only with the depth reached.

A cache whose ring assures its depth is not bounded by counting: there the samples stand at least as many
seq_nos apart as each has datagrams, and the ring has that many slots for each sample of the depth
(`Spaced`).
-/

namespace Tickle

open Serial Loop RingArena

/-- What is retained, wherever in the arena it lies. -/
def Held.name (h : Held) : SeqNo × Option Record := (h.seqNo, h.record)

namespace ReliableCache

variable {c c' : ReliableCache} {rows rows' : List Held}

/-- A cache whose samples are counted. -/
inductive Tallied (c : ReliableCache) (rows : List Held) : Prop
  | blank : History.Blank c → c.retainedSamples = 0 → rows = [] → Tallied c rows
  | window : c.Window c.ringDepth rows → c.retainedSamples = c.starts c.ringDepth → Tallied c rows

/-- The same records, in an arena that may have grown. -/
structure Roomed (c c' : ReliableCache) (rows rows' : List Held) : Prop where
  tallied : Tallied c' rows'
  names : rows'.map Held.name = rows.map Held.name
  index : ∀ i, (c'.index i).len = (c.index i).len ∧ (c'.index i).seqNo = (c.index i).seqNo
  samples : c'.retainedSamples = c.retainedSamples
  sampleDepth : c'.sampleDepth = c.sampleDepth
  ringDepth : c.ringDepth ≠ 0 → c'.ringDepth = c.ringDepth

theorem Roomed.refl (h : c.Tallied rows) : Roomed c c rows rows :=
  ⟨h, rfl, fun _ => ⟨rfl, rfl⟩, rfl, rfl, fun _ => rfl⟩

theorem Roomed.trans {c'' : ReliableCache} {rows'' : List Held} (h : Roomed c c' rows rows')
    (h' : Roomed c' c'' rows' rows'') : Roomed c c'' rows rows'' where
  tallied := h'.tallied
  names := h'.names.trans h.names
  index := fun i => ⟨(h'.index i).1.trans (h.index i).1, (h'.index i).2.trans (h.index i).2⟩
  samples := h'.samples.trans h.samples
  sampleDepth := h'.sampleDepth.trans h.sampleDepth
  ringDepth := by
    intro used
    have once := h.ringDepth used
    rw [h'.ringDepth (by rw [once]; exact used), once]

theorem Roomed.same (h : c.Tallied rows) (hs : Same c c') (samples : c'.retainedSamples = c.retainedSamples) :
    Roomed c c' rows rows := by
  refine ⟨?_, rfl, ?_, samples, hs.store.sampleDepth, fun _ => hs.store.ringDepth⟩
  · cases h with
    | blank blank zero none_ =>
      refine .blank ⟨hs.store.ringDepth.trans blank.unused, hs.slotOrigin.trans blank.origin, ?_⟩
        (samples.trans zero) none_
      rw [hs.index]
      exact blank.index
    | window window exact_ =>
      have window' := window.same hs
      rw [← hs.store.ringDepth] at window'
      refine .window window' ?_
      rw [samples, exact_, starts, starts, hs.store.ringDepth, hs.held]
  · intro i
    rw [hs.index]
    exact ⟨rfl, rfl⟩

theorem relocate_names (offset : Nat) (rows : List Held) :
    (relocate offset rows).map Held.name = rows.map Held.name := by
  induction rows generalizing offset with
  | nil => rfl
  | cons h rows ih =>
    rw [relocate, List.map_cons, List.map_cons, ih]
    rfl

theorem beginnings_names (h : rows'.map Held.name = rows.map Held.name) : beginnings rows' = beginnings rows := by
  have read : ∀ l : List Held, beginnings l =
      (l.map Held.name).countP fun name => !name.2.any Record.continues := by
    intro l
    rw [List.countP_map]
    rfl
  rw [read, read, h]

theorem Tallied.grow {size : Nat} (h : c.Tallied rows) (some_ : c.grow size = some c') :
    (∃ rows', Roomed c c' rows rows') ∧ c'.books = c.books := by
  cases h with
  | blank blank zero none_ =>
    subst none_
    obtain ⟨next, fields⟩ := blank.grow some_
    have tallied : c'.Tallied [] := by
      have zero' : c'.retainedSamples = 0 := by rw [fields]; exact zero
      rcases next with blank' | window
      · exact .blank blank' zero' rfl
      · refine .window window ?_
        rw [zero', window.starts]
        rfl
    refine ⟨⟨[], tallied, rfl, ?_, ?_, ?_, ?_⟩, ?_⟩
    · intro i
      rw [fields]
      exact ⟨rfl, rfl⟩
    · rw [fields]
    · rw [fields]
    · intro used
      exact absurd blank.unused used
    · rw [fields]
      rfl
  | window window exact_ =>
    obtain ⟨packed, window'⟩ := window.grow rfl some_
    have names := relocate_names 0 rows
    have samples : c'.retainedSamples = c.retainedSamples := by
      rw [packed.samples]
      cases hc : c.retains with
      | true => rfl
      | false =>
        rw [exact_, starts, held_of_not_retains hc]
        rfl
    have depth := packed.grown.ringDepth
    refine ⟨⟨_, .window (depth.symm ▸ window') ?_, names, packed.index, samples, packed.grown.sampleDepth, fun _ => depth⟩, ?_⟩
    · rw [depth, samples, exact_, window.starts, window'.starts, beginnings_names names]
    · obtain ⟨_, shortfalls, datagrams, len⟩ := packed.same
      rw [books, books, shortfalls, datagrams, len]

theorem Tallied.growUntil (enough : ReliableCache → Bool) (sizes : List Nat) (h : c.Tallied rows) :
    (∃ rows', Roomed c (c.growUntil enough sizes).1 rows rows') ∧ (c.growUntil enough sizes).1.books = c.books := by
  induction sizes generalizing c rows with
  | nil => exact ⟨⟨rows, .refl h⟩, rfl⟩
  | cons size sizes ih =>
    unfold ReliableCache.growUntil
    split
    · exact ⟨⟨rows, .refl h⟩, rfl⟩
    · cases hg : c.grow size with
      | none => exact ⟨⟨rows, .refl h⟩, rfl⟩
      | some grown =>
        obtain ⟨⟨rows₁, once⟩, books₁⟩ := h.grow hg
        obtain ⟨⟨rows₂, more⟩, books₂⟩ := ih once.tallied
        exact ⟨⟨rows₂, once.trans more⟩, books₂.trans books₁⟩

/-! ## One sample into a counted cache -/

/-- The next sample's seq_nos are free: every record retained is under one serially before `first`, or the bound of
one sample evicts them all. -/
def Clear (c : ReliableCache) (first : SeqNo) : Prop :=
  (∀ i < c.ringDepth, (c.index i).len ≠ 0 → seqDelta (c.index i).seqNo first < 0) ∨
    c.sampleDepth = 1 ∧ c.depthAssuredDatagrams = 0 ∧ 0 < c.retainedSamples

instance (c : ReliableCache) (first : SeqNo) : Decidable (c.Clear first) :=
  inferInstanceAs (Decidable (_ ∨ _))

theorem Roomed.clear {first : SeqNo} (r : Roomed c c' rows rows') (h : c.Tallied rows)
    (assured : c.depthAssuredDatagrams = 0 → c'.depthAssuredDatagrams = 0) (clear : c.Clear first) : c'.Clear first := by
  rcases clear with before | ⟨one, on, some_⟩
  · left
    intro i lt len
    obtain ⟨len', name⟩ := r.index i
    rw [len'] at len
    rw [name]
    cases h with
    | blank blank _ _ => exact absurd (blank.index i) len
    | window window _ =>
      have := window.ranged.depth_pos
      rw [r.ringDepth (by omega)] at lt
      exact before i lt len
  · right
    rw [r.sampleDepth, r.samples]
    exact ⟨one, assured on, some_⟩

theorem beginnings_pos {kept : List Held} (ne : kept ≠ []) (head : kept.head?.any Held.continues = false) :
    0 < beginnings kept := by
  obtain ⟨first, rest, rfl⟩ := List.exists_cons_of_ne_nil ne
  simp only [List.head?_cons, Option.any_some] at head
  simp [beginnings, head]

variable {node : Context} {cdr : List UInt8} {limit now : Nat} {first : SeqNo}

/-- The bound of one sample leaves nothing, once a sample is retained. -/
theorem Admitted.none_left {d : Nat} {kept : List Held} (a : Admitted d c rows kept) (one : c.sampleDepth = 1)
    (on : c.depthAssuredDatagrams = 0) (some_ : 0 < beginnings rows) : kept = [] := by
  have bound := a.bound (by omega) on
  by_contra ne
  rcases a.sheds.head with rfl | head
  · omega
  · have := beginnings_pos ne head
    omega

/-- A sample stored, `count` records of `sizes` bytes: `kept` is left of what was held and `own` of the sample. -/
structure Enters (c c' : ReliableCache) (rows : List Held) (first : SeqNo) (count : Nat) (sizes : List Nat) (keep : Bool)
    (kept own : List Held) : Prop where
  tallied : c'.Tallied (kept ++ own)
  suffix : ∃ gone, rows = gone ++ kept
  heads : ∀ h ∈ own, h.continues = false → h.seqNo = first
  single : beginnings own ≤ 1
  bound : c.sampleDepth ≠ 0 → c.depthAssuredDatagrams = 0 → beginnings (kept ++ own) ≤ c.sampleDepth
  newest : c.ringDepth ≠ 0 → c'.newestSeqNo = plus first (count - 1)
  spared : ∀ pre h rest, rows = pre ++ h :: rest → h.continues = false →
    c.depthAssuredDatagrams ≠ 0 ∨ beginnings (h :: rest) < c.sampleDepth → steps h.seqNo first + count ≤ c.ringDepth →
    (keep = true → Room c.arenaSize h.offset c.tail sizes) → ∃ pre', kept = pre' ++ h :: rest
  whole : keep = true → 2 * sizes.sum ≤ c.arenaSize ∨ sizes.length = 1 → ∃ o post, own = o :: post ∧ o.continues = false ∧
    o.seqNo = first ∧ own.map (fun h => roundup h.len) = sizes.take count
  chained : Chained c.arenaSize roundup (rows.map Held.seg) c.tail →
    Chained c.arenaSize roundup ((kept ++ own).map Held.seg) c'.tail
  arenaSize : c'.arenaSize = c.arenaSize
  ringDepth : c'.ringDepth = c.ringDepth
  sampleDepth : c'.sampleDepth = c.sampleDepth
  books : c'.books = c.books

theorem Tallied.store (h : c.Tallied rows) (clear : c.Clear first) :
    ∃ kept own, Enters c (c.store node first cdr limit now) rows first (sampleDatagramCount node cdr limit)
      (sampleFootprints node cdr limit) (c.keeps node cdr limit) kept own := by
  cases h with
  | blank blank zero none_ =>
    subst none_
    rw [store_unused blank.unused]
    refine ⟨[], [], .blank blank zero rfl, ⟨[], rfl⟩, by simp, by simp [beginnings], by simp [beginnings], ?_, by simp, ?_, id, rfl, rfl, rfl, rfl⟩
    · intro used
      exact absurd blank.unused used
    · intro keep
      have := sampleDatagramCount_pos node cdr limit
      rw [keeps, decide_eq_true_eq, blank.unused] at keep
      omega
  | window window exact_ =>
    obtain ⟨mid, a⟩ := window.admitSample rfl exact_
    obtain ⟨gone, split, he⟩ := a.evicted
    have fresh : c.admitSample.Fresh mid first := by
      rcases clear with before | ⟨one, on, some_⟩
      · have := window.fresh_of_clear before
        rw [split] at this
        exact this.evicted he a.window
      · have none_ := a.none_left one on (by rw [← window.starts, ← exact_]; exact some_)
        subst none_
        refine ⟨?_, by simp⟩
        intro hc
        rw [a.window.not_retains] at hc
        cases hc
    have size : c.admitSample.arenaSize = c.arenaSize := he.store.arenaSize
    have tail : mid ≠ [] → c.admitSample.tail = c.tail := fun ne => (he.range (a.window.retains ne)).2.2.1
    obtain ⟨kept, own, f⟩ := @Window.store c c.ringDepth mid node cdr first limit now a.window fresh rfl he.store
    have depth : (c.store node first cdr limit now).ringDepth = c.ringDepth := f.ringDepth.trans he.store.ringDepth
    have counted := f.samples a.samples
    refine ⟨kept, own, ?_⟩
    exact {
      tallied := .window (depth.symm ▸ f.window) (by rw [depth]; exact counted)
      suffix := by
        obtain ⟨gone', split'⟩ := f.suffix
        exact ⟨gone ++ gone', by rw [split, split', List.append_assoc]⟩
      heads := f.heads
      single := f.single
      bound := by
        intro on off
        have := a.bound on off
        have := f.single
        have fewer : beginnings kept ≤ beginnings mid := by
          obtain ⟨gone', split'⟩ := f.suffix
          rw [split', beginnings_append]
          omega
        rw [beginnings_append]
        omega
      newest := fun _ => f.newest (sampleDatagramCount_pos node cdr limit)
      spared := by
        intro pre h rest split_ starts_ inside near room
        obtain ⟨pre', there⟩ := a.sheds.keeps split_ starts_ (by
          rintro ⟨_, off, asked⟩
          rcases inside with on | fewer
          · exact on off
          · omega)
        have := f.spared pre' h rest there starts_ near (by
          intro keep
          rw [size, tail (by simp [there])]
          exact room keep)
        exact this.1
      whole := by
        intro keep twice
        have count : sampleDatagramCount node cdr limit ≤ c.ringDepth := by
          rw [keeps, decide_eq_true_eq] at keep
          exact keep.1
        obtain ⟨o, post, own_, starts_, name, lens, _⟩ := f.whole keep (by rw [size]; exact twice) count
          (sampleDatagramCount_pos node cdr limit)
        exact ⟨o, post, own_, starts_, name, lens⟩
      chained := by
        intro began
        have here : Chained c.arenaSize roundup (mid.map Held.seg) c.admitSample.tail := by
          rw [split, List.map_append] at began
          by_cases ne : mid = []
          · rw [ne]
            trivial
          · rw [tail ne]
            exact began.suffix
        have := f.chained (by rw [size]; exact here)
        rwa [size] at this
      arenaSize := f.arenaSize.trans size
      ringDepth := depth
      sampleDepth := f.sampleDepth.trans he.store.sampleDepth
      books := f.books.trans a.books }

/-! ## A depth the ring assures -/

/-- Samples begin at least `k` seq_nos apart, and so does the next after those before it. -/
structure Spaced (k : Nat) (rows : List Held) (next : SeqNo) : Prop where
  apart : rows.Pairwise fun a b => a.continues = false → b.continues = false → k ≤ steps a.seqNo b.seqNo
  next : ∀ a ∈ rows, a.continues = false → seqDelta a.seqNo next < 0 → k ≤ steps a.seqNo next

/-- Numbers at least `k` apart below `N`. -/
theorem spaced_length {k N lo : Nat} {l : List Nat} (apart : l.Pairwise fun a b => a + k ≤ b) (low : ∀ a ∈ l, lo ≤ a)
    (high : ∀ a ∈ l, a + k ≤ N) (le : lo ≤ N) : lo + l.length * k ≤ N := by
  induction l generalizing lo with
  | nil => simpa using le
  | cons a l ih =>
    obtain ⟨first, rest⟩ := List.pairwise_cons.mp apart
    have := ih rest first (fun b mem => high b (by simp [mem])) (high a (by simp))
    have := low a (by simp)
    rw [List.length_cons, Nat.add_mul]
    omega

theorem Window.steps_newest {d : Nat} (h : c.Window d rows) {a : Held} (mem : a ∈ rows) :
    steps c.oldestSeqNo a.seqNo ≤ steps c.oldestSeqNo c.newestSeqNo ∧ steps c.oldestSeqNo c.newestSeqNo < d := by
  rw [← h.held] at mem
  obtain ⟨hc, i, le, name, _⟩ := mem_held mem
  have within := h.ranged.within hc
  have := h.ranged.depth_lt
  rw [name, steps_plus _ (by omega)]
  exact ⟨le, within⟩

/-- Samples that begin `k` apart, the last of them `k` before the end of the window, are no more than fit its ring. -/
theorem Window.beginnings_le {d k D : Nat} (h : c.Window d rows) (pos : 0 < k) (depth : d = D * k)
    (apart : rows.Pairwise fun a b => a.continues = false → b.continues = false → k ≤ steps a.seqNo b.seqNo)
    (last : ∀ a ∈ rows, a.continues = false → k ≤ steps a.seqNo c.newestSeqNo + 1) : beginnings rows ≤ D := by
  have inside : ∀ a ∈ rows, a.continues = false →
      steps c.oldestSeqNo a.seqNo + k ≤ steps c.oldestSeqNo c.newestSeqNo + 1 := by
    intro a mem starts_
    have := last a mem starts_
    have := steps_split (h.steps_newest mem).1
    omega
  have spread : ((rows.filter fun a => !a.continues).map fun a => steps c.oldestSeqNo a.seqNo).Pairwise
      fun a b => a + k ≤ b := by
    rw [List.pairwise_map, List.pairwise_filter]
    apply (h.sorted.and apart).imp
    intro a b both starts_ starts_'
    rw [Bool.not_eq_true'] at starts_ starts_'
    have := steps_split (Nat.le_of_lt both.1)
    have := both.2 starts_ starts_'
    omega
  have all := spaced_length spread (fun a _ => Nat.zero_le a) (N := steps c.oldestSeqNo c.newestSeqNo + 1) (by
    intro n place
    obtain ⟨a, filtered, rfl⟩ := List.mem_map.mp place
    obtain ⟨mem, starts_⟩ := List.mem_filter.mp filtered
    rw [Bool.not_eq_true'] at starts_
    exact inside a mem starts_) (Nat.zero_le _)
  rw [List.length_map, Nat.zero_add, ← List.countP_eq_length_filter] at all
  by_cases none_ : rows = []
  · subst none_
    exact Nat.zero_le _
  · obtain ⟨a, mem⟩ := List.exists_mem_of_ne_nil rows none_
    have within := (h.steps_newest mem).2
    have : beginnings rows * k ≤ D * k := by
      unfold beginnings
      omega
    exact Nat.le_of_mul_le_mul_right this pos

section Assured

variable {k D : Nat} {sizes : List Nat} {keep : Bool} {kept own : List Held}

theorem Enters.spaced (e : Enters c c' rows first k sizes keep kept own) (used : c.ringDepth ≠ 0) (pos : 0 < k)
    (depth : c.ringDepth = D * k) (spaced : Spaced k rows first) (before : ∀ a ∈ rows, seqDelta a.seqNo first < 0) :
    beginnings (kept ++ own) ≤ D ∧ Spaced k (kept ++ own) first ∧
      ∀ span, k ≤ span → span ≤ 65536 → Spaced k (kept ++ own) (plus first span) := by
  have window : c'.Window c.ringDepth (kept ++ own) := by
    cases e.tallied with
    | blank blank _ _ => exact absurd (e.ringDepth ▸ blank.unused) used
    | window window _ => exact e.ringDepth ▸ window
  obtain ⟨gone, split⟩ := e.suffix
  have old : ∀ a ∈ kept, a ∈ rows := by
    intro a mem
    rw [split]
    exact List.mem_append_right _ mem
  have away : ∀ a ∈ kept, a.continues = false → k ≤ steps a.seqNo first ∧ steps a.seqNo first ≤ 2 ^ 31 := by
    intro a mem starts_
    have := before a (old a mem)
    exact ⟨spaced.next a (old a mem) starts_ this, (steps_of_before this).2⟩
  have small := window.ranged.depth_lt
  have k_lt : k < 65536 := by
    rcases Nat.eq_zero_or_pos D with rfl | more
    · omega
    · have := Nat.le_mul_of_pos_left k more
      omega
  have apart : (kept ++ own).Pairwise fun a b => a.continues = false → b.continues = false → k ≤ steps a.seqNo b.seqNo := by
    refine List.pairwise_append.mpr ⟨?_, ?_, ?_⟩
    · have := spaced.apart
      rw [split] at this
      exact (List.pairwise_append.mp this).2.1
    · apply (List.Pairwise.and_mem.mp (List.pairwise_append.mp window.sorted).2.1).imp
      rintro a b ⟨mem, mem', lt⟩ starts_ starts_'
      rw [e.heads a mem starts_, e.heads b mem' starts_'] at lt
      omega
    · intro a mem b mem' starts_ starts_'
      rw [e.heads b mem' starts_']
      exact (away a mem starts_).1
  refine ⟨?_, ⟨apart, ?_⟩, ?_⟩
  · apply window.beginnings_le pos depth apart
    intro a mem starts_
    rw [e.newest used]
    rcases List.mem_append.mp mem with mem | mem
    · have := away a mem starts_
      rw [steps_plus_of (by omega)]
      omega
    · rw [e.heads a mem starts_, steps_plus _ (by omega)]
      omega
  · intro a mem starts_ behind
    rcases List.mem_append.mp mem with mem | mem
    · exact (away a mem starts_).1
    · rw [e.heads a mem starts_, seqDelta_self] at behind
      omega
  · intro span le lt
    refine ⟨apart, ?_⟩
    intro a mem starts_ _
    rcases List.mem_append.mp mem with mem | mem
    · have := away a mem starts_
      rw [steps_plus_of (by omega)]
      omega
    · rw [e.heads a mem starts_, steps_plus _ (by omega)]
      exact le

end Assured

theorem growUntil_enough {enough : ReliableCache → Bool} {sizes : List Nat} (h : (c.growUntil enough sizes).2 = true) :
    enough (c.growUntil enough sizes).1 = true := by
  induction sizes generalizing c with
  | nil => exact h
  | cons size sizes ih =>
    unfold ReliableCache.growUntil at h ⊢
    split
    · next yes => exact yes
    next no =>
    rw [if_neg no] at h
    cases hg : c.grow size with
    | none =>
      rw [hg] at h
      cases h
    | some grown =>
      rw [hg] at h
      exact ih h

end ReliableCache

namespace Publisher

variable {node : Context} {pub : Publisher} {rows : List Held} {cdr : List UInt8} {limit datagrams : Nat} {route : Route}

/-- What `make_depth_room()` came to: nothing to do, or the arena found large enough, grown or not, or said to be
short. -/
inductive DepthRoom (node : Context) (pub : Publisher) (cdr : List UInt8) (limit datagrams : Nat) (room : ReliableCache) :
    Prop
  | keepAll : pub.keepAll = true → room.books = pub.reliableCache.books → DepthRoom node pub cdr limit datagrams room
  | unbounded : pub.reliableCache.sampleDepth = 0 → room = pub.reliableCache →
      DepthRoom node pub cdr limit datagrams room
  | covered : room = pub.reliableCache → datagrams = pub.reliableCache.depthAssuredDatagrams →
      dataFraming + cdr.length ≤ pub.reliableCache.depthAssuredLen → DepthRoom node pub cdr limit datagrams room
  | fits : room.depthAssuredDatagrams = 0 → room.keepsDepth (sampleCacheFootprint node cdr limit) = true →
      DepthRoom node pub cdr limit datagrams room
  | short : room.depthAssuredDatagrams = 0 → pub.reliableCache.depthShortfalls < room.depthShortfalls →
      DepthRoom node pub cdr limit datagrams room

/-- `make_depth_room()` moves records and evicts none. -/
theorem makeDepthRoom_roomed (h : pub.reliableCache.Tallied rows) :
    (∃ rows', ReliableCache.Roomed pub.reliableCache (pub.makeDepthRoom node cdr limit route datagrams) rows rows') ∧
      DepthRoom node pub cdr limit datagrams (pub.makeDepthRoom node cdr limit route datagrams) := by
  unfold makeDepthRoom
  simp only
  split
  · next all =>
    unfold keepAllRoomBeforeMatch
    simp only
    split
    · exact ⟨⟨rows, .refl h⟩, .keepAll all rfl⟩
    · obtain ⟨grown, books⟩ := h.growUntil (fun c => c.admits c.ringDepth (sampleCacheFootprint node cdr limit) 0)
        route.growths
      exact ⟨grown, .keepAll all books⟩
  split
  · next none_ => exact ⟨⟨rows, .refl h⟩, .unbounded none_ rfl⟩
  split
  · next covered => exact ⟨⟨rows, .refl h⟩, .covered rfl covered.1 covered.2⟩
  · have off : ReliableCache.Same pub.reliableCache { pub.reliableCache with depthAssuredDatagrams := 0 } :=
      ⟨⟨rfl, rfl, rfl, rfl, rfl, rfl, rfl⟩, rfl, rfl, rfl, rfl, rfl⟩
    have began := ReliableCache.Roomed.same h off rfl
    obtain ⟨⟨rows', grown⟩, books⟩ := began.tallied.growUntil
      (fun c => c.keepsDepth (sampleCacheFootprint node cdr limit)) route.growths
    have assured := congrArg (fun books => books.2.1) books
    have shortfalls := congrArg Prod.fst books
    simp only [ReliableCache.books] at assured shortfalls
    split
    · next enough =>
      exact ⟨⟨rows', began.trans grown⟩, .fits assured (ReliableCache.growUntil_enough enough)⟩
    · have counted : ∀ (c : ReliableCache) (n : Nat), ReliableCache.Same c { c with depthShortfalls := n } :=
        fun _ _ => ⟨⟨rfl, rfl, rfl, rfl, rfl, rfl, rfl⟩, rfl, rfl, rfl, rfl, rfl⟩
      refine ⟨⟨rows', (began.trans grown).trans (ReliableCache.Roomed.same grown.tallied (counted _ _) rfl)⟩,
        .short assured ?_⟩
      simp only
      omega

/-! ## What a step does to the cache -/

/-- The sample a step stores: its CDR, the limit it is cut for, and what it meets. -/
def stored (pub : Publisher) (node : Context) : Event → Option (List UInt8 × Nat × Route)
  | .publish cdr route => if pub.admitted node cdr then some (cdr, wholeLimit node route, route) else none
  | .publishClaimed payload cdr moved route =>
    match pub.claims.find? (fun c => c.payload = payload) with
    | none => none
    | some claim =>
      if cdr.length > claim.length || !pub.keepAllWritable then none
      else if moved then if pub.admitted node cdr then some (cdr, wholeLimit node route, route) else none
      else some (cdr, node.fragWholeLimit, route)
  | _ => none

/-- A step that stores nothing. -/
structure Quiet (node : Context) (pub pub' : Publisher) : Prop where
  touched : ReliableCache.Touched pub.reliableCache pub'.reliableCache
  seqNo : pub'.seqNo = pub.seqNo
  keepAll : pub'.keepAll = pub.keepAll
  claims : ClaimsFit node pub → ClaimsFit node pub'

/-- A step that stores a sample, sent or not. -/
structure Stores (node : Context) (pub pub' : Publisher) (cdr : List UInt8) (limit : Nat) (route : Route) : Prop where
  short : cdr.length ≤ node.maxSampleLength
  limit_le : node.fragWholeLimit ≤ limit
  cache : pub'.reliableCache = pub.checkAndCacheSample node cdr limit route
  seqNo : pub'.seqNo = pub.seqNo ∨ pub'.seqNo = plus pub.seqNo (sampleDatagramCount node cdr node.fragWholeLimit)
  keepAll : pub'.keepAll = pub.keepAll
  claims : ClaimsFit node pub → ClaimsFit node pub'

theorem ClaimsFit.subset {pub' : Publisher} (h : ClaimsFit node pub) (sub : ∀ claim ∈ pub'.claims, claim ∈ pub.claims) :
    ClaimsFit node pub' := by
  intro claim mem
  exact h claim (sub claim mem)

theorem Quiet.of_eq {pub' : Publisher} (cache : pub'.reliableCache = pub.reliableCache) (seqNo : pub'.seqNo = pub.seqNo)
    (keepAll : pub'.keepAll = pub.keepAll) (sub : ∀ claim ∈ pub'.claims, claim ∈ pub.claims) : Quiet node pub pub' :=
  ⟨by rw [cache]; exact .refl _, seqNo, keepAll, fun fit => fit.subset sub⟩

theorem Quiet.trans {pub' pub'' : Publisher} (h : Quiet node pub pub') (h' : Quiet node pub' pub'') :
    Quiet node pub pub'' :=
  ⟨h.touched.trans h'.touched, h'.seqNo.trans h.seqNo, h'.keepAll.trans h.keepAll, fun fit => h'.claims (h.claims fit)⟩

theorem publish_quiet (h : pub.admitted node cdr = false) : Quiet node pub (pub.publish node cdr route).2 := by
  obtain ⟨cache, seqNo, claims, _, keepAll⟩ := @publish_of_not_admitted node pub cdr route h
  exact .of_eq cache seqNo keepAll (by rw [claims]; exact fun _ mem => mem)

theorem publish_stores (h : pub.admitted node cdr = true) :
    Stores node pub (pub.publish node cdr route).2 cdr (wholeLimit node route) route := by
  have short : cdr.length ≤ node.maxSampleLength := by
    simp only [admitted, Bool.and_eq_true, decide_eq_true_eq] at h
    exact h.1.2
  rw [publish_of_admitted h]
  refine ⟨short, fragWholeLimit_le_wholeLimit node route, rfl, ?_, rfl, id⟩
  simp only
  split
  · exact .inl rfl
  · exact .inr rfl

theorem claimPeerAck_quiet (contextId entityId trackingWords : Nat) :
    Quiet node pub (pub.claimPeerAck contextId entityId trackingWords) := by
  unfold claimPeerAck
  split
  · exact .of_eq rfl rfl rfl fun _ mem => mem
  · exact .of_eq rfl rfl rfl fun _ mem => mem

theorem processAcknack_quiet {contextId entityId : Nat} {seqNo : SeqNo} {bitmap : List (BitVec 64)} {claims : Bool}
    {repair : Repair} : Quiet node pub (pub.processAcknack contextId entityId seqNo bitmap claims repair).1 := by
  have recorded : ∀ p : Publisher, Quiet node p (p.recordPeerAck contextId entityId seqNo).notifyWritableIfPending := by
    intro p
    have first : Quiet node p (p.recordPeerAck contextId entityId seqNo) := by
      unfold recordPeerAck
      split
      · exact .of_eq rfl rfl rfl fun _ mem => mem
      · exact .of_eq rfl rfl rfl fun _ mem => mem
    apply first.trans
    unfold notifyWritableIfPending
    split
    · exact .of_eq rfl rfl rfl fun _ mem => mem
    · exact .of_eq rfl rfl rfl fun _ mem => mem
  unfold processAcknack
  split
  · exact .of_eq rfl rfl rfl fun _ mem => mem
  next words =>
  split
  · exact .of_eq rfl rfl rfl fun _ mem => mem
  simp only
  generalize hp : (Publisher.recordPeerAck _ contextId entityId seqNo).notifyWritableIfPending = p
  have known : Quiet node pub p := by
    rw [← hp]
    refine Quiet.trans ?_ (recorded _)
    split
    · exact claimPeerAck_quiet _ _ _
    · exact .of_eq rfl rfl rfl fun _ mem => mem
  split
  · obtain ⟨touched, _⟩ := @ReliableCache.retransmit_walk p.reliableCache.ringDepth repair
      p.lifespanDuration p.keepAll _ (requested_nodup seqNo (Nat.le_of_not_lt words))
      ⟨p.reliableCache, [], false⟩
    exact known.trans ⟨touched, rfl, rfl, id⟩
  · exact known

/-- Every step stores nothing, or the sample it is said to. -/
theorem step_cases (fit : ClaimsFit node pub) (event : Event) :
    (pub.stored node event = none ∧ Quiet node pub (pub.step node event)) ∨
      ∃ cdr limit route, pub.stored node event = some (cdr, limit, route) ∧
        Stores node pub (pub.step node event) cdr limit route := by
  cases event with
  | publish cdr route =>
    simp only [stored, step]
    cases h : pub.admitted node cdr with
    | false => exact .inl ⟨by simp, publish_quiet h⟩
    | true => exact .inr ⟨cdr, _, route, by simp, publish_stores h⟩
  | claim capacity granted =>
    left
    refine ⟨rfl, ?_⟩
    simp only [step, claim]
    split
    · exact .of_eq rfl rfl rfl fun _ mem => mem
    split
    · exact .of_eq rfl rfl rfl fun _ mem => mem
    split
    · exact .of_eq rfl rfl rfl fun _ mem => mem
    next fits =>
    cases granted with
    | none => exact .of_eq rfl rfl rfl fun _ mem => mem
    | some payload =>
      refine ⟨.refl _, rfl, rfl, ?_⟩
      intro fit claim mem
      rcases List.mem_cons.mp mem with rfl | old
      · simp only
        constructor
        · omega
        · omega
      · exact fit claim old
  | publishClaimed payload cdr moved route =>
    simp only [stored, step, publishClaimed]
    cases hf : pub.claims.find? (fun c => c.payload = payload) with
    | none => exact .inl ⟨rfl, .of_eq rfl rfl rfl fun _ mem => mem⟩
    | some claim =>
      simp only
      by_cases long : cdr.length > claim.length
      · rw [if_pos long, if_pos (by simp [long])]
        exact .inl ⟨rfl, .of_eq rfl rfl rfl (claimRelease_subset pub payload)⟩
      rw [if_neg long]
      by_cases full : pub.keepAllWritable = false
      · rw [if_pos (by simp [full]), if_pos (by simp [full])]
        exact .inl ⟨rfl, .of_eq rfl rfl rfl fun _ mem => mem⟩
      rw [Bool.not_eq_false] at full
      simp only [full, long, decide_false, Bool.or_false, Bool.not_true, Bool.false_eq_true, if_false]
      cases moved with
      | true =>
        rw [if_pos rfl, if_pos rfl]
        cases h : pub.admitted node cdr with
        | false => exact .inl ⟨by simp, (publish_quiet h).trans (.of_eq rfl rfl rfl (claimRelease_subset _ payload))⟩
        | true =>
          have stores := @publish_stores node pub cdr route h
          exact .inr ⟨cdr, _, route, by simp,
            ⟨stores.short, stores.limit_le, stores.cache, stores.seqNo, stores.keepAll,
              fun fit => (stores.claims fit).subset (claimRelease_subset _ payload)⟩⟩
      | false =>
        obtain ⟨short, one⟩ := fit.single hf (Nat.le_of_not_lt long)
        refine .inr ⟨cdr, _, route, rfl, short, Nat.le_refl _, rfl, .inr ?_, rfl, ?_⟩
        · rw [one]
          simp [plus]
        · intro fit
          exact fit.subset (claimRelease_subset _ payload)
  | abandonClaim payload =>
    left
    refine ⟨rfl, ?_⟩
    simp only [step, abandonClaim]
    split
    · exact .of_eq rfl rfl rfl fun _ mem => mem
    · exact .of_eq rfl rfl rfl (claimRelease_subset pub payload)
  | matched contextId entityId trackingWords => exact .inl ⟨rfl, claimPeerAck_quiet _ _ _⟩
  | unmatched contextId entityId => exact .inl ⟨rfl, .of_eq rfl rfl rfl fun _ mem => mem⟩
  | acknack contextId entityId seqNo bitmap claims repair => exact .inl ⟨rfl, processAcknack_quiet⟩

/-! ## Runs -/

/-- A Publisher whose cache counts its samples; `rows` is what is retained. -/
structure Counted (node : Context) (pub : Publisher) (rows : List Held) : Prop where
  claims : ClaimsFit node pub
  keepAll : pub.keepAll = true → pub.reliableCache.sampleDepth = 0
  tallied : pub.reliableCache.Tallied rows
  bound : pub.reliableCache.sampleDepth ≠ 0 → ReliableCache.beginnings rows ≤ pub.reliableCache.sampleDepth
  spaced : pub.reliableCache.sampleDepth ≠ 0 → pub.reliableCache.depthAssuredDatagrams ≠ 0 →
    pub.reliableCache.ringDepth = pub.reliableCache.sampleDepth * pub.reliableCache.depthAssuredDatagrams ∧
      ReliableCache.Spaced pub.reliableCache.depthAssuredDatagrams rows (pub.seqNo + 1)

theorem Counted.quiet {pub' : Publisher} (h : Counted node pub rows) (q : Quiet node pub pub') :
    Counted node pub' rows := by
  have ht := q.touched
  have depth : pub'.reliableCache.ringDepth = pub.reliableCache.ringDepth := by rw [ht.same]; rfl
  have samples : pub'.reliableCache.sampleDepth = pub.reliableCache.sampleDepth := by rw [ht.same]
  have assured : pub'.reliableCache.depthAssuredDatagrams = pub.reliableCache.depthAssuredDatagrams := by rw [ht.same]
  have retained : pub'.reliableCache.retainedSamples = pub.reliableCache.retainedSamples := by rw [ht.same]
  refine ⟨q.claims h.claims, ?_, ?_, ?_, ?_⟩
  · rw [q.keepAll, samples]
    exact h.keepAll
  · cases h.tallied with
    | blank blank zero none_ =>
      refine .blank ⟨depth.trans blank.unused, ?_, ?_⟩ (retained.trans zero) none_
      · rw [ht.same]
        exact blank.origin
      · intro i
        rw [ht.index i]
        exact blank.index i
    | window window exact_ =>
      have window' := window.touched ht
      rw [← depth] at window'
      refine .window window' ?_
      rw [retained, exact_, window.starts, window'.starts]
  · rw [samples]
    exact h.bound
  · rw [samples, assured, depth, q.seqNo]
    exact h.spaced

/-- How a sample entered the cache: under the assurance, into the cache as it was, or counted, into the cache with
room made. -/
inductive Entry (node : Context) (pub pub' : Publisher) (rows : List Held) (cdr : List UInt8) (limit : Nat)
    (kept own : List Held) : Prop
  | assured : pub.reliableCache.sampleDepth ≠ 0 → pub.reliableCache.depthAssuredDatagrams ≠ 0 →
      sampleDatagramCount node cdr limit = pub.reliableCache.depthAssuredDatagrams →
      dataFraming + cdr.length ≤ pub.reliableCache.depthAssuredLen →
      ReliableCache.Enters pub.reliableCache pub'.reliableCache rows (pub.seqNo + 1) (sampleDatagramCount node cdr limit)
        (sampleFootprints node cdr limit) (pub.reliableCache.keeps node cdr limit) kept own →
      Entry node pub pub' rows cdr limit kept own
  | counted (room : ReliableCache) (rows₁ : List Held) :
      pub.reliableCache.sampleDepth = 0 ∨ room.depthAssuredDatagrams = 0 →
      ReliableCache.Roomed pub.reliableCache room rows rows₁ →
      DepthRoom node pub cdr limit (sampleDatagramCount node cdr limit) room →
      ReliableCache.Enters room pub'.reliableCache rows₁ (pub.seqNo + 1) (sampleDatagramCount node cdr limit)
        (sampleFootprints node cdr limit) (room.keeps node cdr limit) kept own →
      Entry node pub pub' rows cdr limit kept own

theorem Counted.entry {pub' : Publisher} (h : Counted node pub rows) (clear : pub.reliableCache.Clear (pub.seqNo + 1))
    (st : Stores node pub pub' cdr limit route) : ∃ kept own, Entry node pub pub' rows cdr limit kept own := by
  have cache := st.cache
  rw [checkAndCacheSample_eq] at cache
  obtain ⟨⟨rows₁, roomed⟩, how⟩ := @makeDepthRoom_roomed node pub rows cdr limit
    (sampleDatagramCount node cdr limit) route h.tallied
  -- the flag stays on only where the room is the cache itself, and the sample is one it covers
  by_cases flag : pub.reliableCache.sampleDepth = 0 ∨ (pub.makeDepthRoom node cdr limit route
      (sampleDatagramCount node cdr limit)).depthAssuredDatagrams = 0
  · have clear₁ := roomed.clear h.tallied (by
      intro zero
      cases how with
      | keepAll _ books => exact (congrArg (fun books => books.2.1) books).trans zero
      | unbounded _ same => rw [same]; exact zero
      | covered same _ _ => rw [same]; exact zero
      | fits off _ => exact off
      | short off _ => exact off) clear
    obtain ⟨kept, own, e⟩ := @ReliableCache.Tallied.store _ rows₁ node cdr limit route.now (pub.seqNo + 1)
      roomed.tallied clear₁
    rw [← cache] at e
    exact ⟨kept, own, .counted _ rows₁ flag roomed how e⟩
  · rw [not_or] at flag
    obtain ⟨on, flag⟩ := flag
    cases how with
    | keepAll all _ => exact absurd (h.keepAll all) on
    | unbounded none_ _ => exact absurd none_ on
    | fits off _ => exact absurd off flag
    | short off _ => exact absurd off flag
    | covered same datagrams len =>
      rw [same] at flag cache
      obtain ⟨kept, own, e⟩ := @ReliableCache.Tallied.store pub.reliableCache rows node cdr limit route.now
        (pub.seqNo + 1) h.tallied clear
      rw [← cache] at e
      exact ⟨kept, own, .assured on flag datagrams len e⟩

/-- A step that stores a sample whose seq_nos are free. -/
theorem Counted.stores {pub' : Publisher} {kept own : List Held} (h : Counted node pub rows)
    (clear : pub.reliableCache.Clear (pub.seqNo + 1)) (st : Stores node pub pub' cdr limit route)
    (entry : Entry node pub pub' rows cdr limit kept own) : Counted node pub' (kept ++ own) := by
  have span_le : sampleDatagramCount node cdr node.fragWholeLimit ≤ 64 := sampleDatagramCount_le st.short
  have span_ge : sampleDatagramCount node cdr limit ≤ sampleDatagramCount node cdr node.fragWholeLimit := by
    by_cases many : sampleDatagramCount node cdr limit > 1
    · rw [sampleDatagramCount_eq st.limit_le many]
    · have := sampleDatagramCount_pos node cdr node.fragWholeLimit
      omega
  cases entry with
  | assured on flag covered _ e =>
    rw [covered] at e
    obtain ⟨depth, spaced⟩ := h.spaced on flag
    have used : pub.reliableCache.ringDepth ≠ 0 := by
      rw [depth]
      exact Nat.mul_ne_zero on flag
    have before : ∀ a ∈ rows, seqDelta a.seqNo (pub.seqNo + 1) < 0 := by
      rcases clear with before | ⟨_, off, _⟩
      · cases h.tallied with
        | blank blank _ _ => exact absurd blank.unused used
        | window window _ => exact window.before_of_clear before
      · exact absurd off flag
    obtain ⟨bound, stays, moves⟩ := e.spaced used (Nat.pos_of_ne_zero flag) depth spaced before
    have same_flag : pub'.reliableCache.depthAssuredDatagrams = pub.reliableCache.depthAssuredDatagrams :=
      congrArg (fun books => books.2.1) e.books
    refine ⟨st.claims h.claims, ?_, e.tallied, ?_, ?_⟩
    · rw [st.keepAll, e.sampleDepth]
      exact h.keepAll
    · intro _
      rw [e.sampleDepth]
      exact bound
    · intro _ _
      rw [e.ringDepth, e.sampleDepth, same_flag]
      refine ⟨depth, ?_⟩
      rcases st.seqNo with failed | sent
      · rw [failed]
        exact stays
      · rw [sent, ← plus_succ_right, plus_succ]
        exact moves _ (by omega) (by omega)
  | counted room rows₁ off roomed how e =>
    have samples : pub'.reliableCache.sampleDepth = pub.reliableCache.sampleDepth :=
      e.sampleDepth.trans roomed.sampleDepth
    have flag : pub'.reliableCache.depthAssuredDatagrams = room.depthAssuredDatagrams :=
      congrArg (fun books => books.2.1) e.books
    refine ⟨st.claims h.claims, ?_, e.tallied, ?_, ?_⟩
    · rw [st.keepAll, samples]
      exact h.keepAll
    · intro on
      rw [samples] at on ⊢
      have := e.bound (by rw [roomed.sampleDepth]; exact on) (off.resolve_left on)
      rwa [roomed.sampleDepth] at this
    · intro on flag'
      rw [samples] at on
      rw [flag] at flag'
      exact absurd (off.resolve_left on) flag'

/-- What a run is asked: a sample is stored only where its seq_nos are free. -/
def Event.Clear (node : Context) (pub : Publisher) (event : Event) : Prop :=
  (pub.stored node event).isSome = true → pub.reliableCache.Clear (pub.seqNo + 1)

instance (node : Context) (pub : Publisher) (event : Event) : Decidable (event.Clear node pub) :=
  inferInstanceAs (Decidable (_ → _))

theorem Counted.step (h : Counted node pub rows) (event : Event) (clear : event.Clear node pub) :
    ∃ rows', Counted node (pub.step node event) rows' := by
  rcases step_cases h.claims event with ⟨_, quiet⟩ | ⟨cdr, limit, route, stored_, stores⟩
  · exact ⟨rows, h.quiet quiet⟩
  · have free := clear (by rw [stored_]; rfl)
    obtain ⟨kept, own, entry⟩ := h.entry free stores
    exact ⟨_, h.stores free stores entry⟩

theorem create_counted {opts : PublisherOptions} (created : opts.Created) : Counted node (create opts) [] := by
  have tallied : (create opts).reliableCache.Tallied [] := by
    rcases Nat.eq_zero_or_pos (create opts).reliableCache.ringDepth with unused | used
    · exact .blank ⟨unused, rfl, fun _ => rfl⟩ rfl rfl
    · have window := History.window_nil used rfl (fun _ => rfl)
      refine .window window ?_
      rw [window.starts]
      rfl
  refine ⟨by simp [ClaimsFit, create], ?_, tallied, ?_, ?_⟩
  · intro all
    simp only [create, Bool.and_eq_true] at all ⊢
    rw [all.1, if_pos rfl]
  · intro _
    exact Nat.zero_le _
  · intro _ on
    have on' : opts.assuredDatagrams ≠ 0 := by
      intro off
      apply on
      simp only [create, off]
      split
      · rfl
      · rfl
    obtain ⟨assures, arena⟩ := created.assures on'
    refine ⟨?_, .nil, by simp⟩
    have capacity : 0 < opts.capacity := by
      rw [assures.ring]
      exact Nat.mul_pos assures.depth (Nat.pos_of_ne_zero on')
    simp only [create, ReliableCache.ringDepth, ReliableCache.init, assures.keepLast, Bool.false_eq_true, if_false]
    rw [if_neg (by omega), if_pos ⟨capacity, Nat.le_refl _⟩]
    exact assures.ring

end Publisher

/-- The sample count of a cache is right: it is the number of retained records that start a sample, within the
depth, and the bound in samples evicts only with that many retained. -/
structure ReliableCache.CountsSamples (c : ReliableCache) : Prop where
  exact_ : c.retainedSamples = c.starts c.ringDepth
  bound : c.sampleDepth ≠ 0 → c.starts c.ringDepth ≤ c.sampleDepth
  evicts : Sheds (fun rows => c.sampleDepth ≤ ReliableCache.beginnings rows) (c.held c.ringDepth)
    (c.admitSample.held c.ringDepth)

namespace Publisher

theorem Counted.countsSamples {node : Context} {pub : Publisher} {rows : List Held} (h : Counted node pub rows) :
    pub.reliableCache.CountsSamples := by
  cases h.tallied with
  | blank blank zero none_ =>
    have retains : pub.reliableCache.retains = false := by simp [ReliableCache.retains, blank.origin]
    have held : pub.reliableCache.held pub.reliableCache.ringDepth = [] := ReliableCache.held_of_not_retains retains
    refine ⟨?_, ?_, ?_⟩
    · rw [zero, ReliableCache.starts, held]
      rfl
    · rw [ReliableCache.starts, held]
      intro _
      exact Nat.zero_le _
    · rw [ReliableCache.admitSample_unused blank.unused]
      exact .refl _
  | window window exact_ =>
    refine ⟨exact_, ?_, ?_⟩
    · rw [window.starts]
      exact h.bound
    · obtain ⟨kept, a⟩ := window.admitSample rfl exact_
      rw [window.held, a.window.held]
      exact a.sheds.mono fun _ asked => asked.2.2

/-- Failed sends, growths and evictions included: as long as every sample stored finds its seq_nos free, the count
is exact in every state of the run. -/
theorem countsSamples_of_clear (node : Context) {opts : PublisherOptions} (created : opts.Created) (events : List Event)
    (clear : Run.Sound (step node) (fun pub event => event.Clear node pub) (create opts) events) :
    (Run.after (step node) (create opts) events).reliableCache.CountsSamples := by
  have kept : ∀ pub event, (∃ rows, Counted node pub rows) → event.Clear node pub →
      ∃ rows, Counted node (pub.step node event) rows := by
    rintro pub event ⟨rows, counted⟩ free
    exact counted.step event free
  obtain ⟨rows, counted⟩ := Run.keeps kept ⟨[], create_counted created⟩ clear
  exact counted.countsSamples

/-- A sample, and one more whose send fails. -/
theorem countsSamples_failed_send :
    (Run.after (step smallLink) (create (shortHistory 600))
      [.publish (List.replicate 4 0) plainRoute,
        .publish (List.replicate 4 0) { plainRoute with sent := false }]).reliableCache.CountsSamples ∧
    (Run.after (step smallLink) (create (shortHistory 600))
      [.publish (List.replicate 4 0) plainRoute,
        .publish (List.replicate 4 0) { plainRoute with sent := false }]).reliableCache.retainedSamples = 2 := by
  refine ⟨countsSamples_of_clear smallLink (.byHand _ rfl) _ ?_, by decide +kernel⟩
  decide +kernel

/-- The failed sample published again: its record is buried in its slot, counted still, and counted once more. -/
theorem counted_twice :
    ¬ ∀ (node : Context) (opts : PublisherOptions), opts.Created → ∀ events : List Event,
      (Run.after (step node) (create opts) events).reliableCache.CountsSamples := by
  intro h
  have counts := (h smallLink (shortHistory 600) (.byHand _ rfl)
    [.publish (List.replicate 4 0) { plainRoute with sent := false },
      .publish (List.replicate 4 0) plainRoute]).exact_
  revert counts
  decide +kernel

end Publisher

end Tickle
