import Tickle.Run
import Tickle.Writer.Window

/-! # The history a cache is a window of

Reserves, evictions and growths in any order, with the list of what was stored. The cache holds the end of
that list, and finds a record only under the seq_no it was last stored under (`Faithful`). Records start on
multiples of 4 as long as the arena grows only while every record held is a multiple of 4 long: growing
packs them by their lengths (`Gentle`).
-/

namespace Tickle

open Serial Loop RingArena

/-- The record with the seq_no of its header set. -/
def Record.under (seqNo : SeqNo) : Record → Record
  | .data _ cdr => .data seqNo cdr
  | .fragFirst _ count payload => .fragFirst seqNo count payload
  | .fragCont _ index count payload => .fragCont seqNo index count payload

@[simp] theorem Record.under_seqNo (seqNo : SeqNo) (record : Record) : (record.under seqNo).seqNo = seqNo := by
  cases record <;> rfl

@[simp] theorem Record.under_length (seqNo : SeqNo) (record : Record) :
    (record.under seqNo).length = record.length := by
  cases record <;> rfl

theorem Record.length_pos (record : Record) : 0 < record.length := by
  cases record with
  | data seqNo cdr => simp only [Record.length, dataFraming]; omega
  | fragFirst seqNo count payload => exact Nat.add_pos_left (ReliableCache.fragHeaderLength_pos 0) _
  | fragCont seqNo index count payload => exact Nat.add_pos_left (ReliableCache.fragHeaderLength_pos 1) _

/-- The record found under `x`, as `find_resendable_cache_entry()` finds it: `none` is gone. -/
def ReliableCache.lookup (c : ReliableCache) (x : SeqNo) : Option Record :=
  if c.slotLive c.ringDepth x then c.arena (c.slot c.ringDepth x).offset else none

/-- A cache and everything stored in it, oldest first. -/
structure History where
  cache : ReliableCache
  stored : List (SeqNo × Record)

/-- What happens to a cache: a record stored `ahead` of the newest seq_no, a seq_no passed with nothing to
store, the oldest sample evicted, the arena grown. -/
inductive StoreEvent
  | store (ahead : Nat) (record : Record) (now : Nat)
  | pass (ahead now : Nat)
  | evict
  | grow (size : Nat)
  deriving DecidableEq, Repr

namespace History

/-- What was last stored under `x`. -/
def last (stored : List (SeqNo × Record)) (x : SeqNo) : Option Record :=
  (stored.reverse.find? fun entry => entry.1 = x).map Prod.snd

def step (s : History) : StoreEvent → History
  | .store ahead record now =>
    let seqNo := plus s.cache.newestSeqNo ahead
    let cached := s.cache.cacheRecord seqNo record.length now (record.under seqNo)
    ⟨cached.1, if cached.2.isSome then s.stored ++ [(seqNo, record.under seqNo)] else s.stored⟩
  | .pass ahead now =>
    ⟨(s.cache.reserve (plus s.cache.newestSeqNo ahead) 0 now).1, s.stored⟩
  | .evict => ⟨s.cache.evictOldest s.cache.ringDepth, s.stored⟩
  | .grow size =>
    match s.cache.grow size with
    | some grown => ⟨grown, s.stored⟩
    | none => s

/-- Seq_nos come serially after the newest, a record's length fits its entry's 16 bits, and the arena grows
only while every record held is a multiple of 4 long. -/
def Gentle (s : History) : StoreEvent → Prop
  | .store ahead record _ => 1 ≤ ahead ∧ ahead < 2 ^ 31 ∧ record.length < 65536
  | .pass ahead _ => 1 ≤ ahead ∧ ahead < 2 ^ 31
  | .evict => True
  | .grow size => (s.cache.grow size).isSome → ∀ h ∈ s.cache.held s.cache.ringDepth, h.len % 4 = 0

/-! ## The window of the history -/

/-- Every record held starts on a multiple of 4, and so will the next. -/
def Aligned (c : ReliableCache) (rows : List Held) : Prop :=
  (∀ h ∈ rows, h.offset % 4 = 0) ∧ (rows ≠ [] → c.tail % 4 = 0)

/-- `rows` is what the cache holds: the end of what was stored. -/
structure Windowed (s : History) (rows : List Held) : Prop where
  window : s.cache.Window s.cache.ringDepth rows
  suffix : rows.map (fun h => (h.seqNo, h.record)) <:+ s.stored.map fun entry => (entry.1, some entry.2)
  aligned : Aligned s.cache rows

/-- A cache nothing was ever stored in. -/
structure Blank (c : ReliableCache) : Prop where
  unused : c.ringDepth = 0
  origin : c.slotOrigin = 0
  index : ∀ i, (c.index i).len = 0

def Faithful (s : History) : Prop := Blank s.cache ∨ ∃ rows, s.Windowed rows

/-- A cache that retains nothing and names nothing is an empty window. -/
theorem window_nil {c : ReliableCache} (pos : 0 < c.ringDepth) (origin : c.slotOrigin = 0)
    (index : ∀ i, (c.index i).len = 0) : c.Window c.ringDepth [] := by
  have retains : c.retains = false := by simp [ReliableCache.retains, origin]
  refine ⟨⟨pos, c.ringDepth_lt, ?_, ?_, ?_⟩, ?_, ReliableCache.held_of_not_retains retains, by simp, by simp, ?_⟩
  · intro h; rw [retains] at h; cases h
  · intro h; rw [retains] at h; cases h
  · intro h; rw [retains] at h; cases h
  · intro h; rw [retains] at h; cases h
  · intro i len
    exact absurd (index i) len

/-- Growing gives a blank cache its arena, and a ring to use. -/
theorem Blank.grow {c grown : ReliableCache} {size : Nat} (blank : Blank c) (some_ : c.grow size = some grown) :
    (Blank grown ∨ grown.Window grown.ringDepth []) ∧
      grown = { c with arenaSize := size, arena := fun _ => none } := by
  have fields : grown = { c with arenaSize := size, arena := fun _ => none } := by
    unfold ReliableCache.grow at some_
    split at some_
    · cases some_
    · split at some_
      · cases some_
      · simp only at some_
        rw [if_pos blank.unused, Option.some.injEq] at some_
        exact some_.symm
  have origin : grown.slotOrigin = 0 := by
    rw [fields]
    exact blank.origin
  have index : ∀ i, (grown.index i).len = 0 := by
    intro i
    rw [fields]
    exact blank.index i
  refine ⟨?_, fields⟩
  rcases Nat.eq_zero_or_pos grown.ringDepth with unused | used
  · exact .inl ⟨unused, origin, index⟩
  · exact .inr (window_nil used origin index)

theorem roundup_mod (n : Nat) : roundup n % 4 = 0 := by
  unfold roundup
  omega

variable {s : History} {rows : List Held} {ahead : Nat}

/-- What is left of the window after evictions is the end of the history still. -/
theorem suffix_of_sheds {demand demand' : List Held → Prop} {mid kept : List Held} {stored : List (SeqNo × Option Record)}
    (suffix : rows.map (fun h => (h.seqNo, h.record)) <:+ stored) (sheds : Sheds demand rows mid)
    (sheds' : Sheds demand' mid kept) : kept.map (fun h => (h.seqNo, h.record)) <:+ stored := by
  obtain ⟨gone, rfl⟩ := sheds.suffix
  obtain ⟨gone', rfl⟩ := sheds'.suffix
  refine List.IsSuffix.trans ?_ suffix
  simp only [List.map_append]
  exact (List.suffix_append _ _).trans (List.suffix_append _ _)

theorem offset_aligned {size tail footprint offset : Nat} {segs : List (Nat × Nat)} (aligned : tail % 4 = 0)
    (fits : Fits size segs tail footprint offset) : offset % 4 = 0 := by
  rcases fits with ⟨_, _, rfl⟩ | ⟨_, _, _, rfl⟩ | ⟨_, _, rfl⟩
  · exact aligned
  · rfl
  · exact aligned

theorem Windowed.store (h : s.Windowed rows) (record : Record) (now : Nat) (pos : 1 ≤ ahead) (near : ahead < 2 ^ 31) :
    ∃ rows', (s.step (.store ahead record now)).Windowed rows' := by
  have fresh := h.window.fresh pos near
  by_cases fit : roundup record.length ≤ s.cache.arenaSize
  · obtain ⟨mid, kept, offset, place, st⟩ := h.window.cacheRecord now (record.under _) fresh rfl
      record.length_pos fit (Record.under_length _ _) (Record.under_seqNo _ _)
    have kept_mem : ∀ x ∈ kept, x ∈ rows := by
      obtain ⟨gone, rfl⟩ := st.count.suffix
      obtain ⟨gone', rfl⟩ := st.bytes.suffix
      intro x mem
      simp [mem]
    have offset_mod : offset % 4 = 0 := by
      by_cases empty : kept = []
      · rw [st.zero empty]
      · have tail : s.cache.tail % 4 = 0 := by
          apply h.aligned.2
          obtain ⟨x, rest, rfl⟩ := List.exists_cons_of_ne_nil empty
          exact List.ne_nil_of_mem (kept_mem x (by simp))
        exact offset_aligned tail (st.fits empty)
    have window := st.window
    rw [← st.ringDepth] at window
    refine ⟨_, window, ?_, ?_, ?_⟩
    · simp only [step, place, Option.isSome_some, if_true, List.map_append, List.map_cons, List.map_nil]
      have suffix := suffix_of_sheds h.suffix st.count st.bytes
      obtain ⟨pre, parts⟩ := suffix
      exact ⟨pre, by rw [← parts]; simp⟩
    · intro x mem
      rcases List.mem_append.mp mem with mem | mem
      · exact h.aligned.1 x (kept_mem x mem)
      · rw [List.mem_singleton.mp mem]
        exact offset_mod
    · intro _
      have tail : (s.step (.store ahead record now)).cache.tail = _ := st.tail
      have := roundup_mod record.length
      rw [tail]
      omega
  · obtain ⟨none_, kept, sk⟩ := h.window.cacheRecord_tombstone now (record.under (plus s.cache.newestSeqNo ahead))
      fresh rfl (.inr (Nat.lt_of_not_le fit))
    refine ⟨kept, ?_, ?_, ?_, ?_⟩
    · have := sk.window
      rw [← sk.ringDepth] at this
      exact this
    · simp only [step, none_, Option.isSome_none, Bool.false_eq_true, if_false]
      exact suffix_of_sheds h.suffix sk.count (.refl kept : Sheds (fun _ => True) kept kept)
    · intro x mem
      obtain ⟨gone, rfl⟩ := sk.count.suffix
      exact h.aligned.1 x (by simp [mem])
    · intro ne
      obtain ⟨gone, rfl⟩ := sk.count.suffix
      have tail : (s.step (.store ahead record now)).cache.tail = s.cache.tail := sk.tail ne
      rw [tail]
      exact h.aligned.2 (by simp [ne])

theorem Windowed.pass (h : s.Windowed rows) (now : Nat) (pos : 1 ≤ ahead) (near : ahead < 2 ^ 31) :
    ∃ rows', (s.step (.pass ahead now)).Windowed rows' := by
  obtain ⟨none_, kept, sk⟩ := h.window.cacheRecord_tombstone now (.data 0 []) (h.window.fresh pos near) rfl (.inl rfl)
  have same : (s.step (.pass ahead now)).cache =
      (s.cache.cacheRecord (plus s.cache.newestSeqNo ahead) 0 now (.data 0 [])).1 := by
    simp only [ReliableCache.cacheRecord] at none_
    simp only [step, ReliableCache.cacheRecord, none_]
    rfl
  obtain ⟨gone, parts⟩ := sk.count.suffix
  refine ⟨kept, ?_, ?_, ?_, ?_⟩
  · rw [same, sk.ringDepth]
    exact sk.window
  · exact suffix_of_sheds h.suffix sk.count (.refl kept : Sheds (fun _ => True) kept kept)
  · intro x mem
    exact h.aligned.1 x (by simp [parts, mem])
  · intro ne
    rw [same, sk.tail ne]
    exact h.aligned.2 (by simp [parts, ne])

theorem Windowed.evict (h : s.Windowed rows) : ∃ rows', (s.step .evict).Windowed rows' := by
  by_cases empty : rows = []
  · subst empty
    have : s.step .evict = s := by
      show (⟨s.cache.evictOldest s.cache.ringDepth, s.stored⟩ : History) = s
      rw [ReliableCache.evictOldest_of_not_retains h.window.not_retains]
    rw [this]
    exact ⟨[], h⟩
  · obtain ⟨first, conts, rest, parts, _, _, he, window, _⟩ := h.window.evictOldest empty
    subst parts
    refine ⟨rest, ?_, ?_, ?_, ?_⟩
    · have : (s.cache.evictOldest s.cache.ringDepth).ringDepth = s.cache.ringDepth := he.store.ringDepth
      show ReliableCache.Window _ (s.cache.evictOldest s.cache.ringDepth).ringDepth rest
      rw [this]
      exact window
    · refine List.IsSuffix.trans ?_ h.suffix
      rw [List.map_append]
      exact List.suffix_append _ _
    · intro x mem
      exact h.aligned.1 x (by simp [mem])
    · intro ne
      have tail : (s.step .evict).cache.tail = s.cache.tail := (he.range (window.retains ne)).2.2.1
      rw [tail]
      exact h.aligned.2 (by simp)

theorem relocate_aligned {offset : Nat} (start : offset % 4 = 0) (even : ∀ h ∈ rows, h.len % 4 = 0) :
    (∀ h ∈ relocate offset rows, h.offset % 4 = 0) ∧
      (offset + heldBytes rows) % 4 = 0 := by
  induction rows generalizing offset with
  | nil => simpa [relocate, heldBytes] using start
  | cons x rows ih =>
    have here := even x (by simp)
    obtain ⟨rest, sum⟩ := @ih (offset + x.len) (by omega) (fun h mem => even h (by simp [mem]))
    refine ⟨?_, ?_⟩
    · intro h mem
      rw [relocate] at mem
      rcases List.mem_cons.mp mem with rfl | mem
      · exact start
      · exact rest h mem
    · simp only [heldBytes, List.map_cons, List.sum_cons] at sum ⊢
      omega

theorem Windowed.grow {size : Nat} {grown : ReliableCache} (h : s.Windowed rows) (some_ : s.cache.grow size = some grown)
    (even : ∀ h ∈ s.cache.held s.cache.ringDepth, h.len % 4 = 0) :
    ∃ rows', (⟨grown, s.stored⟩ : History).Windowed rows' := by
  obtain ⟨packed, window⟩ := h.window.grow rfl some_
  rw [h.window.held] at even
  obtain ⟨offsets, sum⟩ := @relocate_aligned rows 0 rfl even
  refine ⟨_, ?_, ?_, offsets, ?_⟩
  · show grown.Window grown.ringDepth _
    rw [packed.grown.ringDepth]
    exact window
  · have same : ∀ offset, (relocate offset rows).map (fun h => (h.seqNo, h.record)) =
        rows.map fun h => (h.seqNo, h.record) := by
      intro offset
      clear h even packed window offsets sum
      induction rows generalizing offset with
      | nil => rfl
      | cons x rows ih => simp [relocate, ih]
    rw [same]
    exact h.suffix
  · intro _
    show grown.tail % 4 = 0
    rw [packed.tail]
    simpa using sum

theorem Faithful.step (h : s.Faithful) (event : StoreEvent) (gentle : s.Gentle event) : (s.step event).Faithful := by
  rcases h with blank | ⟨rows, h⟩
  · -- nothing to store in: only a growth that gives the cache its arena changes anything
    have noop : ∀ x length now, s.cache.reserve x length now = (s.cache, none) := by
      intro x length now
      unfold ReliableCache.reserve
      simp only
      rw [if_pos blank.unused]
    have retains : s.cache.retains = false := by simp [ReliableCache.retains, blank.origin]
    cases event with
    | store ahead record now =>
      left
      simp only [History.step, ReliableCache.cacheRecord, noop, ReliableCache.writeRecord]
      exact blank
    | pass ahead now =>
      left
      simp only [History.step, noop]
      exact blank
    | evict =>
      left
      simp only [History.step, ReliableCache.evictOldest_of_not_retains retains]
      exact blank
    | grow size =>
      simp only [History.step]
      cases some_ : s.cache.grow size with
      | none => exact .inl blank
      | some grown =>
        rcases (blank.grow some_).1 with still | window
        · exact .inl still
        · refine .inr ⟨[], window, ?_, ?_⟩
          · exact List.nil_suffix
          · exact ⟨by simp, by simp⟩
  · cases event with
    | store ahead record now => exact .inr (h.store record now gentle.1 gentle.2.1)
    | pass ahead now => exact .inr (h.pass now gentle.1 gentle.2)
    | evict => exact .inr h.evict
    | grow size =>
      simp only [History.step]
      cases some_ : s.cache.grow size with
      | none => exact .inr ⟨rows, h⟩
      | some grown => exact .inr (h.grow some_ (gentle (by rw [some_]; rfl)))

/-! ## Looking up -/

/-- What is found under a seq_no is held under it. -/
theorem Windowed.lookup (h : s.Windowed rows) {x : SeqNo} {r : Record} (found : s.cache.lookup x = some r) :
    ∃ row ∈ rows, row.seqNo = x ∧ row.record = some r := by
  unfold ReliableCache.lookup at found
  split at found
  · next live =>
    have at_ := ReliableCache.heldAt_of_live live
    rw [ReliableCache.slotLive_iff, ReliableCache.slot] at live
    obtain ⟨hc, _, within⟩ := h.window.live _ live.1
    rw [live.2] at within
    refine ⟨⟨x, (s.cache.slot s.cache.ringDepth x).offset, (s.cache.slot s.cache.ringDepth x).len,
      s.cache.arena (s.cache.slot s.cache.ringDepth x).offset⟩, ?_, rfl, found⟩
    rw [← h.window.held, ReliableCache.held, if_pos hc]
    exact ReliableCache.mem_heldFrom.mpr ⟨steps s.cache.oldestSeqNo x, by omega, by rw [plus_steps]; exact at_⟩
  · cases found

/-- A record of the history's end is the last stored under its seq_no. -/
theorem Windowed.last (h : s.Windowed rows) {row : Held} {r : Record} (mem : row ∈ rows) (record : row.record = some r) :
    last s.stored row.seqNo = some r := by
  obtain ⟨pre, parts⟩ := h.suffix
  obtain ⟨before, tail_, rfl⟩ := List.append_of_mem mem
  -- nothing behind it is under the same seq_no
  have later : ∀ y ∈ tail_, y.seqNo ≠ row.seqNo := by
    intro y memY same
    have := List.pairwise_append.mp h.window.sorted
    have := (List.pairwise_cons.mp this.2.1).1 y memY
    rw [same] at this
    omega
  obtain ⟨stored, rest, split, front, back⟩ := List.append_eq_map_iff.mp parts
  rw [List.map_append] at back
  obtain ⟨before', rest', split', _, back'⟩ := List.map_eq_append_iff.mp back
  rw [List.map_cons] at back'
  obtain ⟨entry, tail', split'', here, behind⟩ := List.map_eq_cons_iff.mp back'
  obtain ⟨name, value⟩ := Prod.mk.inj here
  rw [record, Option.some.injEq] at value
  have clear : ∀ e ∈ tail'.reverse, ¬ (decide (e.1 = row.seqNo) = true) := by
    intro e memE
    rw [List.mem_reverse] at memE
    have : (e.1, some e.2) ∈ tail_.map fun h => (h.seqNo, h.record) := by
      rw [← behind]
      exact List.mem_map_of_mem memE
    obtain ⟨y, memY, eq⟩ := List.mem_map.mp this
    have := later y memY
    rw [(Prod.mk.inj eq).1] at this
    simpa using this
  unfold History.last
  rw [split, split', split'']
  simp only [List.reverse_append, List.reverse_cons, List.append_assoc, List.find?_append]
  rw [List.find?_eq_none.mpr clear]
  simp [name, value]

/-- The state a cache is created in. -/
def create (capacity arenaSize : Nat) (h : capacity < 65536) : History :=
  ⟨ReliableCache.init capacity arenaSize h, []⟩

theorem create_faithful (capacity arenaSize : Nat) (h : capacity < 65536) : (create capacity arenaSize h).Faithful := by
  rcases Nat.eq_zero_or_pos (create capacity arenaSize h).cache.ringDepth with unused | used
  · exact .inl ⟨unused, rfl, fun _ => rfl⟩
  · exact .inr ⟨[], window_nil used rfl (fun _ => rfl), List.nil_suffix, by simp, by simp⟩

/-- Nothing is found but what was last stored, what is held is the end of what was stored within one ring of
seq_nos, records lie apart on multiples of 4 inside the arena, and a reserve finds a place whatever its length. -/
structure Exact (s : History) : Prop where
  found : ∀ x r, s.cache.lookup x = some r → last s.stored x = some r
  newest : (s.cache.held s.cache.ringDepth).map (fun h => (h.seqNo, h.record)) <:+
    s.stored.map fun entry => (entry.1, some entry.2)
  ring : ∀ h ∈ s.cache.held s.cache.ringDepth, steps h.seqNo s.cache.newestSeqNo < s.cache.ringDepth
  apart : ((s.cache.held s.cache.ringDepth).map Held.seg).Pairwise Disjoint
  inside : ∀ h ∈ s.cache.held s.cache.ringDepth, h.offset % 4 = 0 ∧ h.offset + h.len ≤ s.cache.arenaSize
  place : ∀ ahead length now, s.cache.ringDepth ≠ 0 → 1 ≤ ahead → ahead < 2 ^ 31 → 0 < length →
    roundup length ≤ s.cache.arenaSize → ∃ offset, offset % 4 = 0 ∧ offset + roundup length ≤ s.cache.arenaSize ∧
      (s.cache.reserve (plus s.cache.newestSeqNo ahead) length now).2 = some offset

theorem Windowed.place (h : s.Windowed rows) {length : Nat} (now : Nat) (pos : 1 ≤ ahead) (near : ahead < 2 ^ 31)
    (hlen : 0 < length) (hfit : roundup length ≤ s.cache.arenaSize) :
    ∃ offset, offset % 4 = 0 ∧ offset + roundup length ≤ s.cache.arenaSize ∧
      (s.cache.reserve (plus s.cache.newestSeqNo ahead) length now).2 = some offset := by
  obtain ⟨gone, kept, offset, parts, place, zero, fits⟩ := h.window.reserve_place now (h.window.fresh pos near) rfl hlen hfit
  refine ⟨offset, ?_, ?_, place⟩
  · by_cases empty : kept = []
    · rw [zero empty]
    · exact offset_aligned (h.aligned.2 (by simp [parts, empty])) (fits empty)
  · by_cases empty : kept = []
    · rw [zero empty]
      omega
    · obtain ⟨first, rest, rfl⟩ := List.exists_cons_of_ne_nil empty
      have inside : 0 < first.seg.2 ∧ first.seg.1 + first.seg.2 ≤ s.cache.arenaSize :=
        (h.window.laid (by simp [parts])).inside (by simp [parts])
      have := fits empty
      simp only [Fits, List.map_cons, headOffset] at this
      omega

theorem Windowed.exact_ (h : s.Windowed rows) : s.Exact where
  found := by
    intro x r found
    obtain ⟨row, mem, rfl, record⟩ := h.lookup found
    exact h.last mem record
  newest := by
    rw [h.window.held]
    exact h.suffix
  ring := by
    intro x mem
    obtain ⟨hc, i, le, name, _⟩ := ReliableCache.mem_held mem
    have within := h.window.ranged.within hc
    have turn := h.window.ranged.depth_lt
    have here : steps s.cache.oldestSeqNo x.seqNo = i := by rw [name, steps_plus _ (by omega)]
    have := @steps_split s.cache.oldestSeqNo x.seqNo s.cache.newestSeqNo (by omega)
    omega
  apart := by
    rw [h.window.held]
    by_cases empty : rows = []
    · subst empty
      exact .nil
    · exact (h.window.laid empty).disjoint
  inside := by
    rw [h.window.held]
    intro x mem
    have inside := (h.window.laid (List.ne_nil_of_mem mem)).inside (List.mem_map_of_mem mem)
    exact ⟨h.aligned.1 x mem, inside.2⟩
  place := fun ahead length now _ pos near hlen hfit => h.place now pos near hlen hfit

theorem Faithful.exact_ (h : s.Faithful) : s.Exact := by
  rcases h with blank | ⟨rows, h⟩
  · have retains : s.cache.retains = false := by simp [ReliableCache.retains, blank.origin]
    have held : s.cache.held s.cache.ringDepth = [] := ReliableCache.held_of_not_retains retains
    refine ⟨?_, by rw [held]; exact List.nil_suffix, by simp [held], by simp [held], by simp [held], ?_⟩
    · intro x r found
      have gone : s.cache.slotLive s.cache.ringDepth x = false := by
        simp [ReliableCache.slotLive, ReliableCache.slot, blank.index]
      rw [ReliableCache.lookup, gone] at found
      cases found
    · intro _ _ _ used
      exact absurd blank.unused used
  · exact h.exact_

/-- The retained cache is a faithful window of what was stored in it. -/
theorem exact_of_gentle (capacity arenaSize : Nat) (h : capacity < 65536) (events : List StoreEvent)
    (gentle : Run.Sound step Gentle (create capacity arenaSize h) events) :
    (Run.after step (create capacity arenaSize h) events).Exact :=
  Faithful.exact_ (Run.keeps (fun _ event faithful gentle => faithful.step event gentle)
    (create_faithful capacity arenaSize h) gentle)

instance (s : History) : (event : StoreEvent) → Decidable (s.Gentle event)
  | .store ahead record _ => inferInstanceAs (Decidable (1 ≤ ahead ∧ ahead < 2 ^ 31 ∧ record.length < 65536))
  | .pass ahead _ => inferInstanceAs (Decidable (1 ≤ ahead ∧ ahead < 2 ^ 31))
  | .evict => inferInstanceAs (Decidable True)
  | .grow size => inferInstanceAs (Decidable
      ((s.cache.grow size).isSome → ∀ h ∈ s.cache.held s.cache.ringDepth, h.len % 4 = 0))

/-- A ring of three slots, which does not divide 2^32, over the wrap of the seq_nos, evicting and growing. -/
theorem exact_over_the_wrap : (Run.after step (create 3 64 (by decide))
    [.pass (2 ^ 31 - 1) 0, .pass (2 ^ 31 - 2) 0, .store 1 (.data 0 [1, 2, 3, 4]) 1, .store 2 (.data 0 []) 2, .grow 128,
      .store 1 (.data 0 (List.replicate 12 7)) 3, .evict, .store 1 (.fragFirst 0 2 [1]) 4]).Exact :=
  exact_of_gentle 3 64 (by decide) _ (by decide +kernel)

/-- Growing packs a fragment's record behind one that is not a multiple of 4 long. -/
theorem grown_unaligned : ¬ (Run.after step (create 4 64 (by decide))
    [.store 1 (.fragFirst 0 2 [1]) 0, .store 1 (.fragCont 0 1 2 [1]) 0, .grow 128]).Exact := by
  intro exact_
  have := exact_.inside ⟨2, 22, 15, some (.fragCont 2 1 2 [1])⟩ (by decide +kernel)
  exact absurd this.1 (by decide)

end History

end Tickle
