import Tickle.Run
import Tickle.Writer.History
import Tickle.Writer.Runs

/-! # The samples a cache counts

`retained_samples` is kept by three functions while records come and go one at a time. It is the number of
records held that start a sample as long as no publish meets a record already retained at or after its first
seq_no: reserving makes a tombstone of such a record without taking it from the count.

* `Took`: one record or tombstone into the window, and which samples it leaves alone;
* `Filled`: the records of one sample, one after the other;
* `Counted`: what every publish keeps.
-/

namespace Tickle

open Serial Loop RingArena

namespace ReliableCache

variable {c c' : ReliableCache} {d : Nat} {rows : List Held} {seqNo : SeqNo}

/-- The samples that begin in these records. -/
def beginnings (rows : List Held) : Nat := rows.countP fun h => !h.continues

theorem beginnings_append (a b : List Held) : beginnings (a ++ b) = beginnings a + beginnings b := by
  unfold beginnings
  rw [List.countP_append]

theorem Window.starts (h : c.Window d rows) : c.starts d = beginnings rows := by
  rw [ReliableCache.starts, h.held]
  rfl

/-! ## One record or tombstone -/

/-- A reserve under `seqNo` of `length` bytes, and the record copied into the place it gave, left `kept` of
what was held; `new` is the record, or nothing where the entry stays a tombstone. -/
structure Took (d : Nat) (c c' : ReliableCache) (rows : List Held) (seqNo : SeqNo) (length : Nat) (record : Record)
    (kept new : List Held) : Prop where
  window : c'.Window d (kept ++ new)
  suffix : ∃ gone, rows = gone ++ kept
  placed : new = [] ∧ (length = 0 ∨ c.arenaSize < roundup length) ∧ (kept ≠ [] → c'.tail = c.tail) ∨
    0 < length ∧ ∃ offset, new = [⟨seqNo, offset, length, some record⟩] ∧ c'.tail = offset + roundup length ∧
      (kept = [] → offset = 0) ∧
      (kept ≠ [] → Fits c.arenaSize (kept.map Held.seg) c.tail (roundup length) offset)
  newest : c'.newestSeqNo = seqNo
  samples : c.retainedSamples = c.starts d → c'.retainedSamples = beginnings kept
  spared : ∀ pre h rest, rows = pre ++ h :: rest → h.continues = false → steps h.seqNo seqNo < d →
    (0 < length → roundup length ≤ c.arenaSize →
      ∃ offset, Fits c.arenaSize ((h :: rest).map Held.seg) c.tail (roundup length) offset) →
    ∃ pre', kept = pre' ++ h :: rest
  arenaSize : c'.arenaSize = c.arenaSize
  ringDepth : c'.ringDepth = c.ringDepth
  sampleDepth : c'.sampleDepth = c.sampleDepth
  books : c'.books = c.books

/-- The ring asks for no sample that begins within its depth of `seqNo`. -/
theorem CountAsks.spares {h : Held} {rest : List Held} (near : steps h.seqNo seqNo < d) :
    ¬ CountAsks d seqNo (h :: rest) := by
  intro asked
  have := asked h rfl
  omega

theorem Window.takes {length : Nat} (h : c.Window d rows) (now : Nat) (record : Record) (fresh : c.Fresh rows seqNo)
    (hd : c.ringDepth = d) (hrl : record.length = length ∨ length = 0) (hrs : record.seqNo = seqNo) :
    ∃ kept new, Took d c (c.cacheRecord seqNo length now record).1 rows seqNo length record kept new ∧
      ((c.cacheRecord seqNo length now record).2.isSome = true ↔ new ≠ []) := by
  by_cases tomb : length = 0 ∨ c.arenaSize < roundup length
  · obtain ⟨none_, kept, sk⟩ := h.cacheRecord_tombstone now record fresh hd tomb
    refine ⟨kept, [], ⟨?_, sk.count.suffix, .inl ⟨rfl, tomb, sk.tail⟩, sk.newest, ?_, ?_, sk.arenaSize, sk.ringDepth,
      sk.sampleDepth, sk.books⟩, ?_⟩
    · rw [List.append_nil]
      exact sk.window
    · intro exact_
      rw [sk.samples exact_, sk.window.starts]
    · intro pre first rest split starts_ near _
      exact sk.count.keeps split starts_ (CountAsks.spares near)
    · simp [none_]
  · have pos : 0 < length := by omega
    have fit : roundup length ≤ c.arenaSize := by omega
    obtain ⟨mid, kept, offset, some_, st⟩ := h.cacheRecord now record fresh hd pos fit
      (hrl.resolve_right (by omega)) hrs
    refine ⟨kept, [⟨seqNo, offset, length, some record⟩], ⟨st.window, ?_, .inr ⟨pos, offset, rfl, st.tail, st.zero, st.fits⟩,
      st.newest, st.samples, ?_, st.arenaSize, st.ringDepth, st.sampleDepth, st.books⟩, ?_⟩
    · obtain ⟨gone, split⟩ := st.count.suffix
      obtain ⟨gone', split'⟩ := st.bytes.suffix
      exact ⟨gone ++ gone', by rw [split, split', List.append_assoc]⟩
    · intro pre first rest split starts_ near room
      obtain ⟨pre', split'⟩ := st.count.keeps split starts_ (CountAsks.spares near)
      apply st.bytes.keeps split' starts_
      intro asked
      obtain ⟨offset, fits⟩ := room pos fit
      exact asked offset fits
    · simp [some_]

/-! ## The records of one sample -/

/-- The records under `first` and the `n - 1` seq_nos behind it are in: `kept` is left of what was held, `own` of
what went in. `keep` says whether they were to be stored at all, `sizes` the arena bytes of each. -/
structure Filled (d : Nat) (c c' : ReliableCache) (rows : List Held) (first : SeqNo) (sizes : List Nat) (keep : Bool)
    (n : Nat) (kept own : List Held) : Prop where
  window : c'.Window d (kept ++ own)
  fresh : c'.Fresh (kept ++ own) (plus first n)
  suffix : ∃ gone, rows = gone ++ kept
  fresh_own : n = 0 → own = []
  within : ∀ h ∈ own, ∃ j < n, h.seqNo = plus first j
  heads : ∀ h ∈ own, h.continues = false → h.seqNo = first
  single : beginnings own ≤ 1
  newest : 0 < n → c'.newestSeqNo = plus first (n - 1)
  samples : c.retainedSamples = c.starts d → c'.retainedSamples = c'.starts d
  spared : ∀ pre h rest, rows = pre ++ h :: rest → h.continues = false → steps h.seqNo first + n ≤ d →
    (keep = true → Room c.arenaSize h.offset c.tail sizes) →
    (∃ pre', kept = pre' ++ h :: rest) ∧ (keep = true → Room c.arenaSize h.offset c'.tail (sizes.drop n))
  whole : keep = true → 2 * sizes.sum ≤ c.arenaSize ∨ sizes.length = 1 → n ≤ d → 0 < n → ∃ o post, own = o :: post ∧
    o.continues = false ∧ o.seqNo = first ∧ own.map (fun h => roundup h.len) = sizes.take n ∧
      Room c.arenaSize o.offset c'.tail (sizes.drop n)
  chained : Chained c.arenaSize roundup (rows.map Held.seg) c.tail →
    Chained c.arenaSize roundup ((kept ++ own).map Held.seg) c'.tail
  arenaSize : c'.arenaSize = c.arenaSize
  ringDepth : c'.ringDepth = c.ringDepth
  sampleDepth : c'.sampleDepth = c.sampleDepth
  books : c'.books = c.books

theorem Window.same (h : c.Window d rows) (hs : Same c c') : c'.Window d rows := by
  have settled : c'.Settled d := by
    intro hc
    rw [slotLive, hs.oldestSeqNo, hs.slot]
    exact h.settled (hs.retains ▸ hc)
  have live : c'.Live d := by
    intro i len
    rw [hs.index] at len ⊢
    rw [hs.retains, slotIndex, hs.slotOrigin, hs.oldestSeqNo, hs.store.newestSeqNo]
    exact h.live i len
  exact @Window.evicted c c' d [] rows h hs.evicts settled live

theorem Fresh.same (h : c.Fresh rows seqNo) (hs : Same c c') : c'.Fresh rows seqNo := by
  constructor
  · rw [hs.retains, hs.oldestSeqNo]
    exact h.reach
  · rw [hs.oldestSeqNo]
    exact h.below

theorem Window.touched (h : c.Window d rows) (ht : Touched c c') : c'.Window d rows := by
  have retains : c'.retains = c.retains := by rw [ht.same]; rfl
  have oldest : c'.oldestSeqNo = c.oldestSeqNo := by rw [ht.same]
  have newest : c'.newestSeqNo = c.newestSeqNo := by rw [ht.same]
  have origin : c'.slotOrigin = c.slotOrigin := by rw [ht.same]
  have arena : c'.arena = c.arena := by rw [ht.same]
  have size : c'.arenaSize = c.arenaSize := by rw [ht.same]
  have tail : c'.tail = c.tail := by rw [ht.same]
  have held : c'.held d = c.held d := by
    unfold ReliableCache.held
    rw [retains, oldest, newest]
    split
    · apply heldFrom_congr
      intro i _
      unfold heldAt
      rw [ht.slotLive, ht.slot, arena]
    · rfl
  refine ⟨⟨h.ranged.depth_pos, h.ranged.depth_lt, ?_, ?_, ?_⟩, ?_, held.trans h.held, ?_, h.records, ?_⟩
  · rw [retains, origin, oldest, newest]
    exact h.ranged.forward
  · rw [retains, origin, newest]
    exact h.ranged.near
  · rw [retains, oldest, newest]
    exact h.ranged.within
  · intro hc
    rw [ht.slotLive, oldest]
    exact h.settled (retains ▸ hc)
  · rw [size, tail]
    exact h.laid
  · intro i len
    rw [ht.index i] at len ⊢
    rw [retains, slotIndex, origin, oldest, newest]
    exact h.live i len

/-- What is left of `kept ++ own` is the end of `own` behind what is left of `kept`. -/
theorem suffix_of_append {gone kept own kept' : List Held} (h : kept ++ own = gone ++ kept') :
    ∃ kept₁ own₁, kept' = kept₁ ++ own₁ ∧ (∃ g, kept = g ++ kept₁) ∧ (∃ g, own = g ++ own₁) ∧
      (kept₁ = [] ∨ own₁ = own) := by
  rcases List.append_eq_append_iff.mp h with ⟨cut, rfl, rfl⟩ | ⟨cut, rfl, rfl⟩
  · exact ⟨[], kept', rfl, ⟨kept, by simp⟩, ⟨cut, rfl⟩, .inl rfl⟩
  · exact ⟨cut, own, rfl, ⟨gone, rfl⟩, ⟨[], rfl⟩, .inr rfl⟩

theorem Filled.start (h : c.Window d rows) (fresh : c.Fresh rows seqNo) (sizes : List Nat) (keep : Bool) :
    Filled d c c rows seqNo sizes keep 0 rows [] where
  window := by rw [List.append_nil]; exact h
  fresh := by rw [List.append_nil, plus_zero]; exact fresh
  suffix := ⟨[], rfl⟩
  fresh_own := fun _ => rfl
  within := by simp
  heads := by simp
  single := by simp [beginnings]
  newest := by simp
  samples := id
  spared := fun pre h rest split _ _ room => ⟨⟨pre, split⟩, room⟩
  whole := by intro _ _ _ pos; exact absurd pos (Nat.lt_irrefl 0)
  chained := by rw [List.append_nil]; exact id
  arenaSize := rfl
  ringDepth := rfl
  sampleDepth := rfl
  books := rfl

theorem beginnings_single {x : SeqNo} {offset length : Nat} {record : Record} :
    beginnings [⟨x, offset, length, some record⟩] = if record.continues then 0 else 1 := by
  cases h : record.continues with
  | true => simp [beginnings, Held.continues, h]
  | false => simp [beginnings, Held.continues, h]

section Next

variable {s s' s'' : ReliableCache} {first : SeqNo} {sizes : List Nat} {keep : Bool} {n length : Nat} {record : Record}
  {kept own kept' new : List Held}

/-- A sample with room for the record, and for more behind it, is left alone; the room for more stays. -/
theorem Took.room {more : List Nat} {pre rest : List Held} {h : Held} (window : s.Window d rows)
    (t : Took d s s' rows seqNo length record kept' new) (split : rows = pre ++ h :: rest) (starts_ : h.continues = false)
    (near : steps h.seqNo seqNo < d) (pos : 0 < length) (fit : roundup length ≤ s.arenaSize)
    (room : Room s.arenaSize h.offset s.tail (roundup length :: more)) :
    (∃ pre', kept' = pre' ++ h :: rest) ∧ Room s.arenaSize h.offset s'.tail more := by
  have foot : 0 < roundup length := Nat.lt_of_lt_of_le pos (le_roundup length)
  obtain ⟨pre', after⟩ := t.spared pre h rest split starts_ near fun _ _ => by
    rw [List.map_cons]
    exact Room.fits room foot
  refine ⟨⟨pre', after⟩, ?_⟩
  rcases t.placed with ⟨_, tomb, _⟩ | ⟨_, offset, _, tail, _, fits⟩
  · omega
  have ne : kept' ≠ [] := by simp [after]
  have laid : Laid s.arenaSize (kept'.map Held.seg) s.tail := by
    obtain ⟨gone, parts⟩ := t.suffix
    have all := window.laid (by rw [parts]; simp [ne])
    rw [parts, List.map_append] at all
    have := all.drop (n := gone.length) (by
      rw [List.length_append, List.length_map, List.length_map]
      have := List.length_pos_iff.mpr ne
      omega)
    rwa [List.drop_left' (by simp)] at this
  have place := fits ne
  rw [after, List.map_append, List.map_cons] at laid place
  rw [tail]
  exact Room.place room laid foot place

theorem drop_next {sizes more : List Nat} {size n : Nat} (next : sizes.drop n = size :: more) :
    sizes.drop (n + 1) = more := by
  rw [← List.drop_drop, next, List.drop_succ_cons, List.drop_zero]

/-- The samples of the window that the next record leaves alone. -/
theorem Filled.spared_next (f : Filled d c s rows first sizes keep n kept own)
    (t : Took d s s' (kept ++ own) (plus first n) length record kept' new)
    (stored : keep = true → 0 < length ∧ roundup length ≤ c.arenaSize ∧ ∃ more, sizes.drop n = roundup length :: more)
    (skipped : keep = false → length = 0 ∨ c.arenaSize < roundup length)
    {pre rest : List Held} {h : Held} (split : rows = pre ++ h :: rest) (starts_ : h.continues = false)
    (near : steps h.seqNo first + (n + 1) ≤ d) (room : keep = true → Room c.arenaSize h.offset c.tail sizes) :
    (∃ pre', kept' = pre' ++ h :: rest ++ own) ∧
      (keep = true → Room c.arenaSize h.offset s'.tail (sizes.drop (n + 1))) := by
  have small_d := f.window.ranged.depth_lt
  obtain ⟨⟨pre₁, keptBefore⟩, roomBefore⟩ := f.spared pre h rest split starts_ (by omega) room
  have split' : kept ++ own = pre₁ ++ h :: (rest ++ own) := by rw [keptBefore]; simp
  have near' : steps h.seqNo (plus first n) < d := by
    rw [steps_plus_of (by omega)]
    omega
  cases hk : keep with
  | true =>
    obtain ⟨pos, fit, more, next⟩ := stored hk
    have here := roomBefore hk
    rw [next, ← f.arenaSize] at here
    obtain ⟨⟨pre₂, after⟩, left⟩ := t.room f.window split' starts_ near' pos (by rw [f.arenaSize]; exact fit) here
    refine ⟨⟨pre₂, by rw [after]; simp⟩, fun _ => ?_⟩
    rw [drop_next next, ← f.arenaSize]
    exact left
  | false =>
    obtain ⟨pre₂, after⟩ := t.spared pre₁ h (rest ++ own) split' starts_ near' fun pos fit => by
      rw [f.arenaSize] at fit
      have := skipped hk
      omega
    exact ⟨⟨pre₂, by rw [after]; simp⟩, fun on => by cases on⟩

/-- The sample's own first record is left alone by the others, in an arena of twice their bytes or where there are none. -/
theorem Filled.whole_next (f : Filled d c s rows first sizes keep n kept own)
    (t : Took d s s' (kept ++ own) (plus first n) length record kept' new)
    (stored : keep = true → 0 < length ∧ roundup length ≤ c.arenaSize ∧ ∃ more, sizes.drop n = roundup length :: more)
    (continuing : record.continues = decide (n ≠ 0)) (hk : keep = true)
    (twice : 2 * sizes.sum ≤ c.arenaSize ∨ sizes.length = 1)
    (le : n + 1 ≤ d) :
    (n ≠ 0 → ∃ pre, kept' = pre ++ own) ∧ ∃ o post, own ++ new = o :: post ∧ o.continues = false ∧ o.seqNo = first ∧
      (own ++ new).map (fun h => roundup h.len) = sizes.take (n + 1) ∧
        Room c.arenaSize o.offset s'.tail (sizes.drop (n + 1)) := by
  obtain ⟨pos, fit, more, next⟩ := stored hk
  have foot : 0 < roundup length := Nat.lt_of_lt_of_le pos (le_roundup length)
  have taken : sizes.take (n + 1) = sizes.take n ++ [roundup length] := by
    rw [List.take_add, next, List.take_succ_cons, List.take_zero]
  have rest_le : roundup length + more.sum ≤ sizes.sum := by
    have := (List.drop_sublist n sizes).sum_le_sum (by simp)
    rwa [next, List.sum_cons] at this
  rcases t.placed with ⟨_, tomb, _⟩ | ⟨_, offset, placed, tail, zero, fits⟩
  · rw [f.arenaSize] at tomb
    omega
  by_cases begins : n = 0
  · have none_ := f.fresh_own begins
    subst begins
    rw [drop_next next, placed, none_, tail]
    refine ⟨fun no => absurd rfl no, _, [], rfl, ?_, by rw [plus_zero], ?_, ?_⟩
    · simp [Held.continues, continuing]
    · rw [taken]
      simp
    · -- it lies at the start of the arena, or so near its end that what spills over stops short of it
      have inside : offset = 0 ∨ offset = s.tail ∧ s.tail + roundup length ≤ c.arenaSize := by
        by_cases ne : kept' = []
        · exact .inl (zero ne)
        · obtain ⟨gone, parts⟩ := t.suffix
          have laid := f.window.laid (by rw [parts]; simp [ne])
          rw [f.arenaSize] at laid
          have place := fits ne
          rw [f.arenaSize] at place
          rw [parts, List.map_append] at laid
          have laid' := laid.drop (n := gone.length) (by
            rw [List.length_append, List.length_map, List.length_map]
            have := List.length_pos_iff.mpr ne
            omega)
          rw [List.drop_left' (by simp)] at laid'
          exact place.offset laid'
      unfold Room
      rw [if_pos (by simp only; omega)]
      refine ⟨by omega, ?_⟩
      by_cases flat : more.sum ≤ c.arenaSize - (offset + roundup length)
      · rw [spill_eq_zero flat]
        exact Nat.zero_le _
      · have := spill_le_sum (c.arenaSize - (offset + roundup length)) more
        simp only
        rcases twice with twice | one
        · omega
        · rw [List.drop_zero] at next
          rw [next, List.length_cons] at one
          rw [List.length_eq_zero_iff.mp (by omega : more.length = 0)] at flat
          simp at flat
  · obtain ⟨o, post, own_, starts_, name, lens, room⟩ := f.whole hk twice (by omega) (by omega)
    rw [next, ← f.arenaSize] at room
    have split : kept ++ own = kept ++ o :: post := by rw [own_]
    have small_d := f.window.ranged.depth_lt
    obtain ⟨⟨pre, after⟩, left⟩ := t.room f.window split starts_ (by rw [name, steps_plus _ (by omega)]; omega) pos
      (by rw [f.arenaSize]; exact fit) room
    refine ⟨fun _ => ⟨pre, by rw [after, own_]⟩, o, post ++ new, by rw [own_]; rfl, starts_, name, ?_, ?_⟩
    · rw [List.map_append, lens, placed, taken]
      rfl
    · rw [drop_next next, ← f.arenaSize]
      exact left

/-- One more record of the sample, counted where it is the first. -/
theorem Filled.next (f : Filled d c s rows first sizes keep n kept own)
    (t : Took d s s' (kept ++ own) (plus first n) length record kept' new)
    (stored : keep = true → 0 < length ∧ roundup length ≤ c.arenaSize ∧ ∃ more, sizes.drop n = roundup length :: more)
    (skipped : keep = false → length = 0 ∨ c.arenaSize < roundup length)
    (continuing : record.continues = decide (n ≠ 0)) (same : Same s' s'')
    (counted : s''.retainedSamples = s'.retainedSamples + if n = 0 ∧ new ≠ [] then 1 else 0)
    (books : s''.books = s'.books) :
    ∃ kept₁ own₁, Filled d c s'' rows first sizes keep (n + 1) kept₁ own₁ := by
  obtain ⟨gone, parts⟩ := t.suffix
  obtain ⟨kept₁, own₁, keptAfter, ⟨lost, keptBefore⟩, ⟨lost', ownBefore⟩, either⟩ := suffix_of_append parts
  have window : s''.Window d (kept₁ ++ (own₁ ++ new)) := by
    have := t.window.same same
    rwa [keptAfter, List.append_assoc] at this
  have newest : s''.newestSeqNo = plus first n := by rw [same.store.newestSeqNo, t.newest]
  have shape : new = [] ∨ ∃ offset, new = [⟨plus first n, offset, length, some record⟩] := by
    rcases t.placed with ⟨none_, _⟩ | ⟨_, offset, some_, _, _⟩
    · exact .inl none_
    · exact .inr ⟨offset, some_⟩
  have fewer : beginnings own₁ ≤ beginnings own := by
    rw [ownBefore, beginnings_append]
    omega
  have starting : beginnings new = if n = 0 ∧ new ≠ [] then 1 else 0 := by
    rcases shape with rfl | ⟨offset, rfl⟩
    · simp [beginnings]
    · rw [beginnings_single, continuing]
      by_cases zero : n = 0
      · simp [zero]
      · simp [zero]
  refine ⟨kept₁, own₁ ++ new, ?_⟩
  exact {
    window := window
    fresh := by
      have next : s''.Fresh (kept₁ ++ (own₁ ++ new)) (plus s''.newestSeqNo 1) := window.fresh (Nat.le_refl 1) (by omega)
      rwa [newest, ← plus_add] at next
    suffix := by
      obtain ⟨before, split⟩ := f.suffix
      exact ⟨before ++ lost, by rw [split, keptBefore, List.append_assoc]⟩
    fresh_own := by simp
    within := by
      intro h mem
      rcases List.mem_append.mp mem with old | fresh_
      · obtain ⟨j, lt, name⟩ := f.within h (by rw [ownBefore]; simp [old])
        exact ⟨j, by omega, name⟩
      · rcases shape with rfl | ⟨offset, rfl⟩
        · simp at fresh_
        · rw [List.mem_singleton] at fresh_
          exact ⟨n, by omega, by rw [fresh_]⟩
    heads := by
      intro h mem starts_
      rcases List.mem_append.mp mem with old | fresh_
      · exact f.heads h (by rw [ownBefore]; simp [old]) starts_
      · rcases shape with rfl | ⟨offset, rfl⟩
        · simp at fresh_
        · rw [List.mem_singleton] at fresh_
          rw [fresh_, Held.continues, Option.any_some, continuing, decide_eq_false_iff_not, not_not] at starts_
          rw [fresh_, starts_, plus_zero]
    single := by
      rw [beginnings_append, starting]
      have := f.single
      by_cases zero : n = 0
      · have := f.fresh_own zero
        rw [this] at ownBefore
        rw [eq_comm, List.append_eq_nil_iff] at ownBefore
        rw [ownBefore.2]
        simp only [beginnings, List.countP_nil]
        split
        · omega
        · omega
      · rw [if_neg (by omega)]
        omega
    newest := by
      intro _
      exact newest
    samples := by
      intro exact_
      have := t.samples (f.samples exact_)
      rw [counted, this, window.starts, keptAfter, beginnings_append, beginnings_append, beginnings_append, starting]
      omega
    spared := by
      intro pre h rest split starts_ near room
      obtain ⟨⟨pre', after⟩, more⟩ := f.spared_next t stored skipped split starts_ near room
      rw [same.tail]
      refine ⟨⟨pre', ?_⟩, more⟩
      rw [keptAfter] at after
      -- the samples spared stand before all of the sample's own records
      rcases either with none_ | all
      · have := congrArg List.length after
        have := congrArg List.length ownBefore
        simp only [none_, List.length_append, List.length_cons, List.length_nil] at *
        omega
      · rw [all] at after
        exact List.append_cancel_right after
    whole := by
      intro hk twice le _
      obtain ⟨after, o, post, own_, starts_, name, lens, room⟩ := f.whole_next t stored continuing hk twice le
      have all : own₁ = own := by
        by_cases begins : n = 0
        · rw [f.fresh_own begins] at ownBefore ⊢
          rw [eq_comm, List.append_eq_nil_iff] at ownBefore
          exact ownBefore.2
        · obtain ⟨pre, after⟩ := after begins
          rcases either with none_ | all
          · rw [keptAfter, none_, List.nil_append] at after
            rw [ownBefore] at after
            have := congrArg List.length after
            simp only [List.length_append] at this
            have : lost' = [] := List.length_eq_zero_iff.mp (by omega)
            rw [ownBefore, this, List.nil_append]
          · exact all
      rw [all, same.tail]
      exact ⟨o, post, own_, starts_, name, lens, room⟩
    chained := by
      intro began
      have before := f.chained began
      rw [parts, List.map_append] at before
      have here := before.suffix
      rw [same.tail, ← List.append_assoc, ← keptAfter]
      rcases t.placed with ⟨none_, _, tail⟩ | ⟨_, offset, some_, tail, zero, fits⟩
      · rw [none_, List.append_nil]
        by_cases ne : kept' = []
        · rw [ne]
          trivial
        · rw [tail ne]
          exact here
      · rw [some_, List.map_append, tail]
        apply here.snoc
        intro ne
        have := fits (by rintro rfl; exact ne rfl)
        rw [f.arenaSize] at this
        rcases this with ⟨_, _, at_⟩ | ⟨_, past, _, at_⟩ | ⟨_, _, at_⟩
        · exact .inl at_
        · exact .inr ⟨at_, past⟩
        · exact .inl at_
    arenaSize := by rw [same.store.arenaSize, t.arenaSize, f.arenaSize]
    ringDepth := by rw [same.store.ringDepth, t.ringDepth, f.ringDepth]
    sampleDepth := by rw [same.store.sampleDepth, t.sampleDepth, f.sampleDepth]
    books := by rw [books, t.books, f.books] }

end Next

section Sample

variable {node : Context} {cdr : List UInt8} {first : SeqNo} {limit count now : Nat} {keep : Bool}

theorem countSample_books (c : ReliableCache) (place : Option Nat) : (c.countSample place).books = c.books := by
  unfold countSample
  split
  · rfl
  · rfl

/-- `cache_sample_fragments()` behind the bound in samples, up to fragment `n`. -/
theorem Window.fragments (h : c.Window d rows) (fresh : c.Fresh rows first) (hd : c.ringDepth = d)
    (fits : keep = true → (fragFootprints node cdr count).sum ≤ c.arenaSize) (n : Nat) (le : n ≤ count) :
    ∃ kept own, Filled d c ((List.range n).foldl (cacheFragment node first cdr count now keep) c) rows first
      (fragFootprints node cdr count) keep n kept own := by
  induction n with
  | zero => exact ⟨rows, [], Filled.start h fresh _ _⟩
  | succ n ih =>
    obtain ⟨kept, own, f⟩ := ih (by omega)
    rw [List.range_succ, List.foldl_append, List.foldl_cons, List.foldl_nil]
    generalize (List.range n).foldl (cacheFragment node first cdr count now keep) c = s at f ⊢
    have lengths : (fragRecord node first cdr count n).length =
        (if keep then fragHeaderLength n + node.fragPayloadLength n (sampleCdrLength cdr) else 0) ∨
        (if keep then fragHeaderLength n + node.fragPayloadLength n (sampleCdrLength cdr) else 0) = 0 := by
      cases keep with
      | true => exact .inl (fragRecord_length first count)
      | false => exact .inr rfl
    have stored : keep = true →
        0 < (if keep then fragHeaderLength n + node.fragPayloadLength n (sampleCdrLength cdr) else 0) ∧
        roundup (if keep then fragHeaderLength n + node.fragPayloadLength n (sampleCdrLength cdr) else 0) ≤
          c.arenaSize ∧
        ∃ more, (fragFootprints node cdr count).drop n =
          roundup (if keep then fragHeaderLength n + node.fragPayloadLength n (sampleCdrLength cdr) else 0) :: more := by
      intro hk
      have drop := @fragFootprints_drop node cdr count n (by omega)
      have part := (List.drop_sublist n (fragFootprints node cdr count)).sum_le_sum (by simp)
      have whole := fits hk
      have header := fragHeaderLength_pos n
      rw [drop, List.sum_cons] at part
      rw [if_pos hk]
      refine ⟨by omega, ?_, _, drop⟩
      unfold fragFootprint at part
      omega
    have skipped : keep = false →
        (if keep then fragHeaderLength n + node.fragPayloadLength n (sampleCdrLength cdr) else 0) = 0 := by
      intro hk
      rw [hk]
      rfl
    unfold cacheFragment
    simp only
    generalize (if keep then fragHeaderLength n + node.fragPayloadLength n (sampleCdrLength cdr) else 0) = length
      at lengths stored skipped ⊢
    obtain ⟨kept', new, t, placed⟩ := f.window.takes now (fragRecord node first cdr count n) f.fresh
      (f.ringDepth.trans hd) lengths (fragRecord_seqNo n)
    apply f.next t stored (fun hk => .inl (skipped hk)) (fragRecord_continues n)
    · split
      · exact countSample_same _ _
      · exact ⟨.refl _, rfl, rfl, rfl, rfl, rfl⟩
    · by_cases zero : n = 0
      · rw [if_pos zero, countSample]
        by_cases some_ : new = []
        · have none_ : (s.cacheRecord (plus first n) length now (fragRecord node first cdr count n)).2.isSome = false := by
            rw [Bool.eq_false_iff, Ne, placed]
            exact not_not.mpr some_
          rw [none_]
          simp [some_]
        · rw [if_pos (placed.mpr some_), if_pos ⟨zero, some_⟩]
      · rw [if_neg zero, if_neg (by omega)]
        rfl
    · split
      · exact countSample_books _ _
      · rfl

/-- The bound in samples applied: it evicts while `sample_depth` samples are retained, and only then. -/
structure Admitted (d : Nat) (c : ReliableCache) (rows kept : List Held) : Prop where
  sheds : Sheds (fun held => c.sampleDepth ≠ 0 ∧ c.depthAssuredDatagrams = 0 ∧ c.sampleDepth ≤ beginnings held)
    rows kept
  evicted : ∃ gone, rows = gone ++ kept ∧ Evicted d c c.admitSample gone
  window : c.admitSample.Window d kept
  samples : c.admitSample.retainedSamples = c.admitSample.starts d
  bound : c.sampleDepth ≠ 0 → c.depthAssuredDatagrams = 0 → beginnings kept < c.sampleDepth
  books : c.admitSample.books = c.books

theorem Window.admitSample (h : c.Window d rows) (hd : c.ringDepth = d) (exact_ : c.retainedSamples = c.starts d) :
    ∃ kept, Admitted d c rows kept := by
  by_cases off : c.sampleDepth = 0 ∨ c.depthAssuredDatagrams ≠ 0
  · have same : c.admitSample = c := by rw [ReliableCache.admitSample, if_pos off]
    refine ⟨rows, .refl _, ⟨[], rfl, ?_⟩, ?_, ?_, ?_, ?_⟩
    · rw [same]
      exact .refl c
    · rw [same]
      exact h
    · rw [same]
      exact exact_
    · intro on none_
      omega
    · rw [same]
  · have pos := h.ranged.depth_pos
    have loop : c.admitSample = whileN (fun s => d ≠ 0 && s.retains && s.retainedSamples ≥ s.sampleDepth)
        (fun s => s.evictOldest d) (steps c.oldestSeqNo c.newestSeqNo + 1) c := by
      rw [ReliableCache.admitSample, if_neg off, hd]
    obtain ⟨gone, kept, split, sheds, he, window, samples, done⟩ := h.evictWhile
      (fun s => d ≠ 0 && s.retains && s.retainedSamples ≥ s.sampleDepth)
      (fun held => c.sampleDepth ≠ 0 ∧ c.depthAssuredDatagrams = 0 ∧ c.sampleDepth ≤ beginnings held) (by
        intro s gone kept he window count asked
        simp only [Bool.and_eq_true, decide_eq_true_eq] at asked
        refine ⟨?_, by omega, by omega, ?_⟩
        · rintro rfl
          rw [window.not_retains] at asked
          exact absurd asked.1.2 (by simp)
        · rw [← window.starts, ← count exact_, ← he.store.sampleDepth]
          exact asked.2)
    have books : (whileN (fun s => d ≠ 0 && s.retains && s.retainedSamples ≥ s.sampleDepth)
        (fun s => s.evictOldest d) (steps c.oldestSeqNo c.newestSeqNo + 1) c).books = c.books := evictWhile_books _ _ _ _
    rw [← loop] at he window samples done books
    refine ⟨kept, sheds, ⟨gone, split, he⟩, window, samples exact_, ?_, books⟩
    intro on _
    rw [← window.starts, ← samples exact_, ← he.store.sampleDepth]
    cases hc : c.admitSample.retains with
    | true =>
      simp only [hc, Bool.and_true, Bool.and_eq_false_iff, decide_eq_false_iff_not] at done
      omega
    | false =>
      have none_ : kept = [] := by
        rw [← window.held]
        exact held_of_not_retains hc
      subst none_
      have := samples exact_
      rw [window.starts] at this
      rw [this, he.store.sampleDepth]
      simp only [beginnings, List.countP_nil]
      omega

/-- Whether a sample goes into the cache at all. -/
def keeps (c : ReliableCache) (node : Context) (cdr : List UInt8) (limit : Nat) : Bool :=
  decide (sampleDatagramCount node cdr limit ≤ c.ringDepth ∧ (sampleFootprints node cdr limit).sum ≤ c.arenaSize)

/-- The sample into the window that the bound in samples left. -/
theorem Window.store (h : c.admitSample.Window d rows) (fresh : c.admitSample.Fresh rows first) (hd : c.ringDepth = d)
    (he : SameStore c c.admitSample) :
    ∃ kept own, Filled d c.admitSample (c.store node first cdr limit now) rows first (sampleFootprints node cdr limit)
      (c.keeps node cdr limit) (sampleDatagramCount node cdr limit) kept own := by
  have hd' : c.admitSample.ringDepth = d := he.ringDepth.trans hd
  have pos := h.ranged.depth_pos
  unfold ReliableCache.store
  split
  · next many =>
    have sizes : sampleFootprints node cdr limit = fragFootprints node cdr (sampleDatagramCount node cdr limit) := by
      unfold sampleFootprints
      simp only
      rw [if_pos many]
    have kept : c.keeps node cdr limit = decide (sampleDatagramCount node cdr limit ≤ c.ringDepth ∧
        sampleCacheFootprint node cdr limit ≤ c.arenaSize) := by
      rw [keeps, sampleFootprints_sum]
    unfold cacheSampleFragments
    rw [if_neg (by omega), ← kept, sizes]
    apply h.fragments fresh hd' _ _ (Nat.le_refl _)
    intro keep
    rw [keeps, decide_eq_true_eq, sizes] at keep
    rw [he.arenaSize]
    exact keep.2
  · next one =>
    have single : sampleDatagramCount node cdr limit = 1 := by
      have := sampleDatagramCount_pos node cdr limit
      omega
    have sizes : sampleFootprints node cdr limit = [roundup (recordLengthChecked cdr)] := by
      unfold sampleFootprints
      simp only
      rw [if_neg one]
    have pos : 0 < recordLengthChecked cdr := by
      rw [recordLengthChecked_eq, dataFraming]
      omega
    have f := Filled.start h fresh (sampleFootprints node cdr limit) (c.keeps node cdr limit)
    obtain ⟨kept', new, t, placed⟩ := f.window.takes now (Record.data first (padCdr cdr)) f.fresh
      (f.ringDepth.trans hd') (.inl (recordLengthChecked_eq cdr).symm) (by rw [plus_zero]; rfl)
    rw [single]
    unfold cacheReliableSample
    simp only
    rw [plus_zero] at placed t
    apply f.next (n := 0) (by rw [plus_zero]; exact t) _ _ rfl (countSample_same _ _) _ (countSample_books _ _)
    · intro keep
      rw [keeps, decide_eq_true_eq, sizes, List.sum_singleton] at keep
      rw [he.arenaSize, sizes]
      exact ⟨pos, keep.2, [], rfl⟩
    · intro skip
      rw [keeps, decide_eq_false_iff_not, sizes, List.sum_singleton, single] at skip
      rw [he.arenaSize]
      omega
    · rw [countSample]
      by_cases some_ : new = []
      · rw [if_neg (fun h => placed.mp h some_), if_neg (by simp [some_]), Nat.add_zero]
      · rw [if_pos (placed.mpr some_), if_pos ⟨rfl, some_⟩]

end Sample

end ReliableCache

end Tickle
