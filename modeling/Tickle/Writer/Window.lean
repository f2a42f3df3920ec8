import Tickle.Writer.Grow

/-! # The cache as a window of what was stored

What the cache holds is a list of records, oldest first, wherever a sample begins or ends: a sample may lose
its first fragment to its own last one, so the list can start with a continuation. Eviction drops from the
front of it (`Sheds`), a reserve puts one record behind it (`Window.cacheRecord`), and no index entry names
a record that is not in it (`Live`).
-/

namespace Tickle

open Serial Loop RingArena

/-- `kept` is what is left of the records after whole samples have gone from the front, each while `demand`
asked for it. -/
inductive Sheds (demand : List Held → Prop) : List Held → List Held → Prop
  | refl (rows : List Held) : Sheds demand rows rows
  | step {first : Held} {conts rows kept : List Held} : demand (first :: conts ++ rows) →
      (∀ h ∈ conts, h.continues = true) → rows.head?.any Held.continues = false →
      Sheds demand rows kept → Sheds demand (first :: conts ++ rows) kept

namespace Sheds

variable {demand : List Held → Prop} {rows kept : List Held}

theorem trans {mid : List Held} (h : Sheds demand rows mid) (h' : Sheds demand mid kept) :
    Sheds demand rows kept := by
  induction h with
  | refl rows => exact h'
  | step asked conts head _ ih => exact .step asked conts head (ih h')

theorem mono {demand' : List Held → Prop} (imp : ∀ rows, demand rows → demand' rows) (h : Sheds demand rows kept) :
    Sheds demand' rows kept := by
  induction h with
  | refl rows => exact .refl rows
  | step asked conts next _ ih => exact .step (imp _ asked) conts next ih

theorem head (h : Sheds demand rows kept) :
    kept = rows ∨ kept.head?.any Held.continues = false := by
  induction h with
  | refl rows => exact .inl rfl
  | step _ _ next _ ih =>
    rcases ih with rfl | head
    · exact .inr next
    · exact .inr head

theorem suffix (h : Sheds demand rows kept) : ∃ gone, rows = gone ++ kept := by
  induction h with
  | refl rows => exact ⟨[], rfl⟩
  | @step first conts rows kept _ _ _ _ ih =>
    obtain ⟨gone, rfl⟩ := ih
    exact ⟨first :: conts ++ gone, by simp⟩

/-- Records behind the first of a sample stay together as long as nothing asks for them. -/
theorem keeps {pre : List Held} {first : Held} {rest : List Held}
    (h : Sheds demand rows kept) (split : rows = pre ++ first :: rest) (starts : first.continues = false)
    (spared : ¬ demand (first :: rest)) : ∃ pre', kept = pre' ++ first :: rest := by
  induction h generalizing pre with
  | refl rows => exact ⟨pre, split⟩
  | @step head conts rows kept asked continuing next _ ih =>
    cases pre with
    | nil =>
      rw [List.nil_append] at split
      rw [split] at asked
      exact absurd asked spared
    | cons x pre =>
      obtain ⟨_, behind⟩ : head = x ∧ conts ++ rows = pre ++ first :: rest := by simpa using split
      -- the continuations end before `first`, which is none
      obtain ⟨mid, rfl⟩ : ∃ mid, pre = conts ++ mid := by
        rcases List.append_eq_append_iff.mp behind with ⟨mid, hpre, _⟩ | ⟨mid, hconts, hrows⟩
        · exact ⟨mid, hpre⟩
        · cases mid with
          | nil => exact ⟨[], by simpa using hconts.symm⟩
          | cons y mid =>
            obtain ⟨rfl, _⟩ : first = y ∧ _ := by simpa using hrows
            rw [continuing first (by simp [hconts])] at starts
            cases starts
      rw [List.append_assoc] at behind
      exact ih (List.append_cancel_left behind)

end Sheds

namespace ReliableCache

variable {c c' : ReliableCache} {d : Nat} {seqNo : SeqNo} {rows : List Held}

/-- No index entry names a record that is not retained. -/
def Live (c : ReliableCache) (d : Nat) : Prop :=
  ∀ i, (c.index i).len ≠ 0 → c.retains = true ∧ c.slotIndex d (c.index i).seqNo = i ∧
    steps c.oldestSeqNo (c.index i).seqNo ≤ steps c.oldestSeqNo c.newestSeqNo

/-- The records held that start a sample. -/
def starts (c : ReliableCache) (d : Nat) : Nat := (c.held d).countP fun h => !h.continues

/-- An entry that names a record is the slot of its own seq_no. -/
theorem Live.slotLive (h : c.Live d) {i : Nat} (len : (c.index i).len ≠ 0) :
    c.slotLive d (c.index i).seqNo = true := by
  obtain ⟨_, own, _⟩ := h i len
  rw [slotLive_iff, slot, own]
  exact ⟨len, rfl⟩

theorem Live.dropLeadingTombstones (h : c.Live d) : (c.dropLeadingTombstones d).Live d := by
  unfold ReliableCache.dropLeadingTombstones
  refine whileN_invariant (P := fun s : ReliableCache => s.Live d) ?_ _ h
  intro s dead live i len
  simp only [Bool.and_eq_true, Bool.not_eq_true'] at dead
  -- an entry that names a record is not the one passed over
  have other : ∀ i, (s.index i).len ≠ 0 → (s.index i).seqNo ≠ s.oldestSeqNo := by
    intro i len same
    have := live.slotLive len
    rw [same, dead.2] at this
    cases this
  by_cases last : s.oldestSeqNo = s.newestSeqNo
  · rw [if_pos last] at len
    obtain ⟨_, _, within⟩ := live i len
    rw [last, steps_self, Nat.le_zero, steps_eq_zero, ← last] at within
    exact absurd within.symm (other i len)
  · rw [if_neg last] at len ⊢
    obtain ⟨retains, own, within⟩ := live i len
    refine ⟨retains, own, ?_⟩
    have behind := steps_succ_left (other i len).symm
    have behind' := steps_succ_left last
    simp only
    omega

theorem Live.buryOldest (h : c.Live d) {i : Nat} (len : ((c.buryOldest d).index i).len ≠ 0) :
    (c.index i).len ≠ 0 ∧ (c.buryOldest d).index i = c.index i ∧ (c.index i).seqNo ≠ c.oldestSeqNo := by
  have same : (c.buryOldest d).index i = c.index i := by
    rcases buryOldest_index c d i with same | gone
    · exact same
    · rw [gone] at len
      exact absurd rfl len
  rw [same] at len
  refine ⟨len, same, ?_⟩
  intro oldest
  obtain ⟨_, own, _⟩ := h i len
  rw [oldest] at own
  have entry : (c.slot d c.oldestSeqNo).seqNo = c.oldestSeqNo := by
    rw [slot, own]
    exact oldest
  unfold ReliableCache.buryOldest at same
  simp only at same
  rw [if_pos entry] at same
  simp only [own, Function.update_self] at same
  have := congrArg CacheIndex.len same
  exact len this.symm

theorem Live.evictOne (h : c.Live d) : (c.evictOne d).Live d := by
  obtain ⟨origin, oldest, _⟩ := buryOldest_range c d
  have newest := (buryOldest_store c d).newestSeqNo
  unfold ReliableCache.evictOne
  split
  · exact h
  · split
    · next last =>
      intro i len
      obtain ⟨len', _, other⟩ := h.buryOldest len
      obtain ⟨_, _, within⟩ := h i len'
      rw [last, steps_self, Nat.le_zero, steps_eq_zero, ← last] at within
      exact absurd within.symm other
    · next last =>
      apply Live.dropLeadingTombstones
      intro i len
      obtain ⟨len', same, other⟩ := h.buryOldest len
      obtain ⟨retains, own, within⟩ := h i len'
      simp only at len ⊢
      rw [same]
      refine ⟨?_, ?_, ?_⟩
      · unfold ReliableCache.retains at retains ⊢
        simp only
        rw [origin]
        exact retains
      · unfold slotIndex at own ⊢
        simp only
        rw [origin]
        exact own
      · have behind := steps_succ_left other.symm
        have behind' := steps_succ_left last
        rw [newest]
        omega

/-- Records are held in the order of their seq_nos. -/
theorem heldFrom_sorted {n : Nat} (small : n ≤ 2 ^ 32) (x : SeqNo) :
    (c.heldFrom d n x).Pairwise fun a b => steps x a.seqNo < steps x b.seqNo := by
  induction n generalizing x with
  | zero => exact .nil
  | succ n ih =>
    have behind : ∀ h ∈ c.heldFrom d n (x + 1), steps x h.seqNo = steps (x + 1) h.seqNo + 1 := by
      intro h mem
      obtain ⟨i, below, at_⟩ := mem_heldFrom.mp mem
      rw [heldAt_seqNo at_, steps_plus _ (by omega), ← plus_succ, steps_plus _ (by omega)]
    rw [heldFrom]
    apply List.pairwise_append.mpr
    refine ⟨?_, ?_, ?_⟩
    · cases c.heldAt d x <;> simp
    · apply (ih (by omega) (x + 1)).imp_of_mem
      intro a b ha hb lt
      rw [behind a ha, behind b hb]
      omega
    · intro a ha b hb
      obtain ⟨_, at_⟩ : ∃ _ : Unit, c.heldAt d x = some a := ⟨(), by simpa using ha⟩
      rw [heldAt_seqNo at_, steps_self, behind b hb]
      omega

/-! ## The count of samples -/

theorem dropLeadingTombstones_samples (c : ReliableCache) (d : Nat) :
    ((c.dropLeadingTombstones d).retains = true →
      (c.dropLeadingTombstones d).retainedSamples = c.retainedSamples) ∧
    ((c.dropLeadingTombstones d).retains = false → c.retains = true →
      (c.dropLeadingTombstones d).retainedSamples = 0) := by
  unfold ReliableCache.dropLeadingTombstones
  refine whileN_invariant (P := fun s : ReliableCache =>
    (s.retains = true → s.retainedSamples = c.retainedSamples) ∧
    (s.retains = false → c.retains = true → s.retainedSamples = 0)) ?_ _ ⟨fun _ => rfl, ?_⟩
  · intro s dead kept
    simp only [Bool.and_eq_true, Bool.not_eq_true'] at dead
    by_cases last : s.oldestSeqNo = s.newestSeqNo
    · rw [if_pos last]
      refine ⟨?_, fun _ _ => rfl⟩
      intro retains
      rw [emptied_retains] at retains
      cases retains
    · rw [if_neg last]
      refine ⟨fun _ => kept.1 dead.1, ?_⟩
      intro gone
      have : s.retains = false := gone
      rw [dead.1] at this
      cases this
  · intro gone retains
    rw [gone] at retains
    cases retains

theorem buryOldest_samples (hs : c.Settled d) (hc : c.retains = true) (exact_ : c.retainedSamples = c.starts d) :
    (c.buryOldest d).retainedSamples =
      (c.heldFrom d (steps c.oldestSeqNo c.newestSeqNo) (c.oldestSeqNo + 1)).countP fun h => !h.continues := by
  have live := hs hc
  rw [slotLive_iff] at live
  rw [starts, hs.held_cons hc, List.countP_cons] at exact_
  unfold buryOldest
  simp only [Held.continues] at exact_ ⊢
  rw [if_pos live.2]
  simp only [recordStartsSample, entryContinues, live.1, ne_eq, not_false_eq_true, decide_true, Bool.true_and]
  cases kind : (c.arena (c.slot d c.oldestSeqNo).offset).any Record.continues with
  | true =>
    simp only [kind, Bool.not_true, Bool.false_eq_true, if_false, Nat.add_zero] at exact_
    simp [exact_]
  | false =>
    simp only [kind, Bool.not_false, if_true] at exact_
    simp [exact_]

/-- Evicting a record keeps the count. -/
theorem evictOne_samples (hr : c.Ranged d) (hs : c.Settled d) (hc : c.retains = true)
    (exact_ : c.retainedSamples = c.starts d) : (c.evictOne d).retainedSamples = (c.evictOne d).starts d := by
  obtain ⟨evicted, _⟩ := evictOne_spec hr hc
  have rest : (c.evictOne d).held d =
      c.heldFrom d (steps c.oldestSeqNo c.newestSeqNo) (c.oldestSeqNo + 1) := by
    have split := evicted.held
    rw [hs.held_cons hc, heldAt_of_live (hs hc)] at split
    exact (List.cons.inj split).2.symm
  have buried := buryOldest_samples hs hc exact_
  cases left : (c.evictOne d).retains with
  | false =>
    rw [starts, held_of_not_retains left]
    unfold evictOne at left ⊢
    rw [if_neg (by simp [hc])] at left ⊢
    split
    · rfl
    · next last =>
      rw [if_neg last] at left
      obtain ⟨origin, _, _⟩ := buryOldest_range c d
      refine (dropLeadingTombstones_samples _ d).2 left ?_
      unfold retains at hc ⊢
      simp only
      rw [origin]
      exact hc
  | true =>
    rw [starts, rest, ← buried]
    unfold evictOne at left ⊢
    rw [if_neg (by simp [hc])] at left ⊢
    split
    · next last =>
      rw [if_pos last, emptied_retains] at left
      cases left
    · next last =>
      rw [if_neg last] at left
      exact (dropLeadingTombstones_samples _ d).1 left

/-! ## Evicting a sample -/

/-- The records held, where they lie, and that the index names no other. -/
structure Window (c : ReliableCache) (d : Nat) (rows : List Held) : Prop where
  ranged : c.Ranged d
  settled : c.Settled d
  held : c.held d = rows
  laid : rows ≠ [] → Laid c.arenaSize (rows.map Held.seg) c.tail
  records : ∀ h ∈ rows, ∃ r, h.record = some r ∧ r.length = h.len ∧ r.seqNo = h.seqNo
  live : c.Live d

namespace Window

theorem retains (h : c.Window d rows) (ne : rows ≠ []) : c.retains = true := by
  rw [h.settled.retains_iff, h.held]
  exact ne

theorem not_retains (h : c.Window d []) : c.retains = false := by
  cases hc : c.retains with
  | false => rfl
  | true => exact absurd h.held (h.settled.retains_iff.mp hc)

theorem head (h : c.Window d rows) (hc : c.retains = true) : ∃ first rest, rows = first :: rest ∧
    first.seqNo = c.oldestSeqNo ∧ first.offset = (c.slot d c.oldestSeqNo).offset := by
  have cons := h.held
  rw [h.settled.held_cons hc] at cons
  exact ⟨_, _, cons.symm, rfl, rfl⟩

/-- Eviction keeps a window. -/
theorem evicted {gone kept : List Held} (h : c.Window d (gone ++ kept)) (he : Evicted d c c' gone)
    (settled : c'.Settled d) (live : c'.Live d) : c'.Window d kept := by
  have held : c'.held d = kept := by
    have split := he.held
    rw [h.held] at split
    exact (List.append_cancel_left split).symm
  refine ⟨he.ranged h.ranged, settled, held, ?_, ?_, live⟩
  · intro ne
    have hc : c'.retains = true := by
      rw [settled.retains_iff, held]
      exact ne
    obtain ⟨_, _, tail, _⟩ := he.range hc
    have laid := h.laid (by simp [ne])
    rw [he.store.arenaSize, tail]
    rw [List.map_append] at laid
    have short : (gone.map Held.seg).length < (gone.map Held.seg ++ kept.map Held.seg).length := by
      have := List.length_pos_iff.mpr ne
      simp only [List.length_append, List.length_map]
      omega
    simpa using laid.drop short
  · intro x hx
    exact h.records x (by simp [hx])

theorem evictOne (h : c.Window d rows) (hc : c.retains = true) :
    ∃ first rest, rows = first :: rest ∧ Evicted d c (c.evictOne d) [first] ∧ (c.evictOne d).Window d rest ∧
      (c.retainedSamples = c.starts d → (c.evictOne d).retainedSamples = (c.evictOne d).starts d) := by
  obtain ⟨one, settled⟩ := evictOne_spec h.ranged hc
  rw [heldAt_of_live (h.settled hc), Option.toList_some] at one
  have split := h.held.symm.trans one.held
  subst split
  exact ⟨_, _, rfl, one, h.evicted one settled h.live.evictOne, evictOne_samples h.ranged h.settled hc⟩

/-- The oldest record goes, and the continuations behind it. -/
theorem evictOldest (h : c.Window d rows) (ne : rows ≠ []) :
    ∃ first conts rest, rows = first :: conts ++ rest ∧ (∀ x ∈ conts, x.continues = true) ∧
      rest.head?.any Held.continues = false ∧ Evicted d c (c.evictOldest d) (first :: conts) ∧
      (c.evictOldest d).Window d rest ∧
      (c.retainedSamples = c.starts d → (c.evictOldest d).retainedSamples = (c.evictOldest d).starts d) := by
  obtain ⟨first, behind, split, one, began, counted⟩ := h.evictOne (h.retains ne)
  -- the loop drops continuations while one leads
  let P : ReliableCache → Prop := fun s => ∃ conts rest, behind = conts ++ rest ∧
    (∀ x ∈ conts, x.continues = true) ∧ Evicted d (c.evictOne d) s conts ∧ s.Window d rest ∧
    (c.retainedSamples = c.starts d → s.retainedSamples = s.starts d)
  have asked_retains : ∀ s : ReliableCache, s.oldestContinues d = true → s.retains = true := by
    intro s asked
    simp only [oldestContinues, Bool.and_eq_true] at asked
    exact asked.1.1
  have round : ∀ s, s.oldestContinues d = true → P s → P (s.evictOne d) := by
    rintro s asked ⟨conts, rest, parts, continuing, he, window, count⟩
    obtain ⟨x, rest', rfl, he', window', count'⟩ := window.evictOne (asked_retains s asked)
    rw [window.settled.oldestContinues_eq, window.held] at asked
    refine ⟨conts ++ [x], rest', by rw [parts]; simp, ?_, he.trans he', window', fun began => count' (count began)⟩
    intro y mem
    rcases List.mem_append.mp mem with mem | mem
    · exact continuing y mem
    · rw [List.mem_singleton.mp mem]
      simpa using asked
  have start : P (c.evictOne d) := ⟨[], behind, rfl, by simp, .refl _, began, counted⟩
  obtain ⟨conts, rest, rfl, continuing, he, window, count⟩ : P (c.evictOldest d) :=
    whileN_invariant round _ start
  refine ⟨first, conts, rest, by rw [split]; simp, continuing, ?_, by simpa using one.trans he, window, count⟩
  have stopped : (c.evictOldest d).oldestContinues d = false := by
    refine whileN_exit (P := P) (fun s => (s.held d).length) round ?_ _ start ?_
    · rintro s asked ⟨conts, rest, _, _, _, window, _⟩
      obtain ⟨x, rest', _, he', _⟩ := window.evictOne (asked_retains s asked)
      rw [he'.held]
      simp
    · have short := held_length_le c d
      rw [one.held] at short
      simp only [List.length_append, List.length_cons, List.length_nil] at short
      omega
  rw [window.settled.oldestContinues_eq, window.held] at stopped
  exact stopped

end Window

theorem evictOldest_of_not_retains (hc : c.retains = false) : c.evictOldest d = c := by
  have one : c.evictOne d = c := by
    unfold ReliableCache.evictOne
    rw [if_pos (by simp [hc])]
  unfold ReliableCache.evictOldest
  rw [one]
  exact whileN_of_not (by simp [oldestContinues, hc]) _

namespace Window

/-- A loop that evicts the oldest sample while `cond`. -/
theorem evictWhile (h : c.Window d rows) (cond : ReliableCache → Bool) (demand : List Held → Prop)
    (asks : ∀ s gone kept, Evicted d c s gone → s.Window d kept →
      (c.retainedSamples = c.starts d → s.retainedSamples = s.starts d) → cond s = true →
      kept ≠ [] ∧ demand kept) :
    ∃ gone kept, rows = gone ++ kept ∧ Sheds demand rows kept ∧
      Evicted d c (whileN cond (fun s => s.evictOldest d) (steps c.oldestSeqNo c.newestSeqNo + 1) c) gone ∧
      (whileN cond (fun s => s.evictOldest d) (steps c.oldestSeqNo c.newestSeqNo + 1) c).Window d kept ∧
      (c.retainedSamples = c.starts d →
        (whileN cond (fun s => s.evictOldest d) (steps c.oldestSeqNo c.newestSeqNo + 1) c).retainedSamples =
          (whileN cond (fun s => s.evictOldest d) (steps c.oldestSeqNo c.newestSeqNo + 1) c).starts d) ∧
      cond (whileN cond (fun s => s.evictOldest d) (steps c.oldestSeqNo c.newestSeqNo + 1) c) = false := by
  let P : ReliableCache → Prop := fun s => ∃ gone kept, rows = gone ++ kept ∧ Sheds demand rows kept ∧
    Evicted d c s gone ∧ s.Window d kept ∧ (c.retainedSamples = c.starts d → s.retainedSamples = s.starts d)
  have round : ∀ s, cond s = true → P s → P (s.evictOldest d) := by
    rintro s asked ⟨gone, kept, split, sheds, he, window, count⟩
    obtain ⟨ne, demanded⟩ := asks s gone kept he window count asked
    obtain ⟨first, conts, rest, rfl, continuing, next, he', window', count'⟩ := window.evictOldest ne
    refine ⟨gone ++ (first :: conts), rest, by simp [split], ?_, he.trans he', window', fun began => count' (count began)⟩
    exact sheds.trans (.step demanded continuing next (.refl _))
  have start : P c := ⟨[], rows, rfl, .refl _, .refl c, h, id⟩
  obtain ⟨gone, kept, split, sheds, he, window, count⟩ :=
    whileN_invariant round (steps c.oldestSeqNo c.newestSeqNo + 1) start
  refine ⟨gone, kept, split, sheds, he, window, count, ?_⟩
  refine whileN_exit (P := P) (fun s => (s.held d).length) round ?_ _ start (held_length_le c d)
  rintro s asked ⟨gone, kept, _, _, he, window, count⟩
  obtain ⟨ne, _⟩ := asks s gone kept he window count asked
  obtain ⟨first, conts, rest, _, _, _, he', _, _⟩ := window.evictOldest ne
  rw [he'.held, List.length_append, List.length_cons]
  omega

end Window

/-! ## Reserving -/

/-- `seqNo` comes after every record held. -/
structure Fresh (c : ReliableCache) (rows : List Held) (seqNo : SeqNo) : Prop where
  reach : c.retains = true → steps c.oldestSeqNo seqNo + 1 < 2 ^ 32
  below : ∀ h ∈ rows, steps c.oldestSeqNo h.seqNo < steps c.oldestSeqNo seqNo

theorem Fresh.evicted {gone kept : List Held} (fresh : c.Fresh (gone ++ kept) seqNo) (he : Evicted d c c' gone)
    (window : c'.Window d kept) : c'.Fresh kept seqNo := by
  have split : c'.retains = true → steps c.oldestSeqNo seqNo =
      steps c.oldestSeqNo c'.oldestSeqNo + steps c'.oldestSeqNo seqNo := by
    intro hc
    obtain ⟨first, rest, rfl, oldest, _⟩ := window.head hc
    have := fresh.below first (by simp)
    rw [oldest] at this
    exact steps_split this.le
  refine ⟨?_, ?_⟩
  · intro hc
    obtain ⟨hc', _, _, _⟩ := he.range hc
    have := fresh.reach hc'
    have := split hc
    omega
  · intro h mem
    have hc := window.retains (List.ne_nil_of_mem mem)
    have apart := he.steps_mem (by rw [window.held]; exact mem)
    have := fresh.below h (by simp [mem])
    have := split hc
    omega

/-- The records held are in the order of their seq_nos. -/
theorem Window.sorted (h : c.Window d rows) :
    rows.Pairwise fun a b => steps c.oldestSeqNo a.seqNo < steps c.oldestSeqNo b.seqNo := by
  rw [← h.held]
  unfold ReliableCache.held
  split
  · have := steps_lt c.oldestSeqNo c.newestSeqNo
    exact heldFrom_sorted (by omega) _
  · exact .nil

/-- A seq_no after the newest comes after every record held. -/
theorem Window.fresh (h : c.Window d rows) {ahead : Nat} (pos : 1 ≤ ahead) (near : ahead < 2 ^ 31) :
    c.Fresh rows (plus c.newestSeqNo ahead) := by
  have small := h.ranged.depth_lt
  have step_ : c.retains = true → steps c.oldestSeqNo (plus c.newestSeqNo ahead) =
      steps c.oldestSeqNo c.newestSeqNo + ahead := by
    intro hc
    have := h.ranged.within hc
    exact steps_plus_of (by omega)
  refine ⟨?_, ?_⟩
  · intro hc
    have := h.ranged.within hc
    rw [step_ hc]
    omega
  · intro x mem
    rw [← h.held] at mem
    obtain ⟨hc, i, le, name, _⟩ := mem_held mem
    have := h.ranged.within hc
    rw [step_ hc, name, steps_plus _ (by omega)]
    omega

/-- A record held is in a slot that names it. -/
theorem Window.before_of_clear (h : c.Window d rows)
    (clear : ∀ i < d, (c.index i).len ≠ 0 → seqDelta (c.index i).seqNo seqNo < 0) :
    ∀ x ∈ rows, seqDelta x.seqNo seqNo < 0 := by
  intro x mem
  rw [← h.held] at mem
  obtain ⟨_, i, _, name, at_⟩ := mem_held mem
  have live : c.slotLive d x.seqNo = true := by
    cases live : c.slotLive d x.seqNo with
    | true => rfl
    | false => rw [heldAt_eq_none.mpr live] at at_; cases at_
  rw [slotLive_iff] at live
  have behind := clear _ (Nat.mod_lt _ h.ranged.depth_pos) live.1
  rwa [← slotIndex, ← slot, live.2] at behind

theorem steps_of_before {a b : SeqNo} (h : seqDelta a b < 0) : 0 < steps a b ∧ steps a b ≤ 2 ^ 31 := by
  rw [seqDelta_neg] at h
  have apart : a ≠ b := by
    rintro rfl
    rw [steps_self] at h
    omega
  have := steps_swap apart
  have := steps_lt b a
  omega

/-- So does one that every entry which names a record is serially before. -/
theorem Window.fresh_of_clear (h : c.Window d rows)
    (clear : ∀ i < d, (c.index i).len ≠ 0 → seqDelta (c.index i).seqNo seqNo < 0) : c.Fresh rows seqNo := by
  have before : ∀ x ∈ rows, 0 < steps x.seqNo seqNo ∧ steps x.seqNo seqNo ≤ 2 ^ 31 :=
    fun x mem => steps_of_before (h.before_of_clear clear x mem)
  have oldest : c.retains = true → 0 < steps c.oldestSeqNo seqNo ∧ steps c.oldestSeqNo seqNo ≤ 2 ^ 31 := by
    intro hc
    obtain ⟨first, rest, rfl, name, _⟩ := h.head hc
    rw [← name]
    exact before first (by simp)
  refine ⟨?_, ?_⟩
  · intro hc
    have := oldest hc
    omega
  · intro x mem
    have apart := before x mem
    rw [← h.held] at mem
    obtain ⟨hc, i, le, name, _⟩ := mem_held mem
    have := h.ranged.within hc
    have := h.ranged.depth_lt
    have offset : steps c.oldestSeqNo x.seqNo = i := by rw [name, steps_plus _ (by omega)]
    have := @steps_trans c.oldestSeqNo x.seqNo seqNo (by omega)
    omega

/-- The ring has no slot for `seqNo` beside the oldest of these. -/
def CountAsks (d : Nat) (seqNo : SeqNo) (rows : List Held) : Prop := ∀ h ∈ rows.head?, d < steps h.seqNo seqNo + 1

/-- The arena has no place for `footprint` bytes beside these. -/
def ByteAsks (size tail footprint : Nat) (rows : List Held) : Prop :=
  ∀ offset, ¬ Fits size (rows.map Held.seg) tail footprint offset

namespace Window

theorem reserveIndexRoom (h : c.Window d rows) (fresh : c.Fresh rows seqNo) :
    ∃ gone kept, rows = gone ++ kept ∧ Sheds (CountAsks d seqNo) rows kept ∧
      Evicted d c (c.reserveIndexRoom d seqNo) gone ∧ (c.reserveIndexRoom d seqNo).Window d kept ∧
      (c.reserveIndexRoom d seqNo).Fresh kept seqNo ∧
      (c.retainedSamples = c.starts d →
        (c.reserveIndexRoom d seqNo).retainedSamples = (c.reserveIndexRoom d seqNo).starts d) ∧
      ((c.reserveIndexRoom d seqNo).retains = true →
        steps (c.reserveIndexRoom d seqNo).oldestSeqNo seqNo < d) := by
  obtain ⟨gone, kept, split, sheds, he, window, count, stopped⟩ := h.evictWhile
    (fun s => s.retains && (seqNo - s.oldestSeqNo + 1).toNat > d) (CountAsks d seqNo) (by
      intro s gone kept _ window _ asked
      simp only [Bool.and_eq_true, decide_eq_true_eq] at asked
      obtain ⟨first, rest, rfl, oldest, _⟩ := window.head asked.1
      refine ⟨by simp, ?_⟩
      intro x mem
      rw [List.head?_cons, Option.mem_some_iff] at mem
      subst mem
      rw [oldest]
      have := sub_succ_le s.oldestSeqNo seqNo
      omega)
  subst split
  have fresh' := fresh.evicted he window
  refine ⟨gone, kept, rfl, sheds, he, window, fresh', count, ?_⟩
  intro hc
  have room : ¬ (seqNo - (c.reserveIndexRoom d seqNo).oldestSeqNo + 1).toNat > d := by
    change ((c.reserveIndexRoom d seqNo).retains &&
      decide ((seqNo - (c.reserveIndexRoom d seqNo).oldestSeqNo + 1).toNat > d)) = false at stopped
    simpa [hc] using stopped
  have reach : steps (c.reserveIndexRoom d seqNo).oldestSeqNo seqNo + 1 < 2 ^ 32 := fresh'.reach hc
  rw [sub_succ reach] at room
  omega

/-- The records under the seq_nos before `seqNo` are all there are. -/
theorem heldFrom_before (h : c.Window d rows) (fresh : c.Fresh rows seqNo) (hc : c.retains = true) :
    c.heldFrom d (steps c.oldestSeqNo seqNo) c.oldestSeqNo = rows := by
  have all : c.heldFrom d (steps c.oldestSeqNo c.newestSeqNo + 1) c.oldestSeqNo = rows := by
    rw [← h.held, ReliableCache.held, if_pos hc]
  have turn := steps_lt c.oldestSeqNo c.newestSeqNo
  have reach := fresh.reach hc
  rcases Nat.lt_or_ge (steps c.oldestSeqNo c.newestSeqNo) (steps c.oldestSeqNo seqNo) with past | within
  · obtain ⟨k, parts⟩ := Nat.exists_eq_add_of_le past
    rw [parts, heldFrom_add, all]
    apply List.append_right_eq_self.mpr
    apply List.eq_nil_iff_forall_not_mem.mpr
    intro x mem
    -- what is named past the newest would be retained
    obtain ⟨i, small, at_⟩ := mem_heldFrom.mp mem
    rw [← plus_add] at at_
    have named : c.slotLive d (plus c.oldestSeqNo (steps c.oldestSeqNo c.newestSeqNo + 1 + i)) = true := by
      cases hl : c.slotLive d (plus c.oldestSeqNo (steps c.oldestSeqNo c.newestSeqNo + 1 + i)) with
      | true => rfl
      | false => rw [heldAt_eq_none.mpr hl] at at_; cases at_
    rw [slotLive_iff, slot] at named
    obtain ⟨_, _, bound⟩ := h.live _ named.1
    rw [named.2, steps_plus _ (by omega)] at bound
    omega
  · obtain ⟨k, parts⟩ : ∃ k, steps c.oldestSeqNo c.newestSeqNo + 1 = steps c.oldestSeqNo seqNo + k :=
      Nat.exists_eq_add_of_le (Nat.le_succ_of_le within)
    rw [parts, heldFrom_add] at all
    have none_left : c.heldFrom d k (plus c.oldestSeqNo (steps c.oldestSeqNo seqNo)) = [] := by
      apply List.eq_nil_iff_forall_not_mem.mpr
      intro x mem
      have := fresh.below x (by rw [← all]; exact List.mem_append_right _ mem)
      obtain ⟨i, small, at_⟩ := mem_heldFrom.mp mem
      rw [← plus_add] at at_
      rw [heldAt_seqNo at_, steps_plus _ (by omega)] at this
      omega
    rw [none_left, List.append_nil] at all
    exact all

end Window

/-- Every seq_no from the oldest up to `seqNo` keeps its position. -/
theorem reserveEntry_slotIndex {now : Nat} (hr : c.Ranged d) (hc : c.retains = true)
    (hreach : steps c.oldestSeqNo seqNo < d) {x : SeqNo} (hx : steps c.oldestSeqNo x < steps c.oldestSeqNo seqNo) :
    (c.reserveEntry d seqNo now).slotIndex d x = c.slotIndex d x := by
  obtain ⟨_, _, sum, mod⟩ := reserveOrigin_spec hr hc hreach
  have forward := hr.forward hc
  have near := hr.near hc
  have small := hr.depth_lt
  unfold slotIndex
  rw [reserveEntry_origin hc]
  rw [@steps_trans c.slotOrigin c.oldestSeqNo x (by omega),
    @steps_trans (c.reserveOrigin d seqNo) c.oldestSeqNo x (by omega), Nat.add_mod, mod, ← Nat.add_mod]

theorem Window.reserveEntry (h : c.Window d rows) (now : Nat) (fresh : c.Fresh rows seqNo)
    (hreach : c.retains = true → steps c.oldestSeqNo seqNo < d) : (c.reserveEntry d seqNo now).Window d rows := by
  have hr := h.ranged
  have same : (c.reserveEntry d seqNo now).retains = c.retains := reserveEntry_retains hr hreach
  cases hc : c.retains with
  | false =>
    rw [hc] at same
    have none_held : rows = [] := by rw [← h.held, held_of_not_retains hc]
    subst none_held
    refine ⟨reserveEntry_ranged hr hreach, ?_, held_of_not_retains same, by simp, by simp, ?_⟩
    · intro retains
      rw [same] at retains
      cases retains
    · intro i len
      rw [reserveEntry_index] at len
      split at len
      · exact absurd rfl len
      · have := (h.live i len).1
        rw [hc] at this
        cases this
  | true =>
    rw [hc] at same
    have room := hreach hc
    have before := h.heldFrom_before fresh hc
    have pos : 0 < steps c.oldestSeqNo seqNo := by
      obtain ⟨first, rest, rfl, _, _⟩ := h.head hc
      have := fresh.below first (by simp)
      omega
    refine ⟨reserveEntry_ranged hr hreach, ?_, ?_, h.laid, h.records, ?_⟩
    · intro _
      have first : (c.reserveEntry d seqNo now).slot d (plus c.oldestSeqNo 0) = _ :=
        reserveEntry_slot hr hc room pos
      rw [plus_zero] at first
      show slotLive _ d c.oldestSeqNo = true
      unfold slotLive
      rw [first]
      exact h.settled hc
    · rw [ReliableCache.held, if_pos same]
      show heldFrom _ d (steps c.oldestSeqNo seqNo + 1) c.oldestSeqNo = _
      rw [heldFrom_add, heldFrom_congr fun i hi => reserveEntry_heldAt hr hc room hi, before, plus_steps]
      have own : (c.reserveEntry d seqNo now).heldAt d seqNo = none := by
        rw [heldAt_eq_none, slotLive, reserveEntry_own hc]
        rfl
      simp [heldFrom, own]
    · intro i len
      rw [reserveEntry_index] at len ⊢
      split at len
      · exact absurd rfl len
      · next other =>
        rw [if_neg other]
        obtain ⟨_, own, within⟩ := h.live i len
        -- it names one of the records held, all of them before `seqNo`
        have below : steps c.oldestSeqNo (c.index i).seqNo < steps c.oldestSeqNo seqNo := by
          have mem : (c.heldAt d (c.index i).seqNo).isSome := by
            rw [heldAt_of_live (h.live.slotLive len)]
            rfl
          obtain ⟨x, at_⟩ := Option.isSome_iff_exists.mp mem
          have held_ : x ∈ rows := by
            rw [← h.held, ReliableCache.held, if_pos hc]
            refine mem_heldFrom.mpr ⟨steps c.oldestSeqNo (c.index i).seqNo, by omega, ?_⟩
            rw [plus_steps]
            exact at_
          have := fresh.below x held_
          rwa [heldAt_seqNo at_] at this
        refine ⟨same, ?_, below.le⟩
        rw [reserveEntry_slotIndex hr hc room below]
        exact own

namespace Window

theorem writeOffset_eq (h : c.Window d rows) (hc : c.retains = true) (footprint : Nat) :
    c.writeOffset d footprint = offsetIn c.arenaSize false (headOffset (rows.map Held.seg)) c.tail footprint := by
  obtain ⟨first, rest, rfl, _, offset⟩ := h.head hc
  rw [List.map_cons, headOffset, writeOffset, hc]
  simp only [Bool.not_true, Bool.false_eq_true, if_false]
  rw [Held.seg, offset]

theorem reserveByteRoom (h : c.Window d rows) {footprint : Nat} (pos : 0 < footprint) :
    ∃ gone kept offset, rows = gone ++ kept ∧ Sheds (ByteAsks c.arenaSize c.tail footprint) rows kept ∧
      Evicted d c (c.reserveByteRoom d footprint) gone ∧ (c.reserveByteRoom d footprint).Window d kept ∧
      (c.retainedSamples = c.starts d →
        (c.reserveByteRoom d footprint).retainedSamples = (c.reserveByteRoom d footprint).starts d) ∧
      (c.reserveByteRoom d footprint).writeOffset d footprint = some offset ∧ (kept = [] → offset = 0) ∧
      (kept ≠ [] → Fits c.arenaSize (kept.map Held.seg) c.tail footprint offset) := by
  obtain ⟨gone, kept, split, sheds, he, window, count, stopped⟩ := h.evictWhile
    (fun s => (s.writeOffset d footprint).isNone) (ByteAsks c.arenaSize c.tail footprint) (by
      intro s gone kept he window _ asked
      rw [Option.isNone_iff_eq_none] at asked
      have hc : s.retains = true := by
        cases hc : s.retains with
        | true => rfl
        | false => rw [writeOffset_of_empty hc] at asked; cases asked
      refine ⟨?_, ?_⟩
      · rintro rfl
        rw [window.not_retains] at hc
        cases hc
      · intro offset fits
        obtain ⟨_, _, tail, _⟩ := he.range hc
        rw [window.writeOffset_eq hc, he.store.arenaSize, tail, (offsetIn_eq_some pos).mpr fits] at asked
        cases asked)
  change (c.reserveByteRoom d footprint).Window d kept at window
  change Evicted d c (c.reserveByteRoom d footprint) gone at he
  change ((c.reserveByteRoom d footprint).writeOffset d footprint).isNone = false at stopped
  obtain ⟨offset, place⟩ : ∃ o, (c.reserveByteRoom d footprint).writeOffset d footprint = some o := by
    cases ho : (c.reserveByteRoom d footprint).writeOffset d footprint with
    | none => rw [ho] at stopped; cases stopped
    | some o => exact ⟨o, rfl⟩
  refine ⟨gone, kept, offset, split, sheds, he, window, count, place, ?_, ?_⟩
  · rintro rfl
    rw [writeOffset_of_empty window.not_retains] at place
    exact (Option.some.inj place).symm
  · intro ne
    have hc := window.retains ne
    obtain ⟨_, _, tail, _⟩ := he.range hc
    rw [window.writeOffset_eq hc, he.store.arenaSize, tail] at place
    exact (offsetIn_eq_some pos).mp place

end Window

/-! ## What no eviction touches -/

/-- The shortfall count and the depth assurance. -/
def books (c : ReliableCache) : Nat × Nat × Nat := (c.depthShortfalls, c.depthAssuredDatagrams, c.depthAssuredLen)

theorem dropLeadingTombstones_books (c : ReliableCache) (d : Nat) :
    (c.dropLeadingTombstones d).books = c.books := by
  unfold ReliableCache.dropLeadingTombstones
  refine whileN_invariant (P := fun s : ReliableCache => s.books = c.books) ?_ _ rfl
  intro s _ same
  by_cases last : s.oldestSeqNo = s.newestSeqNo
  · rw [if_pos last]
    exact same
  · rw [if_neg last]
    exact same

theorem evictOne_books (c : ReliableCache) (d : Nat) : (c.evictOne d).books = c.books := by
  have buried : (c.buryOldest d).books = c.books := by
    unfold buryOldest
    simp only
    split
    · rfl
    · rfl
  unfold evictOne
  split
  · rfl
  · split
    · exact buried
    · rw [dropLeadingTombstones_books]
      exact buried

theorem evictOldest_books (c : ReliableCache) (d : Nat) : (c.evictOldest d).books = c.books := by
  unfold ReliableCache.evictOldest
  refine whileN_invariant (P := fun s : ReliableCache => s.books = c.books) ?_ _ (evictOne_books c d)
  intro s _ same
  rw [evictOne_books]
  exact same

theorem evictWhile_books (cond : ReliableCache → Bool) (d fuel : Nat) (c : ReliableCache) :
    (whileN cond (fun s => s.evictOldest d) fuel c).books = c.books := by
  refine whileN_invariant (P := fun s : ReliableCache => s.books = c.books) ?_ _ rfl
  intro s _ same
  rw [evictOldest_books]
  exact same

/-! ## One record into the window -/

/-- A record stored under `seqNo`: the ring left `mid` of what was held, the arena `kept`, and the record
stands behind that. -/
structure Stocked (d : Nat) (c c' : ReliableCache) (rows : List Held) (seqNo : SeqNo) (length : Nat)
    (record : Record) (mid kept : List Held) (offset : Nat) : Prop where
  count : Sheds (CountAsks d seqNo) rows mid
  bytes : Sheds (ByteAsks c.arenaSize c.tail (roundup length)) mid kept
  fits : kept ≠ [] → Fits c.arenaSize (kept.map Held.seg) c.tail (roundup length) offset
  zero : kept = [] → offset = 0
  window : c'.Window d (kept ++ [⟨seqNo, offset, length, some record⟩])
  newest : c'.newestSeqNo = seqNo
  tail : c'.tail = offset + roundup length
  samples : c.retainedSamples = c.starts d → c'.retainedSamples = kept.countP fun h => !h.continues
  arenaSize : c'.arenaSize = c.arenaSize
  arenaLimit : c'.arenaLimit = c.arenaLimit
  ringDepth : c'.ringDepth = c.ringDepth
  sampleDepth : c'.sampleDepth = c.sampleDepth
  books : c'.books = c.books

/-- The index of a cache with a record landed names it, and what was named before. -/
theorem Window.landed_live {position length offset : Nat} {origin : SeqNo} {record : Record}
    (h : c.Window d rows) (horig : c.retains = true → c.slotOrigin = origin)
    (hpos : position = steps origin seqNo % d) (hseq : (c.index position).seqNo = seqNo)
    (hnew : c.newestSeqNo = seqNo) (ho : origin ≠ 0) :
    (c.landed position origin seqNo length offset record).Live d := by
  have retains : (c.landed position origin seqNo length offset record).retains = true := landed_retains ho
  have origin' : (c.landed position origin seqNo length offset record).slotOrigin = origin := by
    cases hc : c.retains with
    | true => simp [landed, writeRecord, reservePlace, hc, horig hc]
    | false => simp [landed, writeRecord, reservePlace, hc]
  intro i len
  refine ⟨retains, ?_⟩
  by_cases own : i = position
  · have name : ((c.landed position origin seqNo length offset record).index i).seqNo = seqNo := by
      subst own
      simpa [landed, writeRecord, reservePlace] using hseq
    rw [name]
    refine ⟨?_, ?_⟩
    · rw [slotIndex, origin', own, hpos]
    · have : (c.landed position origin seqNo length offset record).newestSeqNo = seqNo := hnew
      rw [this]
  · have same : (c.landed position origin seqNo length offset record).index i = c.index i := by
      simp [landed, writeRecord, reservePlace, Function.update_of_ne own]
    rw [same] at len ⊢
    obtain ⟨hc, slot, within⟩ := h.live i len
    have oldest : (c.landed position origin seqNo length offset record).oldestSeqNo = c.oldestSeqNo := by
      simp [landed, writeRecord, reservePlace, hc]
    refine ⟨?_, ?_⟩
    · rw [slotIndex, origin', ← horig hc]
      exact slot
    · rw [oldest]
      exact within

theorem Window.cacheRecord {length : Nat} (h : c.Window d rows) (now : Nat) (record : Record) (fresh : c.Fresh rows seqNo)
    (hd : c.ringDepth = d) (hlen : 0 < length) (hfit : roundup length ≤ c.arenaSize)
    (hrl : record.length = length) (hrs : record.seqNo = seqNo) :
    ∃ mid kept offset, (c.cacheRecord seqNo length now record).2 = some offset ∧
      Stocked d c (c.cacheRecord seqNo length now record).1 rows seqNo length record mid kept offset := by
  have hd0 := h.ranged.depth_pos
  have hdlt := h.ranged.depth_lt
  have pos : 0 < roundup length := Nat.lt_of_lt_of_le hlen (le_roundup length)
  obtain ⟨gone, mid, split, count, he, roomy, fresh', samples, hreach⟩ := h.reserveIndexRoom fresh
  have books₁ : (c.reserveIndexRoom d seqNo).books = c.books := evictWhile_books _ _ _ _
  have entered := roomy.reserveEntry now fresh' hreach
  have same : ((c.reserveIndexRoom d seqNo).reserveEntry d seqNo now).retains = _ :=
    reserveEntry_retains roomy.ranged hreach
  obtain ⟨gone', kept, offset, split', bytes, he', free, samples', place, zero, fits⟩ := entered.reserveByteRoom pos
  have books₂ : (((c.reserveIndexRoom d seqNo).reserveEntry d seqNo now).reserveByteRoom d (roundup length)).books =
      ((c.reserveIndexRoom d seqNo).reserveEntry d seqNo now).books := evictWhile_books _ _ _ _
  have stored := @reserve_eq c d seqNo length now record hd (by omega) hlen hfit offset place
  have origin : (c.reserveIndexRoom d seqNo).reserveOrigin d seqNo ≠ 0 ∧
      steps ((c.reserveIndexRoom d seqNo).reserveOrigin d seqNo) seqNo < 2 ^ 31 := by
    cases hc : (c.reserveIndexRoom d seqNo).retains with
    | true =>
      obtain ⟨h1, h2, _⟩ := reserveOrigin_spec roomy.ranged hc (hreach hc)
      exact ⟨h1, h2⟩
    | false => exact reserveOrigin_of_empty hd0 hdlt hc
  have own := he'.tombstone (i := steps ((c.reserveIndexRoom d seqNo).reserveOrigin d seqNo) seqNo % d)
    (by rw [reserveEntry_index, if_pos rfl])
  rw [reserveEntry_index, if_pos rfl] at own
  have origin' : ∀ hc : (((c.reserveIndexRoom d seqNo).reserveEntry d seqNo now).reserveByteRoom d
      (roundup length)).retains = true, (((c.reserveIndexRoom d seqNo).reserveEntry d seqNo now).reserveByteRoom d
      (roundup length)).slotOrigin = (c.reserveIndexRoom d seqNo).reserveOrigin d seqNo := by
    intro hc
    obtain ⟨hc', origin, _, _⟩ := he'.range hc
    rw [origin, reserveEntry_origin (same ▸ hc')]
  have size : ((c.reserveIndexRoom d seqNo).reserveEntry d seqNo now).arenaSize = c.arenaSize := he.store.arenaSize
  have tail : mid ≠ [] → ((c.reserveIndexRoom d seqNo).reserveEntry d seqNo now).tail = c.tail :=
    fun ne => (he.range (roomy.retains ne)).2.2.1
  rw [size] at bytes fits
  refine ⟨mid, kept, offset, by rw [stored], ?_⟩
  rw [stored]
  generalize hentered : (c.reserveIndexRoom d seqNo).reserveEntry d seqNo now = s at *
  generalize hfree : s.reserveByteRoom d (roundup length) = f at *
  generalize horigin : (c.reserveIndexRoom d seqNo).reserveOrigin d seqNo = o at *
  have newest : f.newestSeqNo = seqNo := by
    rw [he'.store.newestSeqNo, ← hentered]
    rfl
  have live : (f.landed (steps o seqNo % d) o seqNo length offset record).Live d :=
    free.landed_live origin' rfl (by rw [own]) newest origin.1
  have landed_ : Landed d f (f.landed (steps o seqNo % d) o seqNo length offset record) [kept]
      ⟨seqNo, offset, length, some record⟩ := by
    by_cases empty : kept = []
    · subst empty
      have gone_ := free.not_retains
      have alone := @landed_alone f d seqNo (steps o seqNo % d) length offset o record hd0 hdlt origin.1 origin.2
        origin' (by intro hc; rw [gone_] at hc; cases hc) newest rfl (by rw [own]) hlen hrl hrs
        (by rw [zero rfl, he'.store.arenaSize, size]; omega)
      exact { alone with }
    · apply landed_behind free.ranged free.settled _ _ _ _ (origin' (free.retains empty)) newest rfl (by rw [own]) _
        hlen hrl hrs _
      · simpa using free.held
      · simpa using empty
      · simpa using free.laid empty
      · simpa using free.records
      · rw [heldAt_eq_none, slotLive, slot, slotIndex, origin' (free.retains empty), own]
        rfl
      · have midne : mid ≠ [] := by
          rintro rfl
          rw [eq_comm, List.append_eq_nil_iff] at split'
          exact empty split'.2
        obtain ⟨_, _, tail', _⟩ := he'.range (free.retains empty)
        rw [he'.store.arenaSize, size, tail', tail midne]
        have := fits empty
        rw [tail midne] at this
        simpa using this
  have starts_ : s.starts d = (c.reserveIndexRoom d seqNo).starts d := by
    rw [starts, starts, entered.held, roomy.held]
  exact {
    count := count
    bytes := by
      by_cases ne : mid = []
      · subst ne
        rw [eq_comm, List.append_eq_nil_iff] at split'
        rw [split'.2]
        exact .refl _
      · rw [tail ne] at bytes
        exact bytes
    fits := by
      intro ne
      have midne : mid ≠ [] := by
        rintro rfl
        rw [eq_comm, List.append_eq_nil_iff] at split'
        exact ne split'.2
      have := fits ne
      rwa [tail midne] at this
    zero := zero
    window := by
      have held := landed_.held
      have laid := landed_.laid
      have records := landed_.records
      simp only [List.flatten_cons, List.flatten_nil, List.append_nil] at held laid records
      exact ⟨landed_.ranged, landed_.settled, held, fun _ => laid, records, live⟩
    newest := newest
    tail := rfl
    samples := by
      intro exact_
      have : s.retainedSamples = (c.reserveIndexRoom d seqNo).retainedSamples := by
        rw [← hentered]
        rfl
      have counted := samples' (by rw [this, starts_]; exact samples exact_)
      rw [starts, free.held] at counted
      exact counted
    arenaSize := landed_.arenaSize.trans (he'.store.arenaSize.trans size)
    arenaLimit := by
      rw [landed_.arenaLimit, he'.store.arenaLimit, ← hentered]
      exact he.store.arenaLimit
    ringDepth := by
      rw [landed_.ringDepth, he'.store.ringDepth, ← hentered]
      exact he.store.ringDepth
    sampleDepth := by
      rw [landed_.sampleDepth, he'.store.sampleDepth, ← hentered]
      exact he.store.sampleDepth
    books := by
      have : s.books = (c.reserveIndexRoom d seqNo).books := by
        rw [← hentered]
        rfl
      exact books₂.trans (this.trans books₁) }

/-- Every reserve of a length that fits the arena ends with a place for it. -/
theorem Window.reserve_place {length : Nat} (h : c.Window d rows) (now : Nat) (fresh : c.Fresh rows seqNo)
    (hd : c.ringDepth = d) (hlen : 0 < length) (hfit : roundup length ≤ c.arenaSize) :
    ∃ gone kept offset, rows = gone ++ kept ∧ (c.reserve seqNo length now).2 = some offset ∧
      (kept = [] → offset = 0) ∧
      (kept ≠ [] → Fits c.arenaSize (kept.map Held.seg) c.tail (roundup length) offset) := by
  have hd0 := h.ranged.depth_pos
  have pos : 0 < roundup length := Nat.lt_of_lt_of_le hlen (le_roundup length)
  obtain ⟨gone, mid, split, _, he, roomy, fresh', _, hreach⟩ := h.reserveIndexRoom fresh
  obtain ⟨gone', kept, offset, split', _, _, _, _, place, zero, fits⟩ :=
    (roomy.reserveEntry now fresh' hreach).reserveByteRoom pos
  refine ⟨gone ++ gone', kept, offset, by rw [split, split', List.append_assoc], ?_, zero, ?_⟩
  · unfold ReliableCache.reserve
    simp only [hd]
    rw [if_neg (by omega), if_neg (by omega), place]
  · intro ne
    have midne : mid ≠ [] := by
      rintro rfl
      rw [eq_comm, List.append_eq_nil_iff] at split'
      exact ne split'.2
    have size : ((c.reserveIndexRoom d seqNo).reserveEntry d seqNo now).arenaSize = c.arenaSize := he.store.arenaSize
    have tail : ((c.reserveIndexRoom d seqNo).reserveEntry d seqNo now).tail = c.tail :=
      (he.range (roomy.retains midne)).2.2.1
    have := fits ne
    rwa [size, tail] at this

/-- A seq_no passed with nothing stored under it: the ring left `kept` of what was held. -/
structure Skipped (d : Nat) (c c' : ReliableCache) (rows : List Held) (seqNo : SeqNo) (kept : List Held) : Prop where
  count : Sheds (CountAsks d seqNo) rows kept
  window : c'.Window d kept
  newest : c'.newestSeqNo = seqNo
  tail : kept ≠ [] → c'.tail = c.tail
  samples : c.retainedSamples = c.starts d → c'.retainedSamples = c'.starts d
  arenaSize : c'.arenaSize = c.arenaSize
  arenaLimit : c'.arenaLimit = c.arenaLimit
  ringDepth : c'.ringDepth = c.ringDepth
  sampleDepth : c'.sampleDepth = c.sampleDepth
  books : c'.books = c.books

theorem Window.dropLeadingTombstones (h : c.Window d rows) : c.dropLeadingTombstones d = c := by
  cases hc : c.retains with
  | true => exact dropLeadingTombstones_of_live (h.settled hc)
  | false => exact dropLeadingTombstones_of_not_retains hc

theorem Window.cacheRecord_tombstone {length : Nat} (h : c.Window d rows) (now : Nat) (record : Record)
    (fresh : c.Fresh rows seqNo) (hd : c.ringDepth = d) (hlen : length = 0 ∨ c.arenaSize < roundup length) :
    (c.cacheRecord seqNo length now record).2 = none ∧
      ∃ kept, Skipped d c (c.cacheRecord seqNo length now record).1 rows seqNo kept := by
  obtain ⟨gone, kept, _, count, he, roomy, fresh', samples, hreach⟩ := h.reserveIndexRoom fresh
  have books : (c.reserveIndexRoom d seqNo).books = c.books := evictWhile_books _ _ _ _
  have entered := roomy.reserveEntry now fresh' hreach
  have result : c.cacheRecord seqNo length now record =
      ((c.reserveIndexRoom d seqNo).reserveEntry d seqNo now, none) := by
    have hd0 := h.ranged.depth_pos
    unfold ReliableCache.cacheRecord ReliableCache.reserve
    simp only [hd]
    rw [if_neg (by omega), if_pos (by omega), entered.dropLeadingTombstones]
    rfl
  rw [result]
  refine ⟨rfl, kept, count, entered, rfl, ?_, ?_, he.store.arenaSize, he.store.arenaLimit, he.store.ringDepth,
    he.store.sampleDepth, books⟩
  · intro ne
    exact (he.range (roomy.retains ne)).2.2.1
  · intro exact_
    rw [starts, entered.held]
    have := samples exact_
    rw [starts, roomy.held] at this
    exact this

/-! ## Growing -/

theorem Window.heldBytes_le (h : c.Window d rows) : heldBytes rows ≤ c.arenaSize := by
  by_cases ne : rows = []
  · subst ne
    exact Nat.zero_le _
  · have := (h.laid ne).sum_le
    rwa [List.map_map] at this

theorem Window.grow {size : Nat} (h : c.Window d rows) (hd : c.ringDepth = d) (grown : c.grow size = some c') :
    Repacked d size c c' rows ∧ c'.Window d (relocate 0 rows) := by
  have packed := grow_repacked h.ranged h.settled h.held h.heldBytes_le hd grown
  refine ⟨packed, packed.ranged, packed.settled, packed.held, ?_, ?_, ?_⟩
  · intro ne
    rw [packed.grown.arenaSize]
    apply packed.laid
    rintro rfl
    exact ne rfl
  · intro x mem
    obtain ⟨y, mem', seqNo, len, record⟩ := mem_relocate mem
    rw [seqNo, len, record]
    exact h.records y mem'
  · intro i len
    obtain ⟨len', seqNo⟩ := packed.index i
    rw [len'] at len
    obtain ⟨retains, own, within⟩ := h.live i len
    rw [packed.retains, packed.oldest, packed.newest, seqNo]
    refine ⟨retains, ?_, within⟩
    unfold slotIndex at own ⊢
    rw [packed.origin]
    exact own

theorem Fresh.grow {size : Nat} (fresh : c.Fresh rows seqNo) (packed : Repacked d size c c' rows) :
    c'.Fresh (relocate 0 rows) seqNo := by
  refine ⟨?_, ?_⟩
  · intro retains
    rw [packed.oldest]
    exact fresh.reach (packed.retains ▸ retains)
  · intro x mem
    obtain ⟨y, mem', name, _⟩ := mem_relocate mem
    rw [packed.oldest, name]
    exact fresh.below y mem'

end ReliableCache

end Tickle
