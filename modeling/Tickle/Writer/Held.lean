import Tickle.Writer.Cache

/-! # What the cache holds

The index ring and the arena seen as the list of records retained, oldest first. A tombstone does
not show in it, so evicting is dropping from the front: one record (`evictOne_spec`), one sample
(`evictOldest_spec`).
-/

namespace Tickle

open Serial Loop

/-- A retained record: its seq_no, its bytes in the arena, and what lies there. -/
structure Held where
  seqNo : SeqNo
  offset : Nat
  len : Nat
  record : Option Record
  deriving DecidableEq, Repr

namespace Held

def continues (held : Held) : Bool := held.record.any Record.continues

def seg (held : Held) : Nat × Nat := (held.offset, held.len)

end Held

namespace ReliableCache

variable {c c' : ReliableCache} {d : Nat}

/-- The record retained under `seqNo`. -/
def heldAt (c : ReliableCache) (d : Nat) (seqNo : SeqNo) : Option Held :=
  if c.slotLive d seqNo then
    let entry := c.slot d seqNo
    some ⟨seqNo, entry.offset, entry.len, c.arena entry.offset⟩
  else none

/-- The records retained under the `n` seq_nos from `seqNo` on. -/
def heldFrom (c : ReliableCache) (d : Nat) : Nat → SeqNo → List Held
  | 0, _ => []
  | n + 1, seqNo => (c.heldAt d seqNo).toList ++ c.heldFrom d n (seqNo + 1)

/-- Every record retained, oldest first. -/
def held (c : ReliableCache) (d : Nat) : List Held :=
  if c.retains then c.heldFrom d (steps c.oldestSeqNo c.newestSeqNo + 1) c.oldestSeqNo else []

theorem slotLive_iff {x : SeqNo} :
    c.slotLive d x = true ↔ (c.slot d x).len ≠ 0 ∧ (c.slot d x).seqNo = x := by
  simp [slotLive]

theorem heldAt_eq_none {x : SeqNo} : c.heldAt d x = none ↔ c.slotLive d x = false := by
  unfold heldAt
  split <;> simp_all

theorem heldAt_seqNo {x : SeqNo} {h : Held} (hh : c.heldAt d x = some h) : h.seqNo = x := by
  unfold heldAt at hh
  split at hh
  · injection hh with hh
    rw [← hh]
  · cases hh

theorem heldFrom_congr {n : Nat} {x : SeqNo}
    (h : ∀ i < n, c'.heldAt d (plus x i) = c.heldAt d (plus x i)) :
    c'.heldFrom d n x = c.heldFrom d n x := by
  induction n generalizing x with
  | zero => rfl
  | succ n ih =>
    have h0 := h 0 (Nat.succ_pos n)
    rw [plus_zero] at h0
    have hrest := ih (x := x + 1) fun i hi => by
      have := h (i + 1) (by omega)
      rwa [plus_succ] at this
    rw [heldFrom, heldFrom, h0, hrest]

theorem heldFrom_add (m n : Nat) (x : SeqNo) :
    c.heldFrom d (m + n) x = c.heldFrom d m x ++ c.heldFrom d n (plus x m) := by
  induction m generalizing x with
  | zero => rw [Nat.zero_add, plus_zero]; rfl
  | succ m ih =>
    rw [show m + 1 + n = (m + n) + 1 by omega, heldFrom, heldFrom, ih, plus_succ, List.append_assoc]

theorem mem_heldFrom {n : Nat} {x : SeqNo} {h : Held} :
    h ∈ c.heldFrom d n x ↔ ∃ i < n, c.heldAt d (plus x i) = some h := by
  induction n generalizing x with
  | zero => simp [heldFrom]
  | succ n ih =>
    rw [heldFrom, List.mem_append, Option.mem_toList, ih]
    constructor
    · rintro (h0 | ⟨i, hi, hh⟩)
      · exact ⟨0, by omega, by rwa [plus_zero]⟩
      · exact ⟨i + 1, by omega, by rwa [plus_succ]⟩
    · rintro ⟨i, hi, hh⟩
      cases i with
      | zero => exact Or.inl (by rwa [plus_zero] at hh)
      | succ i => exact Or.inr ⟨i, by omega, by rwa [plus_succ] at hh⟩

theorem heldFrom_length (n : Nat) (x : SeqNo) : (c.heldFrom d n x).length ≤ n := by
  induction n generalizing x with
  | zero => exact Nat.le_refl _
  | succ n ih =>
    have h1 := ih (x + 1)
    have h2 : (c.heldAt d x).toList.length ≤ 1 := by cases c.heldAt d x <;> simp
    rw [heldFrom, List.length_append]
    omega

theorem held_of_retains (h : c.retains = true) :
    c.held d = (c.heldAt d c.oldestSeqNo).toList ++
      c.heldFrom d (steps c.oldestSeqNo c.newestSeqNo) (c.oldestSeqNo + 1) := by
  rw [held, if_pos h, heldFrom]

theorem held_of_not_retains (h : c.retains = false) : c.held d = [] := by
  simp [held, h]

/-- The retained run lies within the ring and does not pass the origin's own wrap. -/
structure Ranged (c : ReliableCache) (d : Nat) : Prop where
  depth_pos : 0 < d
  depth_lt : d < 65536
  forward : c.retains = true → steps c.slotOrigin c.oldestSeqNo ≤ steps c.slotOrigin c.newestSeqNo
  near : c.retains = true → steps c.slotOrigin c.newestSeqNo < 2 ^ 31
  within : c.retains = true → steps c.oldestSeqNo c.newestSeqNo < d

/-- The oldest retained record is live. -/
def Settled (c : ReliableCache) (d : Nat) : Prop :=
  c.retains = true → c.slotLive d c.oldestSeqNo = true

theorem Ranged.steps_origin (hr : c.Ranged d) (hc : c.retains = true) :
    steps c.slotOrigin c.newestSeqNo =
      steps c.slotOrigin c.oldestSeqNo + steps c.oldestSeqNo c.newestSeqNo :=
  steps_split (hr.forward hc)

/-- The slots of the retained run are pairwise distinct. -/
theorem mod_injective {d a i j : Nat} (hi : i < d) (hj : j < d) (h : (a + i) % d = (a + j) % d) :
    i = j := by
  have h1 : i ≡ j [MOD d] := Nat.ModEq.add_left_cancel' a h
  exact h1.eq_of_lt_of_lt hi hj

theorem Ranged.slotIndex_inj (hr : c.Ranged d) (hc : c.retains = true) {i j : Nat}
    (hi : i ≤ steps c.oldestSeqNo c.newestSeqNo) (hj : j ≤ steps c.oldestSeqNo c.newestSeqNo)
    (h : c.slotIndex d (plus c.oldestSeqNo i) = c.slotIndex d (plus c.oldestSeqNo j)) : i = j := by
  have h1 := hr.steps_origin hc
  have h2 := hr.near hc
  have h3 := hr.within hc
  unfold slotIndex at h
  rw [steps_plus_of (by omega), steps_plus_of (by omega)] at h
  exact mod_injective (by omega) (by omega) h

theorem Ranged.slotIndex_ne (hr : c.Ranged d) (hc : c.retains = true) {i : Nat} (hi : 0 < i)
    (hn : i ≤ steps c.oldestSeqNo c.newestSeqNo) :
    c.slotIndex d (plus c.oldestSeqNo i) ≠ c.slotIndex d c.oldestSeqNo := by
  intro h
  have := hr.slotIndex_inj hc hn (Nat.zero_le _) (by rwa [plus_zero])
  omega

/-! ## Dropping tombstones -/

/-- What eviction leaves as it is. -/
structure SameStore (c c' : ReliableCache) : Prop where
  arena : c'.arena = c.arena
  arenaSize : c'.arenaSize = c.arenaSize
  arenaLimit : c'.arenaLimit = c.arenaLimit
  capacity : c'.capacity = c.capacity
  depth : c'.depth = c.depth
  newestSeqNo : c'.newestSeqNo = c.newestSeqNo
  sampleDepth : c'.sampleDepth = c.sampleDepth

theorem SameStore.refl (c : ReliableCache) : SameStore c c := ⟨rfl, rfl, rfl, rfl, rfl, rfl, rfl⟩

theorem SameStore.trans {c₁ c₂ c₃ : ReliableCache} (h : SameStore c₁ c₂) (h' : SameStore c₂ c₃) :
    SameStore c₁ c₃ :=
  ⟨h'.arena.trans h.arena, h'.arenaSize.trans h.arenaSize, h'.arenaLimit.trans h.arenaLimit,
    h'.capacity.trans h.capacity, h'.depth.trans h.depth, h'.newestSeqNo.trans h.newestSeqNo,
    h'.sampleDepth.trans h.sampleDepth⟩

theorem SameStore.ringDepth (h : SameStore c c') : c'.ringDepth = c.ringDepth := by
  unfold ReliableCache.ringDepth
  rw [h.capacity, h.depth, h.arenaSize]

/-- `gone` was dropped from the front of what `c` held. -/
structure Evicted (d : Nat) (c c' : ReliableCache) (gone : List Held) : Prop where
  store : SameStore c c'
  held : c.held d = gone ++ c'.held d
  log : c'.evicted = (gone.filterMap Held.record).reverse ++ c.evicted
  range : c'.retains = true → c.retains = true ∧ c'.slotOrigin = c.slotOrigin ∧ c'.tail = c.tail ∧
    steps c.oldestSeqNo c'.oldestSeqNo + steps c'.oldestSeqNo c.newestSeqNo =
      steps c.oldestSeqNo c.newestSeqNo
  index : ∀ i, c'.index i = c.index i ∨ c'.index i = { c.index i with len := 0 }

namespace Evicted

theorem refl (c : ReliableCache) : Evicted d c c [] :=
  ⟨.refl c, rfl, rfl, fun h => ⟨h, rfl, rfl, by simp⟩, fun _ => Or.inl rfl⟩

theorem index_eq {gone : List Held} (h : Evicted d c c' gone) {i : Nat}
    (hi : (c'.index i).len ≠ 0) : c'.index i = c.index i := by
  rcases h.index i with he | he
  · exact he
  · rw [he] at hi
    exact absurd rfl hi

theorem trans {c₁ c₂ c₃ : ReliableCache} {g₁ g₂ : List Held} (h : Evicted d c₁ c₂ g₁)
    (h' : Evicted d c₂ c₃ g₂) : Evicted d c₁ c₃ (g₁ ++ g₂) where
  store := h.store.trans h'.store
  held := by rw [h.held, h'.held, List.append_assoc]
  log := by rw [h'.log, h.log]; simp [List.append_assoc]
  range := by
    intro hc
    obtain ⟨r₂, o₂, t₂, e₂⟩ := h'.range hc
    obtain ⟨r₁, o₁, t₁, e₁⟩ := h.range r₂
    refine ⟨r₁, o₂.trans o₁, t₂.trans t₁, ?_⟩
    rw [h.store.newestSeqNo] at e₂
    have l₁ := steps_lt c₁.oldestSeqNo c₁.newestSeqNo
    have : steps c₁.oldestSeqNo c₃.oldestSeqNo =
        steps c₁.oldestSeqNo c₂.oldestSeqNo + steps c₂.oldestSeqNo c₃.oldestSeqNo :=
      steps_trans (by omega)
    omega
  index := by
    intro i
    rcases h'.index i with h2 | h2 <;> rcases h.index i with h1 | h1 <;> rw [h2, h1] <;> simp

theorem ranged {gone : List Held} (h : Evicted d c c' gone) (hr : c.Ranged d) : c'.Ranged d := by
  refine ⟨hr.depth_pos, hr.depth_lt, ?_, ?_, ?_⟩
  all_goals
    intro hc
    obtain ⟨h0, h1, _, h2⟩ := h.range hc
    have a := hr.forward h0
    have b := hr.near h0
    have e := hr.within h0
    have f := hr.steps_origin h0
    rw [h.store.newestSeqNo]
  · rw [h1]
    have l := steps_lt c.slotOrigin c'.oldestSeqNo
    have : steps c.slotOrigin c'.oldestSeqNo =
        steps c.slotOrigin c.oldestSeqNo + steps c.oldestSeqNo c'.oldestSeqNo :=
      steps_trans (by omega)
    omega
  · rwa [h1]
  · omega

end Evicted

theorem dropLeadingTombstones_of_live (h : c.slotLive d c.oldestSeqNo = true) :
    c.dropLeadingTombstones d = c :=
  whileN_of_not (by simp [h]) _

theorem dropLeadingTombstones_of_not_retains (h : c.retains = false) :
    c.dropLeadingTombstones d = c :=
  whileN_of_not (by simp [h]) _

theorem emptied_retains (c : ReliableCache) : c.emptied.retains = false := by
  simp [emptied, retains]

theorem dropLeadingTombstones_last (hc : c.retains = true)
    (h : c.slotLive d c.oldestSeqNo = false) (hn : c.oldestSeqNo = c.newestSeqNo) :
    c.dropLeadingTombstones d = c.emptied := by
  unfold dropLeadingTombstones
  rw [whileN_step (by simp [hc, h]), if_pos hn, whileN_of_not (by simp [emptied_retains])]

theorem dropLeadingTombstones_next (hc : c.retains = true)
    (h : c.slotLive d c.oldestSeqNo = false) (hn : c.oldestSeqNo ≠ c.newestSeqNo) :
    c.dropLeadingTombstones d =
      dropLeadingTombstones { c with oldestSeqNo := c.oldestSeqNo + 1 } d := by
  unfold dropLeadingTombstones
  rw [whileN_step (by simp [hc, h]), if_neg hn]
  simp only
  rw [steps_succ_left hn]

/-- Nothing is lost with the leading tombstones, and a live record leads what is left. -/
theorem dropLeadingTombstones_spec (c : ReliableCache) (d : Nat) :
    Evicted d c (c.dropLeadingTombstones d) [] ∧ (c.dropLeadingTombstones d).Settled d := by
  -- on the distance left to the newest: each round takes one step of it or ends the loop
  generalize hn : steps c.oldestSeqNo c.newestSeqNo = n
  induction n generalizing c with
  | zero =>
    have heq : c.oldestSeqNo = c.newestSeqNo := steps_eq_zero.mp hn
    cases hc : c.retains with
    | false =>
      rw [dropLeadingTombstones_of_not_retains hc]
      exact ⟨.refl c, fun h => by rw [hc] at h; cases h⟩
    | true =>
      cases hl : c.slotLive d c.oldestSeqNo with
      | true => rw [dropLeadingTombstones_of_live hl]; exact ⟨.refl c, fun _ => hl⟩
      | false =>
        rw [dropLeadingTombstones_last hc hl heq]
        refine ⟨⟨⟨rfl, rfl, rfl, rfl, rfl, rfl, rfl⟩, ?_, rfl, ?_, fun _ => Or.inl rfl⟩, ?_⟩
        · rw [held_of_retains hc, hn, heldAt_eq_none.mpr hl,
            held_of_not_retains (emptied_retains c)]
          rfl
        · intro h; rw [emptied_retains] at h; cases h
        · intro h; rw [emptied_retains] at h; cases h
  | succ n ih =>
    have hne : c.oldestSeqNo ≠ c.newestSeqNo := by
      intro h
      rw [h, steps_self] at hn
      omega
    cases hc : c.retains with
    | false =>
      rw [dropLeadingTombstones_of_not_retains hc]
      exact ⟨.refl c, fun h => by rw [hc] at h; cases h⟩
    | true =>
      cases hl : c.slotLive d c.oldestSeqNo with
      | true => rw [dropLeadingTombstones_of_live hl]; exact ⟨.refl c, fun _ => hl⟩
      | false =>
        rw [dropLeadingTombstones_next hc hl hne]
        have hstep := steps_succ_left hne
        obtain ⟨he, hs⟩ := ih { c with oldestSeqNo := c.oldestSeqNo + 1 } (by simp only; omega)
        refine ⟨?_, hs⟩
        have hmove : Evicted d c { c with oldestSeqNo := c.oldestSeqNo + 1 } [] := by
          refine ⟨⟨rfl, rfl, rfl, rfl, rfl, rfl, rfl⟩, ?_, rfl, ?_, fun _ => Or.inl rfl⟩
          · rw [held_of_retains hc, heldAt_eq_none.mpr hl, List.nil_append,
              show (none : Option Held).toList = [] from rfl, List.nil_append, held,
              if_pos (show retains { c with oldestSeqNo := c.oldestSeqNo + 1 } = true from hc)]
            simp only
            rw [hstep]
            exact heldFrom_congr fun i _ => rfl
          · intro _
            refine ⟨hc, rfl, rfl, ?_⟩
            simp only
            have := steps_succ c.oldestSeqNo
            omega
        exact hmove.trans he

/-! ## Evicting a record -/

theorem buryOldest_store (c : ReliableCache) (d : Nat) : SameStore c (c.buryOldest d) := by
  unfold buryOldest
  simp only
  split
  · exact ⟨rfl, rfl, rfl, rfl, rfl, rfl, rfl⟩
  · exact .refl c

theorem buryOldest_range (c : ReliableCache) (d : Nat) :
    (c.buryOldest d).slotOrigin = c.slotOrigin ∧ (c.buryOldest d).oldestSeqNo = c.oldestSeqNo ∧
      (c.buryOldest d).tail = c.tail := by
  unfold buryOldest
  simp only
  split
  · exact ⟨rfl, rfl, rfl⟩
  · exact ⟨rfl, rfl, rfl⟩

theorem buryOldest_log (c : ReliableCache) (d : Nat) : (c.buryOldest d).evicted =
    ((c.heldAt d c.oldestSeqNo).toList.filterMap Held.record).reverse ++ c.evicted := by
  unfold buryOldest heldAt slotLive
  simp only
  by_cases hs : (c.slot d c.oldestSeqNo).seqNo = c.oldestSeqNo
  · by_cases hl : (c.slot d c.oldestSeqNo).len = 0
    · simp [hs, hl]
    · simp only [hs, hl, if_true, if_false, ne_eq, not_false_eq_true, decide_true, Bool.and_self,
        Option.toList_some]
      cases c.arena (c.slot d c.oldestSeqNo).offset <;> rfl
  · simp [hs]

theorem buryOldest_index (c : ReliableCache) (d i : Nat) :
    (c.buryOldest d).index i = c.index i ∨
      (c.buryOldest d).index i = { c.index i with len := 0 } := by
  unfold buryOldest
  simp only
  split
  · by_cases hi : i = c.slotIndex d c.oldestSeqNo
    · subst hi
      exact Or.inr (Function.update_self _ _ _)
    · exact Or.inl (Function.update_of_ne hi _ _)
  · exact Or.inl rfl

/-- Only the oldest slot is touched. -/
theorem buryOldest_slot {x : SeqNo} (hx : c.slotIndex d x ≠ c.slotIndex d c.oldestSeqNo) :
    (c.buryOldest d).slot d x = c.slot d x := by
  unfold buryOldest
  simp only
  split
  · exact Function.update_of_ne hx _ _
  · rfl

theorem heldAt_of_slot {x : SeqNo} (hs : c'.slot d x = c.slot d x) (ha : c'.arena = c.arena) :
    c'.heldAt d x = c.heldAt d x := by
  unfold heldAt slotLive
  rw [hs, ha]

theorem evictOne_spec (hr : c.Ranged d) (hc : c.retains = true) :
    Evicted d c (c.evictOne d) (c.heldAt d c.oldestSeqNo).toList ∧ (c.evictOne d).Settled d := by
  obtain ⟨ho, hold, htail⟩ := buryOldest_range c d
  have hst := buryOldest_store c d
  unfold evictOne
  rw [if_neg (by simp [hc])]
  split
  · next hn =>
    have hno := emptied_retains (c.buryOldest d)
    refine ⟨⟨hst.trans ⟨rfl, rfl, rfl, rfl, rfl, rfl, rfl⟩, ?_, buryOldest_log c d, ?_,
      buryOldest_index c d⟩, ?_⟩
    · rw [held_of_retains hc, held_of_not_retains hno, ← hn, steps_self]
      rfl
    · intro h; rw [hno] at h; cases h
    · intro h; rw [hno] at h; cases h
  · next hn =>
    have hstep := steps_succ_left hn
    obtain ⟨hd, hs⟩ := dropLeadingTombstones_spec
      { c.buryOldest d with oldestSeqNo := c.oldestSeqNo + 1 } d
    refine ⟨?_, hs⟩
    have hmove : Evicted d c { c.buryOldest d with oldestSeqNo := c.oldestSeqNo + 1 }
        (c.heldAt d c.oldestSeqNo).toList := by
      have hret : retains { c.buryOldest d with oldestSeqNo := c.oldestSeqNo + 1 } = true := by
        simpa only [retains, ho] using hc
      refine ⟨hst.trans ⟨rfl, rfl, rfl, rfl, rfl, rfl, rfl⟩, ?_, buryOldest_log c d, ?_,
        buryOldest_index c d⟩
      · rw [held_of_retains hc, held, if_pos hret]
        simp only [hst.newestSeqNo]
        rw [hstep]
        congr 1
        refine (heldFrom_congr fun i hi => ?_).symm
        rw [← plus_succ]
        refine heldAt_of_slot ?_ hst.arena
        exact buryOldest_slot (hr.slotIndex_ne hc (Nat.succ_pos i) (by omega))
      · intro _
        refine ⟨hc, ho, htail, ?_⟩
        have := steps_succ c.oldestSeqNo
        simp only
        omega
    simpa using hmove.trans hd

/-! ## Evicting a sample -/

theorem heldAt_of_live {x : SeqNo} (h : c.slotLive d x = true) :
    c.heldAt d x =
      some ⟨x, (c.slot d x).offset, (c.slot d x).len, c.arena (c.slot d x).offset⟩ := by
  rw [heldAt, if_pos h]

theorem Settled.held_cons (hs : c.Settled d) (hc : c.retains = true) :
    c.held d = ⟨c.oldestSeqNo, (c.slot d c.oldestSeqNo).offset, (c.slot d c.oldestSeqNo).len,
      c.arena (c.slot d c.oldestSeqNo).offset⟩ ::
      c.heldFrom d (steps c.oldestSeqNo c.newestSeqNo) (c.oldestSeqNo + 1) := by
  rw [held_of_retains hc, heldAt_of_live (hs hc)]
  rfl

theorem Settled.retains_iff (hs : c.Settled d) : c.retains = true ↔ c.held d ≠ [] := by
  constructor
  · intro hc
    rw [hs.held_cons hc]
    simp
  · intro h
    cases hc : c.retains with
    | true => rfl
    | false => exact absurd (held_of_not_retains hc) h

theorem Settled.oldestContinues_eq (hs : c.Settled d) :
    c.oldestContinues d = (c.held d).head?.any Held.continues := by
  cases hc : c.retains with
  | false => simp [oldestContinues, hc, held_of_not_retains hc]
  | true =>
    rw [hs.held_cons hc]
    simp [oldestContinues, hc, hs hc, entryContinues, Held.continues]

theorem held_length_le (c : ReliableCache) (d : Nat) :
    (c.held d).length ≤ steps c.oldestSeqNo c.newestSeqNo + 1 := by
  unfold held
  split
  · exact heldFrom_length _ _
  · exact Nat.zero_le _

end ReliableCache

/-- A retained sample: its first record, and the continuations behind it. -/
def IsSample (group : List Held) : Prop :=
  ∃ first conts, group = first :: conts ∧ first.continues = false ∧
    ∀ h ∈ conts, h.continues = true

theorem IsSample.ne_nil {g : List Held} (h : IsSample g) : g ≠ [] := by
  obtain ⟨first, conts, rfl, _⟩ := h
  simp

/-- What a run of continuations ends before is decided by the list alone. -/
theorem continuing_prefix_unique {a b a' b' : List Held} (h : a ++ b = a' ++ b')
    (ha : ∀ x ∈ a, x.continues = true) (ha' : ∀ x ∈ a', x.continues = true)
    (hb : b.head?.any Held.continues = false) (hb' : b'.head?.any Held.continues = false) :
    a = a' ∧ b = b' := by
  induction a generalizing a' with
  | nil =>
    cases a' with
    | nil => exact ⟨rfl, h⟩
    | cons x a' =>
      simp only [List.nil_append] at h
      subst h
      simp [ha' x (by simp)] at hb
  | cons x a ih =>
    cases a' with
    | nil =>
      simp only [List.nil_append] at h
      subst h
      simp [ha x (by simp)] at hb'
    | cons y a' =>
      simp only [List.cons_append, List.cons.injEq] at h
      obtain ⟨rfl, h⟩ := h
      obtain ⟨h1, h2⟩ := ih h (fun z hz => ha z (by simp [hz])) (fun z hz => ha' z (by simp [hz]))
      exact ⟨by rw [h1], h2⟩

theorem flatten_head_not_continues {gs : List (List Held)} (h : ∀ g ∈ gs, IsSample g) :
    gs.flatten.head?.any Held.continues = false := by
  cases gs with
  | nil => rfl
  | cons g gs =>
    obtain ⟨first, conts, rfl, hf, _⟩ := h g (by simp)
    simp [hf]

namespace ReliableCache

variable {c c' : ReliableCache} {d : Nat}

/-- What the cache holds, sample by sample. -/
structure Grouped (c : ReliableCache) (d : Nat) (groups : List (List Held)) : Prop where
  ranged : c.Ranged d
  settled : c.Settled d
  held : c.held d = groups.flatten
  samples : ∀ g ∈ groups, IsSample g

theorem Grouped.retains {g : List Held} {gs : List (List Held)} (h : c.Grouped d (g :: gs)) :
    c.retains = true := by
  rw [h.settled.retains_iff, h.held]
  have := (h.samples g (by simp)).ne_nil
  simp [this]

theorem Grouped.not_retains (h : c.Grouped d []) : c.retains = false := by
  have h0 : c.held d = [] := h.held
  cases hc : c.retains with
  | false => rfl
  | true => exact absurd h0 (h.settled.retains_iff.mp hc)

theorem Grouped.evictOldest {g : List Held} {gs : List (List Held)} (h : c.Grouped d (g :: gs)) :
    Evicted d c (c.evictOldest d) g ∧ (c.evictOldest d).Grouped d gs := by
  have hc := h.retains
  obtain ⟨first, conts, rfl, hfirst, hconts⟩ := h.samples g (by simp)
  obtain ⟨hone, hset⟩ := evictOne_spec h.ranged hc
  have hhead : (c.heldAt d c.oldestSeqNo).toList = [first] ∧
      (c.evictOne d).held d = conts ++ gs.flatten := by
    have e1 := hone.held
    have e2 := h.held
    rw [heldAt_of_live (h.settled hc), Option.toList_some] at e1 ⊢
    rw [e1] at e2
    simp only [List.flatten_cons, List.cons_append, List.nil_append, List.cons.injEq] at e2
    exact ⟨by rw [e2.1], e2.2⟩
  rw [hhead.1] at hone
  -- the loop drops continuations while one leads
  have hloop : ∃ gone, Evicted d (c.evictOne d) (c.evictOldest d) gone ∧
      (c.evictOldest d).Ranged d ∧ (c.evictOldest d).Settled d ∧
      ∀ x ∈ gone, x.continues = true := by
    refine whileN_invariant (P := fun s => ∃ gone, Evicted d (c.evictOne d) s gone ∧ s.Ranged d ∧
      s.Settled d ∧ ∀ x ∈ gone, x.continues = true) ?_ _
      ⟨[], .refl _, hone.ranged h.ranged, hset, by simp⟩
    rintro s hcond ⟨gone, he, hr, hs, hg⟩
    have hsc : s.retains = true := by
      simp only [oldestContinues, Bool.and_eq_true] at hcond
      exact hcond.1.1
    obtain ⟨he', hs'⟩ := evictOne_spec hr hsc
    refine ⟨_, he.trans he', he'.ranged hr, hs', ?_⟩
    intro x hx
    rcases List.mem_append.mp hx with hx | hx
    · exact hg x hx
    · rw [hs.oldestContinues_eq, hs.held_cons hsc] at hcond
      rw [heldAt_of_live (hs hsc), Option.toList_some, List.mem_singleton] at hx
      subst hx
      simpa using hcond
  obtain ⟨gone, he, hr, hs, hg⟩ := hloop
  have hexit : (c.evictOldest d).oldestContinues d = false := by
    refine @whileN_exit ReliableCache (fun s => s.oldestContinues d) (fun s => s.evictOne d)
      (fun s => s.Ranged d ∧ s.Settled d) (fun s => (s.held d).length) ?_ ?_ _ _
      ⟨hone.ranged h.ranged, hset⟩ ?_
    · rintro s hcond ⟨hr, hs⟩
      have hsc : s.retains = true := by
        simp only [oldestContinues, Bool.and_eq_true] at hcond
        exact hcond.1.1
      obtain ⟨he', hs'⟩ := evictOne_spec hr hsc
      exact ⟨he'.ranged hr, hs'⟩
    · rintro s hcond ⟨hr, hs⟩
      have hsc : s.retains = true := by
        simp only [oldestContinues, Bool.and_eq_true] at hcond
        exact hcond.1.1
      obtain ⟨he', _⟩ := evictOne_spec hr hsc
      rw [he'.held, heldAt_of_live (hs hsc)]
      simp
    · have := held_length_le c d
      rw [hone.held] at this
      simp only [List.length_append, List.length_cons, List.length_nil] at this
      omega
  rw [hs.oldestContinues_eq] at hexit
  have heq : gone ++ (c.evictOldest d).held d = conts ++ gs.flatten := by
    rw [← he.held, hhead.2]
  obtain ⟨rfl, hrest⟩ := continuing_prefix_unique heq hg hconts hexit
    (flatten_head_not_continues fun g hg => h.samples g (by simp [hg]))
  refine ⟨by simpa using hone.trans he, ⟨hr, hs, hrest, fun g hg => h.samples g (by simp [hg])⟩⟩

end ReliableCache

/-- `kept` is what is left of a list dropped from the front while `demand` asked for it. -/
inductive Drops {α : Type*} (demand : List α → Prop) : List α → List α → Prop
  | refl (l : List α) : Drops demand l l
  | step {a : α} {l kept : List α} : demand (a :: l) → Drops demand l kept →
      Drops demand (a :: l) kept

theorem Drops.snoc {α : Type*} {demand : List α → Prop} {l kept : List α} {a : α}
    (h : Drops demand l (a :: kept)) (hd : demand (a :: kept)) : Drops demand l kept := by
  generalize hk : a :: kept = k at h
  induction h with
  | refl l => subst hk; exact .step hd (.refl _)
  | step hd' _ ih => exact .step hd' (ih hk)

theorem Drops.imp {α : Type*} {p q : List α → Prop} {l kept : List α} (h : Drops p l kept)
    (hpq : ∀ pre a post, l = pre ++ a :: post → p (a :: post) → q (a :: post)) : Drops q l kept := by
  induction h with
  | refl l => exact .refl l
  | step hd _ ih =>
    refine .step (hpq [] _ _ rfl hd) (ih fun pre a post hl => ?_)
    exact hpq (_ :: pre) a post (by rw [hl]; rfl)

/-- What `demand` does not ask for stays, and everything behind it. -/
theorem Drops.keeps {α : Type*} {demand : List α → Prop} {a b kept : List α}
    (h : Drops demand (a ++ b) kept) (hb : b ≠ [] → ¬ demand b) :
    ∃ k, kept = k ++ b ∧ Drops (fun l => demand (l ++ b)) a k := by
  induction a generalizing kept with
  | nil =>
    cases h with
    | refl => exact ⟨[], rfl, .refl _⟩
    | step hd _ => exact absurd hd (hb (by simp))
  | cons x a ih =>
    cases h with
    | refl => exact ⟨x :: a, rfl, .refl _⟩
    | step hd hrest =>
      obtain ⟨k, rfl, hk⟩ := ih hrest
      exact ⟨k, rfl, .step hd hk⟩

theorem Drops.suffix {α : Type*} {demand : List α → Prop} {l kept : List α}
    (h : Drops demand l kept) : ∃ gone, l = gone ++ kept := by
  induction h with
  | refl l => exact ⟨[], rfl⟩
  | step _ _ ih =>
    obtain ⟨gone, rfl⟩ := ih
    exact ⟨_ :: gone, rfl⟩

namespace ReliableCache

variable {c : ReliableCache} {d : Nat}

/-- A loop that evicts the oldest sample while `cond`: samples go from the front, each demanded by the
state it went in, until the condition is false. -/
theorem Grouped.evictWhile {groups : List (List Held)} (h : c.Grouped d groups)
    (cond : ReliableCache → Bool) (demand : List (List Held) → Prop)
    (asks : ∀ s gone kept, Evicted d c s gone → s.Grouped d kept → cond s = true →
      kept ≠ [] ∧ demand kept) :
    ∃ gone kept, groups = gone ++ kept ∧ Drops demand groups kept ∧
      Evicted d c (whileN cond (fun s => s.evictOldest d)
        (steps c.oldestSeqNo c.newestSeqNo + 1) c) gone.flatten ∧
      (whileN cond (fun s => s.evictOldest d)
        (steps c.oldestSeqNo c.newestSeqNo + 1) c).Grouped d kept ∧
      cond (whileN cond (fun s => s.evictOldest d)
        (steps c.oldestSeqNo c.newestSeqNo + 1) c) = false := by
  let P : ReliableCache → Prop := fun s => ∃ gone kept, groups = gone ++ kept ∧
    Drops demand groups kept ∧ Evicted d c s gone.flatten ∧ s.Grouped d kept
  have hstep : ∀ s, cond s = true → P s → P (s.evictOldest d) := by
    rintro s hcond ⟨gone, kept, rfl, hdrop, he, hg⟩
    obtain ⟨hne, hd⟩ := asks s _ kept he hg hcond
    obtain ⟨g, kept, rfl⟩ := List.exists_cons_of_ne_nil hne
    obtain ⟨he', hg'⟩ := hg.evictOldest
    refine ⟨gone ++ [g], kept, by simp, hdrop.snoc hd, ?_, hg'⟩
    simpa using he.trans he'
  have hstart : P c := ⟨[], groups, rfl, .refl _, .refl c, h⟩
  obtain ⟨gone, kept, hsplit, hdrop, he, hg⟩ := whileN_invariant hstep
    (steps c.oldestSeqNo c.newestSeqNo + 1) hstart
  refine ⟨gone, kept, hsplit, hdrop, he, hg, ?_⟩
  refine whileN_exit (P := P) (fun s => (s.held d).length) hstep ?_ _ hstart (held_length_le c d)
  rintro s hcond ⟨gone, kept, rfl, _, he, hg⟩
  obtain ⟨hne, _⟩ := asks s _ kept he hg hcond
  obtain ⟨g, kept, rfl⟩ := List.exists_cons_of_ne_nil hne
  obtain ⟨he', _⟩ := hg.evictOldest
  have := List.length_pos_iff.mpr (hg.samples g (by simp)).ne_nil
  rw [he'.held, List.length_append]
  omega

end ReliableCache

end Tickle
