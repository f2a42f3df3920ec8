import Tickle.Writer.Runs

/-! # The simulated eviction

`reliable_cache_admits()` evicts record by record on copied fields, skipping tombstones, and says yes
when the bytes fit or nothing is left. Against the records held: it says yes exactly when the bytes fit
beside what it may not evict, the records from the first unacknowledged one on (`admits_iff`).
-/

namespace Tickle

open Serial Loop RingArena

namespace ReliableCache

variable {c : ReliableCache} {d : Nat}

/-! ## Skipping tombstones -/

theorem admitsSkip_of_live {x : SeqNo} (h : c.slotLive d x = true) : c.admitsSkip d x = (true, x) :=
  whileN_of_not (by simp [h]) _

theorem admitsSkip_last (h : c.slotLive d c.newestSeqNo = false) :
    c.admitsSkip d c.newestSeqNo = (false, c.newestSeqNo) := by
  unfold admitsSkip
  rw [whileN_step (by simp [h]), if_pos rfl, whileN_of_not (by simp)]

theorem admitsSkip_next {x : SeqNo} (h : c.slotLive d x = false) (hn : x ≠ c.newestSeqNo) :
    c.admitsSkip d x = c.admitsSkip d (x + 1) := by
  unfold admitsSkip
  rw [whileN_step (by simp [h]), if_neg hn, ← steps_succ_left hn]

/-- The walk stops at the next record held, or has found that there is none. -/
theorem admitsSkip_spec (x : SeqNo) (hx : steps x c.newestSeqNo < 2 ^ 32 - 1) :
    (∃ y, c.admitsSkip d x = (true, y) ∧ c.slotLive d y = true ∧
      steps y c.newestSeqNo ≤ steps x c.newestSeqNo ∧
      c.heldFrom d (steps y c.newestSeqNo + 1) y = c.heldFrom d (steps x c.newestSeqNo + 1) x) ∨
    (∃ y, c.admitsSkip d x = (false, y)) ∧
      c.heldFrom d (steps x c.newestSeqNo + 1) x = [] := by
  generalize hn : steps x c.newestSeqNo = n at hx ⊢
  induction n generalizing x with
  | zero =>
    obtain rfl : x = c.newestSeqNo := steps_eq_zero.mp hn
    cases hl : c.slotLive d c.newestSeqNo with
    | true => exact Or.inl ⟨_, admitsSkip_of_live hl, hl, by omega, by rw [hn]⟩
    | false =>
      refine Or.inr ⟨⟨_, admitsSkip_last hl⟩, ?_⟩
      rw [heldFrom, heldFrom, heldAt_eq_none.mpr hl]
      rfl
  | succ n ih =>
    cases hl : c.slotLive d x with
    | true => exact Or.inl ⟨x, admitsSkip_of_live hl, hl, by omega, by rw [hn]⟩
    | false =>
      have hne : x ≠ c.newestSeqNo := by
        intro h
        rw [h, steps_self] at hn
        omega
      have hstep := steps_succ_left hne
      have hheld : c.heldFrom d (n + 1 + 1) x = c.heldFrom d (n + 1) (x + 1) := by
        rw [heldFrom, heldAt_eq_none.mpr hl]
        rfl
      rw [admitsSkip_next hl hne, hheld]
      rcases ih (x + 1) (by omega) (by omega) with ⟨y, h1, h2, h3, h4⟩ | h
      · exact Or.inl ⟨y, h1, h2, by omega, h4⟩
      · exact Or.inr h

/-! ## The walk on the records held -/

/-- The walk of `reliable_cache_admits()` on a list of records. -/
def admitsHeld (size tail length : Nat) (ackedThrough : SeqNo) : List Held → Prop
  | [] => True
  | h :: rest => (∃ offset, Fits size ((h :: rest).map Held.seg) tail length offset) ∨
      (¬ seqDelta ackedThrough h.seqNo < 0 ∧ admitsHeld size tail length ackedThrough rest)

theorem admitsWalk_iff {length : Nat} {ackedThrough : SeqNo} (hpos : 0 < length) (fuel : Nat)
    (x : SeqNo) (hlive : c.slotLive d x = true) (hx : steps x c.newestSeqNo < 2 ^ 32 - 1)
    (hfuel : steps x c.newestSeqNo + 1 < fuel) :
    c.admitsWalk d length ackedThrough fuel true x c.tail = true ↔
      admitsHeld c.arenaSize c.tail length ackedThrough
        (c.heldFrom d (steps x c.newestSeqNo + 1) x) := by
  induction fuel generalizing x with
  | zero => omega
  | succ fuel ih =>
    have hcons : c.heldFrom d (steps x c.newestSeqNo + 1) x =
        ⟨x, (c.slot d x).offset, (c.slot d x).len, c.arena (c.slot d x).offset⟩ ::
          c.heldFrom d (steps x c.newestSeqNo) (x + 1) := by
      rw [heldFrom, heldAt_of_live hlive]
      rfl
    have hfits : (offsetIn c.arenaSize false (c.slot d x).offset c.tail length).isSome = true ↔
        ∃ offset, Fits c.arenaSize ((⟨x, (c.slot d x).offset, (c.slot d x).len,
          c.arena (c.slot d x).offset⟩ :: c.heldFrom d (steps x c.newestSeqNo) (x + 1)).map
            Held.seg) c.tail length offset := by
      rw [Option.isSome_iff_exists]
      refine exists_congr fun offset => ?_
      rw [← offsetIn_eq_some hpos]
      rfl
    rw [hcons, admitsHeld, ← hfits, admitsWalk]
    simp only [Bool.not_true, Bool.false_eq_true, if_false]
    cases ho : (offsetIn c.arenaSize false (c.slot d x).offset c.tail length).isSome with
    | true => simp
    | false =>
      simp only [Bool.false_eq_true, if_false, false_or]
      by_cases hack : seqDelta ackedThrough x < 0
      · simp [hack]
      · rw [if_neg hack]
        simp only [hack, not_false_eq_true, true_and]
        by_cases hn : x = c.newestSeqNo
        · rw [if_pos hn]
          subst hn
          obtain ⟨k, rfl⟩ : ∃ k, fuel = k + 1 := ⟨fuel - 1, by omega⟩
          simp [admitsWalk, heldFrom, admitsHeld]
        · rw [if_neg hn]
          have hstep := steps_succ_left hn
          rw [show steps x c.newestSeqNo = steps (x + 1) c.newestSeqNo + 1 by omega]
          rcases @admitsSkip_spec c d (x + 1) (by omega) with ⟨y, h1, h2, h3, h4⟩ | ⟨⟨y, h1⟩, h2⟩
          · rw [h1, ← h4]
            exact ih y h2 (by omega) (by omega)
          · rw [h1, h2]
            obtain ⟨k, rfl⟩ : ∃ k, fuel = k + 1 := ⟨fuel - 1, by omega⟩
            simp [admitsWalk, admitsHeld]

/-- `reliable_cache_admits()` against the records held. -/
theorem Stored.admits_iff {groups : List (List Held)} {length : Nat} {ackedThrough : SeqNo}
    (hs : c.Stored d groups) (hpos : 0 < length) :
    c.admits d length ackedThrough = true ↔
      c.arenaSize < length ∨ admitsHeld c.arenaSize c.tail length ackedThrough groups.flatten := by
  unfold admits
  by_cases hlen : length > c.arenaSize
  · simp [hlen]
  · rw [if_neg hlen]
    have hlen' : ¬ c.arenaSize < length := hlen
    simp only [hlen', false_or]
    cases hc : c.retains with
    | false =>
      have hnil := hs.grouped.held
      rw [held_of_not_retains hc] at hnil
      rw [← hnil]
      simp [admitsHeld]
    | true =>
      have hw := hs.grouped.ranged.within hc
      have hlt := hs.grouped.ranged.depth_lt
      have h := @admitsWalk_iff c d length ackedThrough hpos
        (steps c.oldestSeqNo c.newestSeqNo + 2) c.oldestSeqNo (hs.grouped.settled hc) (by omega)
        (by omega)
      rw [← hs.grouped.held, held, if_pos hc, ← h]
      simp

/-- Yes leaves room before every record that is not acknowledged. -/
theorem admitsHeld_fits {size tail length : Nat} {ackedThrough : SeqNo} {l pre post : List Held}
    {h : Held} (hy : admitsHeld size tail length ackedThrough l) (hl : Laid size (l.map Held.seg) tail)
    (hsplit : l = pre ++ h :: post) (hh : seqDelta ackedThrough h.seqNo < 0) :
    ∃ offset, Fits size ((h :: post).map Held.seg) tail length offset := by
  induction pre generalizing l with
  | nil =>
    subst hsplit
    rcases hy with hy | ⟨hy, _⟩
    · exact hy
    · exact absurd hh hy
  | cons x pre ih =>
    subst hsplit
    rcases hy with ⟨offset, hf⟩ | ⟨_, hy⟩
    · have hmap : (x :: pre ++ h :: post).map Held.seg =
          (x :: pre).map Held.seg ++ h.seg :: post.map Held.seg := by simp
      have hf' : Fits size ((x :: pre).map Held.seg ++ h.seg :: post.map Held.seg) tail length
          offset := hmap ▸ hf
      exact Fits.drop (hmap ▸ hl) hf'
    · refine ih hy ?_ rfl
      exact hl.drop_head (by simp)

/-- With every record before them acknowledged, the answer is whether the bytes fit beside the rest. -/
theorem admitsHeld_of_acked {size tail length : Nat} {ackedThrough : SeqNo} {pre post : List Held}
    (hpre : ∀ h ∈ pre, ¬ seqDelta ackedThrough h.seqNo < 0)
    (hpost : admitsHeld size tail length ackedThrough post) :
    admitsHeld size tail length ackedThrough (pre ++ post) := by
  induction pre with
  | nil => exact hpost
  | cons x pre ih =>
    exact Or.inr ⟨hpre x (by simp), ih fun h hh => hpre h (by simp [hh])⟩

end ReliableCache

end Tickle
