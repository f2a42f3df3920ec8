import Mathlib

/-! # Cumulative watermarks

A stream is followed by its watermark, the first position not settled yet, and the finite set of positions recorded.
`settle` moves the watermark over what is recorded right behind it. What a move passes is recorded or it is not:
`passed` counts the first, and the counts of consecutive moves add up.
-/

namespace Watermark

/-- A finite set has a position past `w` that it lacks. -/
theorem exists_gap (r : Finset Nat) (w : Nat) : ∃ n, w + n ∉ r := by
  by_contra full
  have infinite := Set.infinite_of_injective_forall_mem (f := fun n => w + n) (s := (r : Set Nat))
    (fun a b same => Nat.add_left_cancel same) (fun n => by_contra fun out => full ⟨n, out⟩)
  exact infinite r.finite_toSet

/-- The first position from `w` on that is not recorded. -/
def settle (r : Finset Nat) (w : Nat) : Nat := w + Nat.find (exists_gap r w)

theorem le_settle (r : Finset Nat) (w : Nat) : w ≤ settle r w := Nat.le_add_right _ _

theorem settle_notMem (r : Finset Nat) (w : Nat) : settle r w ∉ r := Nat.find_spec (exists_gap r w)

theorem mem_of_lt_settle {r : Finset Nat} {w p : Nat} (after : w ≤ p) (before : p < settle r w) : p ∈ r := by
  have recorded := Nat.find_min (exists_gap r w) (show p - w < Nat.find (exists_gap r w) by unfold settle at before; omega)
  rw [not_not, Nat.add_sub_cancel' after] at recorded
  exact recorded

theorem settle_of_notMem {r : Finset Nat} {w : Nat} (gap : w ∉ r) : settle r w = w := by
  by_contra moved
  exact gap (mem_of_lt_settle (Nat.le_refl w) (lt_of_le_of_ne (le_settle r w) (Ne.symm moved)))

theorem settle_of_mem {r : Finset Nat} {w : Nat} (here : w ∈ r) : settle r w = settle r (w + 1) := by
  apply le_antisymm
  · by_contra past
    exact settle_notMem r (w + 1) (mem_of_lt_settle (by have := le_settle r (w + 1); omega) (not_le.mp past))
  · by_contra past
    have first : settle r w ≠ w := fun same => settle_notMem r w (by rw [same]; exact here)
    have := le_settle r w
    exact settle_notMem r w (mem_of_lt_settle (w := w + 1) (by omega) (not_le.mp past))

/-- Nothing recorded lies from `bound` on, so the watermark does not pass it. -/
theorem settle_le {r : Finset Nat} {w bound : Nat} (below : ∀ p ∈ r, p < bound) (start : w ≤ bound) :
    settle r w ≤ bound := by
  by_contra past
  exact absurd (below bound (mem_of_lt_settle start (not_le.mp past))) (Nat.lt_irrefl bound)

theorem settle_congr {r r' : Finset Nat} {w : Nat} (same : ∀ p, w ≤ p → (p ∈ r ↔ p ∈ r')) : settle r w = settle r' w := by
  apply le_antisymm
  · by_contra past
    have after := le_settle r' w
    exact settle_notMem r' w ((same _ after).mp (mem_of_lt_settle after (not_le.mp past)))
  · by_contra past
    have after := le_settle r w
    exact settle_notMem r w ((same _ after).mpr (mem_of_lt_settle after (not_le.mp past)))

/-- The positions recorded among those passed. -/
def passed (r : Finset Nat) (w w' : Nat) : Nat := (r.filter fun p => w ≤ p ∧ p < w').card

theorem passed_self (r : Finset Nat) (w : Nat) : passed r w w = 0 := by
  unfold passed
  rw [Finset.card_eq_zero, Finset.filter_eq_empty_iff]
  intro p _
  omega

theorem passed_add {r : Finset Nat} {a b c : Nat} (first : a ≤ b) (second : b ≤ c) :
    passed r a c = passed r a b + passed r b c := by
  unfold passed
  rw [← Finset.card_union_of_disjoint]
  · congr 1
    ext p
    simp only [Finset.mem_union, Finset.mem_filter]
    constructor
    · rintro ⟨member, after, before⟩
      by_cases here : p < b
      · exact Or.inl ⟨member, after, here⟩
      · exact Or.inr ⟨member, by omega, before⟩
    · rintro (⟨member, after, before⟩ | ⟨member, after, before⟩)
      · exact ⟨member, after, by omega⟩
      · exact ⟨member, by omega, before⟩
  · rw [Finset.disjoint_filter]
    intro p _ here
    omega

theorem passed_le (r : Finset Nat) (w w' : Nat) : passed r w w' ≤ w' - w := by
  unfold passed
  rw [← Nat.card_Ico]
  apply Finset.card_le_card
  intro p member
  exact Finset.mem_Ico.mpr (Finset.mem_filter.mp member).2

theorem passed_full {r : Finset Nat} {w w' : Nat} (all : ∀ p, w ≤ p → p < w' → p ∈ r) : passed r w w' = w' - w := by
  unfold passed
  rw [← Nat.card_Ico]
  congr 1
  ext p
  rw [Finset.mem_filter, Finset.mem_Ico]
  exact ⟨fun h => h.2, fun h => ⟨all p h.1 h.2, h⟩⟩

theorem passed_congr {r r' : Finset Nat} {w w' : Nat} (same : ∀ p, w ≤ p → p < w' → (p ∈ r ↔ p ∈ r')) :
    passed r w w' = passed r' w w' := by
  unfold passed
  congr 1
  ext p
  simp only [Finset.mem_filter]
  constructor
  · rintro ⟨member, after, before⟩
    exact ⟨(same p after before).mp member, after, before⟩
  · rintro ⟨member, after, before⟩
    exact ⟨(same p after before).mpr member, after, before⟩

theorem passed_settle (r : Finset Nat) (w : Nat) : passed r w (settle r w) = settle r w - w :=
  passed_full fun _ after before => mem_of_lt_settle after before

end Watermark
