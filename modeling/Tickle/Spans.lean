import Mathlib

/-! # Rows of spans

A span is a start and how many numbers it takes from there. Two rows of spans, each in order and none of one lying across one of
the other, are merged by taking from the second row whatever starts before the next of the first: the result is in order
(`Ordered.interleave`) and has every span of both (`interleave_perm`).
-/

namespace Spans

variable {α : Type*} {start extent : α → Nat}

/-- Each span ends before the next begins. -/
def Ordered (start extent : α → Nat) (row : List α) : Prop :=
  row.Pairwise fun a b => start a + extent a ≤ start b

/-- The two rows merged, by where their spans start. -/
def interleave (start : α → Nat) : List α → List α → List α
  | [], second => second
  | a :: first, second =>
    second.takeWhile (fun b => start b < start a) ++
      a :: interleave start first (second.dropWhile fun b => start b < start a)

theorem interleave_perm (first second : List α) : (interleave start first second).Perm (first ++ second) := by
  induction first generalizing second with
  | nil => exact List.Perm.refl _
  | cons a first ih =>
    have rest := ih (second.dropWhile fun b => start b < start a)
    have split := List.takeWhile_append_dropWhile (p := fun b => decide (start b < start a)) (l := second)
    calc interleave start (a :: first) second
        = second.takeWhile (fun b => start b < start a) ++
            a :: interleave start first (second.dropWhile fun b => start b < start a) := rfl
      _ |>.Perm (second.takeWhile (fun b => start b < start a) ++
            a :: (first ++ second.dropWhile fun b => start b < start a)) := (rest.cons a).append_left _
      _ |>.Perm (a :: (first ++ (second.takeWhile (fun b => start b < start a) ++
            second.dropWhile fun b => start b < start a))) := by
          refine List.perm_middle.trans (List.Perm.cons a ?_)
          rw [← List.append_assoc, ← List.append_assoc]
          exact (List.perm_append_comm).append_right _
      _ = a :: first ++ second := by rw [split, List.cons_append]

/-- A row is cut in the same place by tests that agree on it. -/
theorem cut_congr {p q : α → Bool} {row : List α} (same : ∀ a ∈ row, p a = q a) :
    row.takeWhile p = row.takeWhile q ∧ row.dropWhile p = row.dropWhile q := by
  induction row with
  | nil => exact ⟨rfl, rfl⟩
  | cons a row ih =>
    obtain ⟨taken, left⟩ := ih fun b mem => same b (List.mem_cons_of_mem _ mem)
    have first := same a (List.mem_cons_self ..)
    simp only [List.takeWhile_cons, List.dropWhile_cons, first, taken, left]
    exact ⟨trivial, trivial⟩

/-- What is left of the second row starts no earlier than the span it was left for. -/
theorem Ordered.dropWhile_ge {second : List α} {bound : Nat} (ordered : Ordered start extent second) {b : α}
    (mem : b ∈ second.dropWhile fun b => start b < bound) : bound ≤ start b := by
  induction second with
  | nil => simp at mem
  | cons c second ih =>
    obtain ⟨before, rest⟩ := List.pairwise_cons.mp ordered
    by_cases early : start c < bound
    · rw [List.dropWhile_cons_of_pos (by simpa using early)] at mem
      exact ih rest mem
    · rw [List.dropWhile_cons_of_neg (by simpa using early)] at mem
      rcases List.mem_cons.mp mem with rfl | mem
      · omega
      · have := before b mem
        omega

/-- Merged, the rows are in order. -/
theorem Ordered.interleave {first second : List α} (ordered : Ordered start extent first)
    (ordered' : Ordered start extent second) (some_ : ∀ b ∈ second, 0 < extent b)
    (apart : ∀ a ∈ first, ∀ b ∈ second, start a + extent a ≤ start b ∨ start b + extent b ≤ start a) :
    Ordered start extent (interleave start first second) := by
  induction first generalizing second with
  | nil => exact ordered'
  | cons a first ih =>
    obtain ⟨after, rest⟩ := List.pairwise_cons.mp ordered
    have taken : ∀ b ∈ second.takeWhile (fun b => start b < start a), b ∈ second ∧ start b + extent b ≤ start a := by
      intro b mem
      have early : start b < start a := by simpa using List.mem_takeWhile_imp mem
      have mem := (List.takeWhile_sublist _).subset mem
      refine ⟨mem, ?_⟩
      have := apart a (List.mem_cons_self ..) b mem
      omega
    have left : ∀ b ∈ second.dropWhile (fun b => start b < start a), b ∈ second ∧ start a + extent a ≤ start b := by
      intro b mem
      have late := ordered'.dropWhile_ge mem
      have mem := (List.dropWhile_sublist _).subset mem
      refine ⟨mem, ?_⟩
      have := apart a (List.mem_cons_self ..) b mem
      have := some_ b mem
      omega
    have merged := ih rest (List.Pairwise.sublist (List.dropWhile_sublist _) ordered') (fun b mem => some_ b (left b mem).1)
      fun c mem b mem' => apart c (List.mem_cons_of_mem _ mem) b (left b mem').1
    -- whatever follows in the merged row follows `a`
    have behind : ∀ b ∈ Spans.interleave start first (second.dropWhile fun b => start b < start a),
        start a + extent a ≤ start b := by
      intro b mem
      rcases List.mem_append.mp ((interleave_perm _ _).subset mem) with mem | mem
      · exact after b mem
      · exact (left b mem).2
    refine List.pairwise_append.mpr ⟨List.Pairwise.sublist (List.takeWhile_sublist _) ordered',
      List.pairwise_cons.mpr ⟨behind, merged⟩, ?_⟩
    intro b mem c mem'
    have early := (taken b mem).2
    rcases List.mem_cons.mp mem' with rfl | mem'
    · exact early
    · have := behind c mem'
      omega

/-- The numbers that spans in order use of their own are in order. -/
theorem Ordered.numbers {row : List α} (ordered : Ordered start extent row) {width : α → Nat}
    (within : ∀ a ∈ row, width a ≤ extent a) :
    (row.flatMap fun a => List.range' (start a) (width a)).Pairwise (· < ·) := by
  induction row with
  | nil => exact List.Pairwise.nil
  | cons a row ih =>
    obtain ⟨after, rest⟩ := List.pairwise_cons.mp ordered
    have own := within a (List.mem_cons_self ..)
    rw [List.flatMap_cons]
    refine List.pairwise_append.mpr ⟨List.pairwise_lt_range', ih rest fun b mem => within b (List.mem_cons_of_mem _ mem), ?_⟩
    intro n mem m mem'
    obtain ⟨b, behind, mem'⟩ := List.mem_flatMap.mp mem'
    have := after b behind
    simp only [List.mem_range'_1] at mem mem'
    omega

end Spans
