import Mathlib

/-! # Pieces laid over a ground

A memory as pieces at their offsets, with the ground showing between them. Pieces in order do not hide one another
(`Ascends.overlay_mem`). Where two memories with the same pieces, laid out in two ways, change in the same places whenever the pieces
change, they are laid out in one way (`offsets_eq`).
-/

namespace Overlay

variable {α : Type*}

/-- What stands at `p`: of the first piece that reaches it, or the ground. -/
def overlay (ground : Nat → α) : List (Nat × List α) → Nat → α
  | [], p => ground p
  | piece :: rest, p =>
    if piece.1 ≤ p then piece.2.getD (p - piece.1) (overlay ground rest p) else overlay ground rest p

def Reaches (piece : Nat × List α) (p : Nat) : Prop := piece.1 ≤ p ∧ p < piece.1 + piece.2.length

/-- Each piece ends before the next begins, all between `low` and `high`. -/
def Ascends : (low : Nat) → List (Nat × List α) → (high : Nat) → Prop
  | low, [], high => low ≤ high
  | low, piece :: rest, high => low ≤ piece.1 ∧ Ascends (piece.1 + piece.2.length) rest high

variable {ground ground' : Nat → α} {pieces more : List (Nat × List α)} {piece : Nat × List α} {p low between high : Nat}

theorem overlay_missed (missed : ¬ Reaches piece p) : overlay ground (piece :: pieces) p = overlay ground pieces p := by
  simp only [overlay]
  split
  · next behind =>
    apply List.getD_eq_default
    unfold Reaches at missed
    omega
  · rfl

theorem overlay_reached (reached : Reaches piece p) :
    some (overlay ground (piece :: pieces) p) = piece.2[p - piece.1]? := by
  obtain ⟨behind, before⟩ := reached
  have inside : p - piece.1 < piece.2.length := by omega
  simp only [overlay, if_pos behind, List.getD_eq_getElem?_getD, List.getElem?_eq_getElem inside, Option.getD_some]

theorem overlay_ground (missed : ∀ piece ∈ pieces, ¬ Reaches piece p) : overlay ground pieces p = ground p := by
  induction pieces with
  | nil => rfl
  | cons piece pieces ih =>
    rw [overlay_missed (missed piece List.mem_cons_self)]
    exact ih fun other member => missed other (List.mem_cons_of_mem _ member)

theorem overlay_append_missed (missed : ∀ piece ∈ pieces, ¬ Reaches piece p) :
    overlay ground (pieces ++ more) p = overlay ground more p := by
  induction pieces with
  | nil => rfl
  | cons piece pieces ih =>
    rw [List.cons_append, overlay_missed (missed piece List.mem_cons_self)]
    exact ih fun other member => missed other (List.mem_cons_of_mem _ member)

theorem overlay_append_before (missed : ∀ piece ∈ more, ¬ Reaches piece p) :
    overlay ground (pieces ++ more) p = overlay ground pieces p := by
  induction pieces with
  | nil => exact overlay_ground missed
  | cons piece pieces ih => simp only [List.cons_append, overlay, ih]

/-- Under a piece the ground does not show. -/
theorem overlay_covered (covered : ∃ piece ∈ pieces, Reaches piece p) : overlay ground pieces p = overlay ground' pieces p := by
  induction pieces with
  | nil => simp at covered
  | cons piece pieces ih =>
    by_cases reached : Reaches piece p
    · apply Option.some.inj
      rw [overlay_reached reached, overlay_reached reached]
    · rw [overlay_missed reached, overlay_missed reached]
      apply ih
      obtain ⟨other, member, there⟩ := covered
      rcases List.mem_cons.mp member with rfl | member
      · exact absurd there reached
      · exact ⟨other, member, there⟩

theorem Ascends.le (ascends : Ascends low pieces high) : low ≤ high := by
  induction pieces generalizing low with
  | nil => exact ascends
  | cons piece pieces ih =>
    have rest := ih ascends.2
    have start := ascends.1
    omega

theorem Ascends.inside (ascends : Ascends low pieces high) (member : piece ∈ pieces) :
    low ≤ piece.1 ∧ piece.1 + piece.2.length ≤ high := by
  induction pieces generalizing low with
  | nil => simp at member
  | cons other pieces ih =>
    rcases List.mem_cons.mp member with rfl | member
    · exact ⟨ascends.1, ascends.2.le⟩
    · have rest := ih ascends.2 member
      have start := ascends.1
      omega

theorem Ascends.missed (ascends : Ascends low pieces high) (outside : p < low ∨ high ≤ p) :
    ∀ piece ∈ pieces, ¬ Reaches piece p := by
  intro piece member reached
  have inside := ascends.inside member
  unfold Reaches at reached
  omega

theorem Ascends.append (one : Ascends low pieces between) (two : Ascends between more high) :
    Ascends low (pieces ++ more) high := by
  induction pieces generalizing low with
  | nil =>
    cases more with
    | nil => exact one.trans two
    | cons piece more => exact ⟨one.trans two.1, two.2⟩
  | cons piece pieces ih => exact ⟨one.1, ih one.2⟩

theorem Ascends.weaken {low' high' : Nat} (ascends : Ascends low pieces high) (below : low' ≤ low) (above : high ≤ high') :
    Ascends low' pieces high' := by
  induction pieces generalizing low low' with
  | nil => exact below.trans (ascends.trans above)
  | cons piece pieces ih => exact ⟨below.trans ascends.1, ih ascends.2 (Nat.le_refl _)⟩

/-- A piece of a row in order is seen whole. -/
theorem Ascends.overlay_mem (ascends : Ascends low pieces high) (member : piece ∈ pieces) (reached : Reaches piece p) :
    some (overlay ground pieces p) = piece.2[p - piece.1]? := by
  induction pieces generalizing low with
  | nil => simp at member
  | cons other pieces ih =>
    rcases List.mem_cons.mp member with rfl | member
    · exact overlay_reached reached
    · have inside := ascends.2.inside member
      rw [overlay_missed]
      · exact ih ascends.2 member
      · unfold Reaches at *
        omega

/-! ## An image -/

/-- The image is what the pieces show from `start` on, over a ground of `zero`. -/
structure Shows (zero : α) (image : List α) (start : Nat) (pieces : List (Nat × List α)) : Prop where
  ascends : Ascends start pieces (start + image.length)
  shows : ∀ i < image.length, image[i]? = some (overlay (fun _ => zero) pieces (start + i))

variable {zero : α} {image image' : List α} {start : Nat}

theorem shows_ground (zero : α) (k start : Nat) : Shows zero (List.replicate k zero) start [] where
  ascends := Nat.le_add_right _ _
  shows i inside := by
    rw [List.length_replicate] at inside
    rw [List.getElem?_replicate, if_pos inside]
    rfl

theorem shows_piece (zero : α) (image : List α) (start : Nat) : Shows zero image start [(start, image)] where
  ascends := ⟨Nat.le_refl _, Nat.le_refl _⟩
  shows i inside := by
    rw [overlay_reached ⟨Nat.le_add_right _ _, Nat.add_lt_add_left inside _⟩]
    simp only [Nat.add_sub_cancel_left]

theorem Shows.append (one : Shows zero image start pieces) (two : Shows zero image' (start + image.length) more) :
    Shows zero (image ++ image') start (pieces ++ more) where
  ascends := by
    rw [List.length_append, ← Nat.add_assoc]
    exact one.ascends.append two.ascends
  shows i inside := by
    rw [List.length_append] at inside
    by_cases front : i < image.length
    · rw [List.getElem?_append_left front, one.shows i front,
        overlay_append_before (two.ascends.missed (.inl (Nat.add_lt_add_left front _)))]
    · rw [List.getElem?_append_right (by omega), two.shows _ (by omega),
        overlay_append_missed (one.ascends.missed (.inr (by omega)))]
      congr 2
      omega

/-- A piece stands in the image where it was laid. -/
theorem Shows.holds (whole : Shows zero image 0 pieces) (member : piece ∈ pieces) :
    piece.1 + piece.2.length ≤ image.length ∧ (image.drop piece.1).take piece.2.length = piece.2 := by
  have inside := whole.ascends.inside member
  rw [Nat.zero_add] at inside
  refine ⟨inside.2, List.ext_getElem? fun i => ?_⟩
  rw [List.getElem?_take]
  split
  · next within =>
    have shown := whole.shows (piece.1 + i) (by omega)
    rw [List.getElem?_drop, shown, Nat.zero_add,
      whole.ascends.overlay_mem member ⟨Nat.le_add_right _ _, Nat.add_lt_add_left within _⟩, Nat.add_sub_cancel_left]
  · next beyond => exact (List.getElem?_eq_none (by omega)).symm

/-! ## Telling two layouts apart -/

section Changes

variable [DecidableEq α] {other more' other' : List (Nat × List α)}

/-- The same places, filled in two ways. -/
def Alike (pieces other : List (Nat × List α)) : Prop :=
  List.Forall₂ (fun a b => a.1 = b.1 ∧ a.2.length = b.2.length ∧ a.2 ≠ b.2) pieces other

/-- Where two pieces differ. -/
def changes (a b : List α) : List Nat := (List.range a.length).filter fun i => a[i]? ≠ b[i]?

/-- Where two memories do. -/
def changed : List (Nat × List α) → List (Nat × List α) → List Nat
  | a :: l, b :: m => (changes a.2 b.2).map (a.1 + ·) ++ changed l m
  | _, _ => []

theorem mem_changes {a b : List α} {i : Nat} : i ∈ changes a b ↔ i < a.length ∧ a[i]? ≠ b[i]? := by
  simp [changes]

theorem changes_ne_nil {a b : List α} (same : a.length = b.length) (differ : a ≠ b) : changes a b ≠ [] := by
  intro none_
  apply differ
  apply List.ext_getElem?
  intro i
  by_contra change
  have inside : i < a.length := by
    by_contra beyond
    rw [List.getElem?_eq_none (by omega), List.getElem?_eq_none (by omega)] at change
    exact change rfl
  have member : i ∈ changes a b := mem_changes.mpr ⟨inside, change⟩
  rw [none_] at member
  simp at member

theorem changes_sorted (a b : List α) : (changes a b).Pairwise (· < ·) := List.pairwise_lt_range.filter _

theorem changed_inside (alike : Alike pieces other) (ascends : Ascends low pieces high) :
    ∀ p ∈ changed pieces other, low ≤ p ∧ p < high := by
  induction alike generalizing low with
  | nil => simp [changed]
  | cons _ _ ih =>
    intro p member
    rcases List.mem_append.mp member with here | there
    · obtain ⟨i, change, rfl⟩ := List.mem_map.mp here
      have inside := (mem_changes.mp change).1
      have start := ascends.1
      have rest := ascends.2.le
      omega
    · have rest := ih ascends.2 p there
      have start := ascends.1
      omega

theorem changed_sorted (alike : Alike pieces other) (ascends : Ascends low pieces high) :
    (changed pieces other).Pairwise (· < ·) := by
  induction alike generalizing low with
  | nil => exact List.Pairwise.nil
  | @cons a b l m _ alike ih =>
    refine List.pairwise_append.mpr ⟨?_, ih ascends.2, ?_⟩
    · exact (changes_sorted a.2 b.2).map _ fun _ _ less => Nat.add_lt_add_left less _
    · intro p here q there
      obtain ⟨i, change, rfl⟩ := List.mem_map.mp here
      have inside := (mem_changes.mp change).1
      have rest := (changed_inside alike ascends.2 q there).1
      omega

/-- The memories differ just where their pieces do, whatever the ground. -/
theorem mem_changed (alike : Alike pieces other) (ascends : Ascends low pieces high) :
    p ∈ changed pieces other ↔ overlay ground pieces p ≠ overlay ground other p := by
  induction alike generalizing low with
  | nil => simp [changed, overlay]
  | @cons a b l m same alike ih =>
    have rest := ih ascends.2
    obtain ⟨offset, length, -⟩ := same
    by_cases reached : Reaches a p
    · have reached' : Reaches b p := by
        unfold Reaches at *
        omega
      have behind : p ∉ changed l m := by
        intro member
        have inside := (changed_inside alike ascends.2 p member).1
        unfold Reaches at reached
        omega
      have here : some (overlay ground (a :: l) p) = a.2[p - a.1]? := overlay_reached reached
      have there : some (overlay ground (b :: m) p) = b.2[p - b.1]? := overlay_reached reached'
      have bytes : overlay ground (a :: l) p ≠ overlay ground (b :: m) p ↔ a.2[p - a.1]? ≠ b.2[p - a.1]? := by
        rw [← here, offset, ← there, Ne, Ne, Option.some_inj]
      rw [bytes]
      unfold Reaches at reached
      constructor
      · intro member
        rcases List.mem_append.mp member with found | found
        · obtain ⟨i, change, rfl⟩ := List.mem_map.mp found
          rw [Nat.add_sub_cancel_left]
          exact (mem_changes.mp change).2
        · exact absurd found behind
      · intro change
        apply List.mem_append_left
        refine List.mem_map.mpr ⟨p - a.1, mem_changes.mpr ⟨by omega, change⟩, by omega⟩
    · have reached' : ¬ Reaches b p := by
        unfold Reaches at *
        omega
      rw [overlay_missed reached, overlay_missed reached', ← rest]
      constructor
      · intro member
        rcases List.mem_append.mp member with found | found
        · obtain ⟨i, change, rfl⟩ := List.mem_map.mp found
          have inside := (mem_changes.mp change).1
          exact absurd ⟨Nat.le_add_right _ _, Nat.add_lt_add_left inside _⟩ reached
        · exact found
      · exact List.mem_append_right _

theorem changed_length (same : pieces.map Prod.snd = more.map Prod.snd) (same' : other.map Prod.snd = other'.map Prod.snd) :
    (changed pieces other).length = (changed more other').length := by
  induction pieces generalizing more other other' with
  | nil =>
    cases more with
    | nil => rfl
    | cons b more => simp at same
  | cons a pieces ih =>
    cases more with
    | nil => simp at same
    | cons b more =>
      cases other with
      | nil =>
        cases other' with
        | nil => rfl
        | cons d other' => simp at same'
      | cons c other =>
        cases other' with
        | nil => simp at same'
        | cons d other' =>
          simp only [List.map_cons, List.cons.injEq] at same same'
          simp only [changed, List.length_append, List.length_map, same.1, same'.1, ih same.2 same'.2]

theorem offsets_of_changed (alike : Alike pieces other) (alike' : Alike more other') (same : pieces.map Prod.snd = more.map Prod.snd)
    (same' : other.map Prod.snd = other'.map Prod.snd) (eq : changed pieces other = changed more other') :
    pieces.map Prod.fst = more.map Prod.fst := by
  induction alike generalizing more other' with
  | nil =>
    rw [List.map_nil] at same ⊢
    rw [List.map_eq_nil_iff.mp same.symm, List.map_nil]
  | @cons a b l m here alike ih =>
    cases alike' with
    | nil => simp at same
    | @cons a' b' l' m' there alike' =>
      simp only [List.map_cons, List.cons.injEq] at same same' ⊢
      simp only [changed, ← same.1, ← same'.1] at eq
      have split := List.append_inj eq (by simp only [List.length_map])
      refine ⟨?_, ih alike' same.2 same'.2 split.2⟩
      obtain ⟨i, rest, found⟩ := List.exists_cons_of_ne_nil (changes_ne_nil here.2.1 here.2.2)
      have first := split.1
      rw [found, List.map_cons, List.map_cons, List.cons.injEq] at first
      omega

/-- Wherever the one memory changes the other does too: then each piece is where it is in the other. -/
theorem offsets_eq {low' high' : Nat} (alike : Alike pieces other) (alike' : Alike more other') (ascends : Ascends low pieces high)
    (ascends' : Ascends low' more high') (same : pieces.map Prod.snd = more.map Prod.snd) (same' : other.map Prod.snd = other'.map Prod.snd)
    (follows : ∀ p ∈ changed pieces other, p ∈ changed more other') : pieces.map Prod.fst = more.map Prod.fst := by
  apply offsets_of_changed alike alike' same same'
  have sorted := changed_sorted alike ascends
  have sorted' := changed_sorted alike' ascends'
  have sub := List.subperm_of_subset (sorted.imp Nat.ne_of_lt) follows
  have perm := sub.perm_of_length_le (changed_length same same').ge
  exact perm.eq_of_pairwise (fun _ _ _ _ one two => absurd one (Nat.lt_asymm two)) sorted sorted'

end Changes

end Overlay
