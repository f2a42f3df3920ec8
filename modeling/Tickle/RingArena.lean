import Mathlib

/-! # A byte arena filled as a ring

Segments `(offset, length)` are placed behind one another, oldest first; one that does not fit
before the end of the arena goes to offset 0, and the bytes behind its predecessor stay unused until
the ring passes them. `Laid size segs tail` says that `segs` lie so in an arena of `size` bytes with
the next free byte at `tail`:

* a segment placed where the ring's rules put it (`Fits`) keeps it (`Laid.place`);
* dropping the oldest segments keeps it (`Laid.drop`), and what fitted still fits (`Fits.drop`);
* no two segments overlap (`Laid.disjoint`) and none passes the end (`Laid.inside`).

`Room size start tail rest` says that segments of sizes `rest`, placed one by one behind `tail`, do
not come round to the live segment at `start`: dropping what is older than that segment is enough to
place them all (`Room.fits`, `Room.place`).
-/

namespace RingArena

/-- Nonempty segments in address order between `lo` and `hi`, none overlapping the next. -/
def Ascending : Nat → List (Nat × Nat) → Nat → Prop
  | lo, [], hi => lo ≤ hi
  | lo, (offset, length) :: segs, hi =>
    lo ≤ offset ∧ 0 < length ∧ Ascending (offset + length) segs hi

namespace Ascending

theorem le {lo hi : Nat} {segs : List (Nat × Nat)} (h : Ascending lo segs hi) : lo ≤ hi := by
  induction segs generalizing lo with
  | nil => exact h
  | cons seg segs ih =>
    obtain ⟨hlo, _, hrest⟩ := h
    have := ih hrest
    omega

theorem mono {lo lo' hi hi' : Nat} {segs : List (Nat × Nat)} (h : Ascending lo segs hi)
    (hlo : lo' ≤ lo) (hhi : hi ≤ hi') : Ascending lo' segs hi' := by
  induction segs generalizing lo lo' with
  | nil => simp only [Ascending] at h ⊢; omega
  | cons seg segs ih =>
    obtain ⟨h1, h2, h3⟩ := h
    exact ⟨by omega, h2, ih h3 (Nat.le_refl _)⟩

theorem append {lo mid hi : Nat} {a b : List (Nat × Nat)} (ha : Ascending lo a mid)
    (hb : Ascending mid b hi) : Ascending lo (a ++ b) hi := by
  induction a generalizing lo with
  | nil => exact hb.mono ha (Nat.le_refl _)
  | cons seg a ih => exact ⟨ha.1, ha.2.1, ih ha.2.2⟩

theorem left {lo hi : Nat} {a b : List (Nat × Nat)} (h : Ascending lo (a ++ b) hi) :
    Ascending lo a hi := by
  induction a generalizing lo with
  | nil => exact h.le
  | cons seg a ih => exact ⟨h.1, h.2.1, ih h.2.2⟩

theorem snoc {lo hi offset length hi' : Nat} {segs : List (Nat × Nat)} (h : Ascending lo segs hi)
    (ho : hi ≤ offset) (hpos : 0 < length) (hl : offset + length ≤ hi') :
    Ascending lo (segs ++ [(offset, length)]) hi' :=
  h.append ⟨ho, hpos, hl⟩

theorem within {lo hi : Nat} {segs : List (Nat × Nat)} (h : Ascending lo segs hi) {seg : Nat × Nat}
    (hs : seg ∈ segs) : lo ≤ seg.1 ∧ 0 < seg.2 ∧ seg.1 + seg.2 ≤ hi := by
  induction segs generalizing lo with
  | nil => simp at hs
  | cons a segs ih =>
    obtain ⟨h1, h2, h3⟩ := h
    rcases List.mem_cons.mp hs with rfl | hs
    · exact ⟨h1, h2, h3.le⟩
    · have := ih h3 hs
      exact ⟨by omega, this.2⟩

theorem pairwise {lo hi : Nat} {segs : List (Nat × Nat)} (h : Ascending lo segs hi) :
    segs.Pairwise (fun a b => a.1 + a.2 ≤ b.1) := by
  induction segs generalizing lo with
  | nil => exact List.Pairwise.nil
  | cons a segs ih => exact List.Pairwise.cons (fun b hb => (h.2.2.within hb).1) (ih h.2.2)

end Ascending

/-- Live segments, oldest first: one run from the head to the tail, or a run from the head to the
end of the arena and a second one, possibly given back already, from its start to the tail. -/
inductive Laid (size : Nat) : List (Nat × Nat) → Nat → Prop
  | flat {head length tail : Nat} {segs : List (Nat × Nat)} :
      Ascending head ((head, length) :: segs) tail → tail ≤ size →
      Laid size ((head, length) :: segs) tail
  | wrapped {head length tail : Nat} {upper lower : List (Nat × Nat)} :
      Ascending head ((head, length) :: upper) size → Ascending 0 lower tail →
      tail ≤ head → Laid size ((head, length) :: upper ++ lower) tail

def Disjoint (a b : Nat × Nat) : Prop := a.1 + a.2 ≤ b.1 ∨ b.1 + b.2 ≤ a.1

/-- The head's offset; 0 with nothing live. -/
def headOffset : List (Nat × Nat) → Nat
  | [] => 0
  | seg :: _ => seg.1

/-- Where a segment goes: behind the tail, or at the start of the arena when the end is too near. -/
def Fits (size : Nat) (segs : List (Nat × Nat)) (tail footprint offset : Nat) : Prop :=
  (headOffset segs < tail ∧ tail + footprint ≤ size ∧ offset = tail) ∨
  (headOffset segs < tail ∧ size < tail + footprint ∧ footprint ≤ headOffset segs ∧ offset = 0) ∨
  (tail < headOffset segs ∧ tail + footprint ≤ headOffset segs ∧ offset = tail)

namespace Laid

variable {size tail : Nat} {segs : List (Nat × Nat)}

theorem single {offset length footprint : Nat} (hpos : 0 < length) (hl : length ≤ footprint)
    (hs : offset + footprint ≤ size) : Laid size [(offset, length)] (offset + footprint) :=
  .flat ⟨Nat.le_refl _, hpos, by simp only [Ascending]; omega⟩ hs

theorem inside (h : Laid size segs tail) {seg : Nat × Nat} (hs : seg ∈ segs) :
    0 < seg.2 ∧ seg.1 + seg.2 ≤ size := by
  cases h with
  | flat asc hsize =>
    obtain ⟨_, hpos, hend⟩ := asc.within hs
    exact ⟨hpos, by omega⟩
  | wrapped up low htail =>
    rcases List.mem_append.mp hs with hs | hs
    · exact (up.within hs).2
    · obtain ⟨_, hpos, hend⟩ := low.within hs
      have := up.le
      exact ⟨hpos, by omega⟩

theorem disjoint (h : Laid size segs tail) : segs.Pairwise Disjoint := by
  cases h with
  | flat asc _ => exact asc.pairwise.imp (fun hab => Or.inl hab)
  | wrapped up low htail =>
    refine List.pairwise_append.mpr
      ⟨up.pairwise.imp (fun hab => Or.inl hab), low.pairwise.imp (fun hab => Or.inl hab), ?_⟩
    intro a ha b hb
    have := (up.within ha).1
    have := (low.within hb).2
    exact Or.inr (by omega)

theorem place (h : Laid size segs tail) {length footprint offset : Nat} (hpos : 0 < length)
    (hl : length ≤ footprint) (hf : Fits size segs tail footprint offset) :
    Laid size (segs ++ [(offset, length)]) (offset + footprint) := by
  cases h with
  | @flat head len _ rest asc hsize =>
    have hle := asc.2.2.le
    have hlen := asc.2.1
    simp only [Fits, headOffset] at hf
    rcases hf with ⟨_, hend, rfl⟩ | ⟨_, _, hfront, rfl⟩ | ⟨hlt, _⟩
    · exact .flat (asc.snoc (Nat.le_refl _) hpos (by omega)) hend
    · have hlow : Ascending 0 [(0, length)] (0 + footprint) :=
        ⟨Nat.le_refl _, hpos, by simp only [Ascending]; omega⟩
      exact .wrapped (asc.mono (Nat.le_refl _) hsize) hlow (by omega)
    · omega
  | @wrapped head len _ upper lower up low htail =>
    simp only [Fits, headOffset, List.cons_append] at hf
    rcases hf with ⟨hlt, _⟩ | ⟨hlt, _⟩ | ⟨_, hend, rfl⟩
    · omega
    · omega
    · have hlow : Ascending 0 (lower ++ [(offset, length)]) (offset + footprint) :=
        low.snoc (Nat.le_refl _) hpos (by omega)
      simpa using Laid.wrapped up hlow hend

theorem drop_head {seg : Nat × Nat} (h : Laid size (seg :: segs) tail) (hne : segs ≠ []) :
    Laid size segs tail := by
  generalize hall : seg :: segs = all at h
  cases h with
  | flat asc hsize =>
    obtain ⟨-, rfl⟩ := List.cons.inj hall
    obtain ⟨next, rest, rfl⟩ := List.exists_cons_of_ne_nil hne
    exact .flat ⟨Nat.le_refl _, asc.2.2.2⟩ hsize
  | @wrapped head _ _ upper lower up low htail =>
    obtain ⟨-, rfl⟩ := List.cons.inj hall
    cases upper with
    | cons next rest =>
      obtain ⟨_, _, h1, h2⟩ := up
      exact @Laid.wrapped size _ _ _ rest lower ⟨Nat.le_refl _, h2⟩ low (by omega)
    | nil =>
      obtain ⟨next, rest, rfl⟩ := List.exists_cons_of_ne_nil hne
      have := up.le
      exact .flat ⟨Nat.le_refl _, low.2⟩ (by omega)

theorem drop (h : Laid size segs tail) {n : Nat} (hn : n < segs.length) :
    Laid size (segs.drop n) tail := by
  induction n generalizing segs with
  | zero => simpa using h
  | succ n ih =>
    cases segs with
    | nil => simp at hn
    | cons seg segs =>
      simp only [List.length_cons, Nat.add_lt_add_iff_right] at hn
      exact ih (h.drop_head (List.ne_nil_of_length_pos (by omega))) hn

/-- Giving back the newest segments moves nothing: the tail stays where it was. -/
theorem take {b : List (Nat × Nat)} (h : Laid size (segs ++ b) tail) (hne : segs ≠ []) :
    Laid size segs tail := by
  obtain ⟨first, rest, rfl⟩ := List.exists_cons_of_ne_nil hne
  generalize hall : first :: rest ++ b = all at h
  cases h with
  | flat asc hsize =>
    obtain ⟨rfl, rfl⟩ := List.cons.inj hall
    exact .flat ⟨asc.1, asc.2.1, asc.2.2.left⟩ hsize
  | @wrapped head len _ upper lower up low htail =>
    rw [List.cons_append, List.cons_append] at hall
    obtain ⟨rfl, hrest⟩ := List.cons.inj hall
    rcases List.append_eq_append_iff.mp hrest with ⟨cut, rfl, _⟩ | ⟨cut, rfl, rfl⟩
    · simpa using @Laid.wrapped size _ _ tail rest [] ⟨up.1, up.2.1, up.2.2.left⟩
        (Nat.zero_le _) htail
    · simpa using @Laid.wrapped size _ _ tail upper cut up low.left htail

/-- A new arena at least as large keeps segments packed from its start. -/
theorem flat_of_ascending (hne : segs ≠ []) (h : Ascending 0 segs tail) (hs : tail ≤ size) :
    Laid size segs tail := by
  obtain ⟨next, rest, rfl⟩ := List.exists_cons_of_ne_nil hne
  exact .flat ⟨Nat.le_refl _, h.2⟩ hs

end Laid

theorem Ascending.sum_le {lo hi : Nat} {segs : List (Nat × Nat)} (h : Ascending lo segs hi) :
    lo + (segs.map Prod.snd).sum ≤ hi := by
  induction segs generalizing lo with
  | nil => simpa [Ascending] using h
  | cons seg segs ih =>
    obtain ⟨h1, _, h3⟩ := h
    have := ih h3
    simp only [List.map_cons, List.sum_cons]
    omega

/-- Live segments take no more bytes than the arena has. -/
theorem Laid.sum_le {size tail : Nat} {segs : List (Nat × Nat)} (h : Laid size segs tail) :
    (segs.map Prod.snd).sum ≤ size := by
  cases h with
  | flat asc hsize =>
    have := asc.sum_le
    omega
  | wrapped up low htail =>
    have h1 := up.sum_le
    have h2 := low.sum_le
    simp only [List.map_append, List.sum_append]
    omega

/-- Where the head of a suffix lies, seen from the whole. -/
theorem Laid.head_suffix {size tail : Nat} {pre post : List (Nat × Nat)} {seg : Nat × Nat}
    (h : Laid size (pre ++ seg :: post) tail) :
    (headOffset (pre ++ seg :: post) ≤ seg.1 ∧ seg.1 < tail ∧ tail ≤ size) ∨
    (seg.1 < tail ∧ tail ≤ headOffset (pre ++ seg :: post) ∧ pre ≠ [] ∧
      headOffset (pre ++ seg :: post) ≤ size) ∨
    (tail ≤ headOffset (pre ++ seg :: post) ∧ headOffset (pre ++ seg :: post) ≤ seg.1 ∧
      seg.1 ≤ size) := by
  have hmem : seg ∈ pre ++ seg :: post := by simp
  generalize hall : pre ++ seg :: post = all at h hmem
  cases h with
  | flat asc hsize =>
    obtain ⟨hlo, hpos, hhi⟩ := asc.within hmem
    exact Or.inl ⟨hlo, by omega, hsize⟩
  | @wrapped head len _ upper lower up low htail =>
    have hle := up.le
    rcases List.mem_append.mp hmem with hs | hs
    · obtain ⟨hlo, hpos, hhi⟩ := up.within hs
      exact Or.inr (Or.inr ⟨htail, hlo, by omega⟩)
    · obtain ⟨hlo, hpos, hhi⟩ := low.within hs
      refine Or.inr (Or.inl ⟨by omega, htail, ?_, hle⟩)
      rintro rfl
      simp only [List.nil_append, List.cons_append] at hall
      have hseg : seg = (head, len) := (List.cons.inj hall).1
      subst hseg
      simp only at hhi
      omega

/-! ## Room for a run of segments -/

/-- What is left of `sizes` from the first one that does not fit in `room`, taken in order. -/
def spill : Nat → List Nat → Nat
  | _, [] => 0
  | room, size :: sizes => if size ≤ room then spill (room - size) sizes else (size :: sizes).sum

theorem spill_eq_zero {room : Nat} {sizes : List Nat} (h : sizes.sum ≤ room) :
    spill room sizes = 0 := by
  induction sizes generalizing room with
  | nil => rfl
  | cons size sizes ih =>
    simp only [List.sum_cons] at h
    rw [spill, if_pos (by omega)]
    exact ih (by omega)

theorem spill_le_sum (room : Nat) (sizes : List Nat) : spill room sizes ≤ sizes.sum := by
  induction sizes generalizing room with
  | nil => exact Nat.le_refl _
  | cons size sizes ih =>
    unfold spill
    split
    · have := ih (room - size)
      simp only [List.sum_cons]
      omega
    · exact Nat.le_refl _

/-- Segments of sizes `rest` placed behind `tail` stop short of the segment at `start`: they fit
behind the tail and, from the first that does not, before `start`. -/
def Room (size start tail : Nat) (rest : List Nat) : Prop :=
  if start < tail then tail ≤ size ∧ spill (size - tail) rest ≤ start
  else tail + rest.sum ≤ start

namespace Room

variable {size tail next : Nat} {rest : List Nat} {pre post : List (Nat × Nat)} {seg : Nat × Nat}

/-- With nothing older than the segment left, the next one has a place. -/
theorem fits (h : Room size seg.1 tail (next :: rest)) (hpos : 0 < next) :
    ∃ offset, Fits size (seg :: post) tail next offset := by
  unfold Room at h
  simp only [Fits, headOffset]
  split at h
  · next ht =>
    by_cases hn : next ≤ size - tail
    · exact ⟨tail, Or.inl ⟨ht, by omega, rfl⟩⟩
    · rw [spill, if_neg hn, List.sum_cons] at h
      exact ⟨0, Or.inr (Or.inl ⟨ht, by omega, by omega, rfl⟩)⟩
  · rw [List.sum_cons] at h
    exact ⟨tail, Or.inr (Or.inr ⟨by omega, by omega, rfl⟩)⟩

/-- Placing the next segment leaves room for the others. -/
theorem place (h : Room size seg.1 tail (next :: rest)) (hl : Laid size (pre ++ seg :: post) tail)
    (hpos : 0 < next) {offset : Nat} (hf : Fits size (pre ++ seg :: post) tail next offset) :
    Room size seg.1 (offset + next) rest := by
  unfold Fits at hf
  unfold Room at *
  rcases hl.head_suffix with ⟨h1, h2, h3⟩ | ⟨h1, h2, _, h3⟩ | ⟨h1, h2, h3⟩
  · rw [if_pos h2] at h
    rcases hf with ⟨_, hend, rfl⟩ | ⟨_, hend, hfront, rfl⟩ | ⟨hlt, _⟩
    · rw [spill, if_pos (by omega)] at h
      rw [if_pos (by omega)]
      refine ⟨hend, ?_⟩
      rw [show size - (offset + next) = size - offset - next by omega]
      exact h.2
    · rw [spill, if_neg (by omega), List.sum_cons] at h
      rw [if_neg (by omega)]
      omega
    · omega
  · rw [if_pos h1] at h
    rcases hf with ⟨hlt, _⟩ | ⟨hlt, _⟩ | ⟨_, hend, rfl⟩
    · omega
    · omega
    · rw [spill, if_pos (by omega)] at h
      rw [if_pos (by omega)]
      refine ⟨by omega, ?_⟩
      rw [show size - (offset + next) = size - offset - next by omega]
      exact h.2
  · rw [if_neg (by omega), List.sum_cons] at h
    rcases hf with ⟨hlt, _⟩ | ⟨hlt, _⟩ | ⟨_, hend, rfl⟩
    · omega
    · omega
    · rw [if_neg (by omega)]
      omega

/-- Sizes that fit in one piece leave room placed one by one. -/
theorem of_fits {offset : Nat} (hl : Laid size (seg :: post) tail)
    (hf : Fits size (seg :: post) tail rest.sum offset) : Room size seg.1 tail rest := by
  unfold Room
  rcases @Laid.head_suffix size tail [] post seg hl with ⟨_, h2, h3⟩ | ⟨_, _, hne, _⟩ | ⟨h1, _⟩
  · rw [if_pos h2]
    simp only [Fits, headOffset] at hf
    rcases hf with ⟨_, hend, _⟩ | ⟨_, _, hfront, _⟩ | ⟨hlt, _⟩
    · rw [spill_eq_zero (by omega)]
      omega
    · have := spill_le_sum (size - tail) rest
      omega
    · omega
  · exact absurd rfl hne
  · simp only [headOffset, List.nil_append] at h1
    rw [if_neg (by omega)]
    simp only [Fits, headOffset] at hf
    omega

end Room

/-- A place at the start, or behind the tail and within the arena. -/
theorem Fits.offset {size tail live footprint offset : Nat} {segs : List (Nat × Nat)}
    (hf : Fits size segs tail footprint offset) (hl : Laid size segs live) :
    offset = 0 ∨ offset = tail ∧ tail + footprint ≤ size := by
  have hhead : headOffset segs ≤ size := by
    cases segs with
    | nil => exact Nat.zero_le _
    | cons seg segs =>
      have := hl.inside (List.mem_cons_self (a := seg) (l := segs))
      simp only [headOffset]
      omega
  rcases hf with ⟨_, h1, rfl⟩ | ⟨_, _, _, rfl⟩ | ⟨_, h1, rfl⟩
  · exact Or.inr ⟨rfl, h1⟩
  · exact Or.inl rfl
  · exact Or.inr ⟨rfl, by omega⟩

/-- What fits with more segments live fits with fewer. -/
theorem Fits.drop {size tail footprint offset : Nat} {pre post : List (Nat × Nat)} {seg : Nat × Nat}
    (hl : Laid size (pre ++ seg :: post) tail)
    (hf : Fits size (pre ++ seg :: post) tail footprint offset) :
    ∃ offset', Fits size (seg :: post) tail footprint offset' := by
  unfold Fits at *
  simp only [headOffset]
  rcases hl.head_suffix with ⟨h1, h2, h3⟩ | ⟨h1, h2, _, h3⟩ | ⟨h1, h2, h3⟩
  · by_cases hend : tail + footprint ≤ size
    · exact ⟨tail, Or.inl ⟨h2, hend, rfl⟩⟩
    · exact ⟨0, Or.inr (Or.inl ⟨h2, by omega, by omega, rfl⟩)⟩
  · exact ⟨tail, Or.inl ⟨h1, by omega, rfl⟩⟩
  · exact ⟨tail, Or.inr (Or.inr ⟨by omega, by omega, rfl⟩)⟩

/-! ## Segments placed at the tail

A segment takes a footprint of its own, at least its length. `Chained` says that each segment begins where
the footprint of the one before it ends, or at the start of the arena where that was too near its end: the
bytes left over are then fewer than the footprint that did not fit, so live segments and what they leave
unused take little more than their footprints (`Chained.room`).
-/

/-- Each segment follows the one before it, and `tail` the last. -/
def Chained (size : Nat) (foot : Nat → Nat) : List (Nat × Nat) → Nat → Prop
  | [], _ => True
  | [seg], tail => tail = seg.1 + foot seg.2
  | seg :: next :: segs, tail =>
    (next.1 = seg.1 + foot seg.2 ∨ next.1 = 0 ∧ size < seg.1 + foot seg.2 + foot next.2) ∧
      Chained size foot (next :: segs) tail

namespace Chained

variable {size tail : Nat} {foot : Nat → Nat} {segs : List (Nat × Nat)}

theorem drop_head {seg : Nat × Nat} (h : Chained size foot (seg :: segs) tail) : Chained size foot segs tail := by
  cases segs with
  | nil => trivial
  | cons next segs => exact h.2

theorem suffix {pre : List (Nat × Nat)} (h : Chained size foot (pre ++ segs) tail) : Chained size foot segs tail := by
  induction pre with
  | nil => exact h
  | cons seg pre ih => exact ih h.drop_head

theorem snoc {new : Nat × Nat} (h : Chained size foot segs tail)
    (place : segs ≠ [] → new.1 = tail ∨ new.1 = 0 ∧ size < tail + foot new.2) :
    Chained size foot (segs ++ [new]) (new.1 + foot new.2) := by
  induction segs with
  | nil => rfl
  | cons seg segs ih =>
    cases segs with
    | nil =>
      refine ⟨?_, rfl⟩
      have end_ : tail = seg.1 + foot seg.2 := h
      rw [← end_]
      exact place (by simp)
    | cons next segs => exact ⟨h.1, ih h.2 fun _ => place (by simp)⟩

/-- Without a wrap the footprints lie end to end. -/
theorem ascending {seg : Nat × Nat} {hi : Nat} (h : Chained size foot (seg :: segs) tail)
    (asc : Ascending seg.1 (seg :: segs) hi) : tail = seg.1 + ((seg :: segs).map fun s => foot s.2).sum := by
  induction segs generalizing seg with
  | nil =>
    have end_ : tail = seg.1 + foot seg.2 := h
    simpa using end_
  | cons next segs ih =>
    obtain ⟨_, pos, above, pos', rest⟩ := asc
    have begins : next.1 = seg.1 + foot seg.2 := by
      rcases h.1 with begins | ⟨zero, _⟩
      · exact begins
      · omega
    have := ih h.2 ⟨Nat.le_refl _, pos', rest⟩
    simp only [List.map_cons, List.sum_cons] at this ⊢
    omega

/-- Round the end of the arena, what is left unused there is less than one footprint. -/
theorem wrapped {seg : Nat × Nat} {upper lower : List (Nat × Nat)} (grows : ∀ n, n ≤ foot n)
    (h : Chained size foot (seg :: upper ++ lower) tail) (up : Ascending seg.1 (seg :: upper) size)
    (low : Ascending 0 lower tail) (le : tail ≤ seg.1) :
    ∃ next ∈ seg :: upper ++ lower,
      size + tail < seg.1 + ((seg :: upper ++ lower).map fun s => foot s.2).sum + foot next.2 := by
  induction upper generalizing seg with
  | nil =>
    have pos := up.2.1
    have := grows seg.2
    cases lower with
    | nil =>
      have end_ : tail = seg.1 + foot seg.2 := h
      omega
    | cons next lower =>
      obtain ⟨_, pos', rest⟩ := low
      have := rest.le
      obtain ⟨zero, over_⟩ : next.1 = 0 ∧ size < seg.1 + foot seg.2 + foot next.2 := by
        rcases h.1 with begins | wraps
        · omega
        · exact wraps
      have end_ := h.2.ascending ⟨Nat.le_refl _, pos', rest⟩
      refine ⟨next, by simp, ?_⟩
      simp only [List.cons_append, List.nil_append, List.map_cons, List.sum_cons] at end_ ⊢
      omega
  | cons next upper ih =>
    obtain ⟨_, pos, above, pos', rest⟩ := up
    have begins : next.1 = seg.1 + foot seg.2 := by
      rcases h.1 with begins | ⟨zero, _⟩
      · exact begins
      · omega
    obtain ⟨found, mem, bound⟩ := ih h.2 ⟨Nat.le_refl _, pos', rest⟩ (by omega)
    refine ⟨found, List.mem_cons_of_mem _ mem, ?_⟩
    simp only [List.cons_append, List.map_cons, List.sum_cons] at bound ⊢
    omega

/-- Live segments that leave a footprint to spare, besides what is to come, leave room for it. -/
theorem room {seg : Nat × Nat} {post : List (Nat × Nat)} {most : Nat} {sizes : List Nat} (grows : ∀ n, n ≤ foot n)
    (h : Chained size foot (seg :: post) tail) (laid : Laid size (seg :: post) tail)
    (most_ : ∀ s ∈ seg :: post, foot s.2 ≤ most)
    (spare : ((seg :: post).map fun s => foot s.2).sum + most + sizes.sum ≤ size)
    (twice : ((seg :: post).map fun s => foot s.2).sum + 2 * sizes.sum ≤ size) : Room size seg.1 tail sizes := by
  unfold Room
  generalize all : seg :: post = live at laid
  cases laid with
  | @flat head length _ rest asc le =>
    cases all
    have end_ := h.ascending asc
    have := asc.2.2.le
    have := asc.2.1
    rw [if_pos (by simp only; omega)]
    refine ⟨le, ?_⟩
    by_cases fits : sizes.sum ≤ size - tail
    · rw [spill_eq_zero fits]
      exact Nat.zero_le _
    · have := spill_le_sum (size - tail) sizes
      omega
  | @wrapped head length _ upper lower up low le =>
    rw [List.cons_append] at all
    obtain ⟨rfl, rfl⟩ := List.cons.inj all
    obtain ⟨next, mem, bound⟩ := h.wrapped grows up low le
    have := most_ next mem
    rw [if_neg (by simp only; omega)]
    simp only [List.cons_append] at bound spare ⊢
    omega

end Chained

end RingArena
