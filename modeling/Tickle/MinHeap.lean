import Tickle.Loop

/-! # A binary min-heap in an array

The entries in use are a list, children of `i` at `2 * i + 1` and `2 * i + 2`. Both sifts carry one
entry along a path of holes and put it down at the end. What they keep:

* the entries are the same ones (`siftUp_perm`, `siftDown_perm`);
* a sift up from a hole changes nothing behind it, and brings the hole its parent if it moves at all
  (`siftUp_rises`); a sift down changes nothing before its hole (`siftDown_take`);
* an entry put where it may be out of order in either direction is put in order by a sift up and then
  a sift down (`Near.sifted`).
-/

namespace MinHeap

variable {α : Type*} (key : α → Nat)

def parent (i : Nat) : Nat := (i - 1) / 2

def keyAt (heap : List α) (i : Nat) : Nat := (heap[i]?.map key).getD 0

/-- `heap[i] = heap[j]`. -/
def move (heap : List α) (i j : Nat) : List α :=
  match heap[j]? with
  | none => heap
  | some entry => heap.set i entry

/-- Entry `i` removed: the last one takes its place. -/
def fill (heap : List α) (i : Nat) : List α :=
  (move heap i (heap.length - 1)).take (heap.length - 1)

def siftUp (heap : List α) (index : Nat) : List α :=
  match heap[index]? with
  | none => heap
  | some moving =>
    let s := Loop.whileN
      (fun s : List α × Nat => 0 < s.2 && key moving < keyAt key s.1 (parent s.2))
      (fun s => (move s.1 s.2 (parent s.2), parent s.2)) index (heap, index)
    s.1.set s.2 moving

/-- The child that goes above `moving` at `i`, or `i` itself. -/
def smallest (heap : List α) (moving : α) (i : Nat) : Nat :=
  let left := 2 * i + 1
  let right := left + 1
  let (smallest, best) :=
    if left < heap.length && keyAt key heap left < key moving then (left, keyAt key heap left)
    else (i, key moving)
  if right < heap.length && keyAt key heap right < best then right else smallest

def siftDown (heap : List α) (index : Nat) : List α :=
  match heap[index]? with
  | none => heap
  | some moving =>
    let s := Loop.whileN
      (fun s : List α × Nat => smallest key s.1 moving s.2 ≠ s.2)
      (fun s => (move s.1 s.2 (smallest key s.1 moving s.2), smallest key s.1 moving s.2))
      heap.length (heap, index)
    s.1.set s.2 moving

/-- Every entry is at or after its parent. -/
def Ordered (heap : List α) : Prop :=
  ∀ i, 0 < i → i < heap.length → keyAt key heap (parent i) ≤ keyAt key heap i

/-- In order, but for the entry at `hole`, which may come before its parent. -/
structure UpOrdered (heap : List α) (hole : Nat) : Prop where
  others : ∀ i, 0 < i → i < heap.length → i ≠ hole → keyAt key heap (parent i) ≤ keyAt key heap i
  grand : 0 < hole → ∀ i, 0 < i → i < heap.length → parent i = hole →
    keyAt key heap (parent hole) ≤ keyAt key heap i

/-- In order, but for the entry at `hole`, which may come after its children. -/
structure DownOrdered (heap : List α) (hole : Nat) : Prop where
  others : ∀ i, 0 < i → i < heap.length → parent i ≠ hole → keyAt key heap (parent i) ≤ keyAt key heap i
  grand : 0 < hole → ∀ i, 0 < i → i < heap.length → parent i = hole →
    keyAt key heap (parent hole) ≤ keyAt key heap i

/-- In order, but for the entry at `hole`, which may be out of order in either direction. -/
structure Near (heap : List α) (hole : Nat) : Prop where
  others : ∀ i, 0 < i → i < heap.length → i ≠ hole → parent i ≠ hole →
    keyAt key heap (parent i) ≤ keyAt key heap i
  grand : 0 < hole → ∀ i, 0 < i → i < heap.length → parent i = hole →
    keyAt key heap (parent hole) ≤ keyAt key heap i

variable {key} {heap : List α} {i j k hole : Nat}

theorem parent_lt (h : 0 < i) : parent i < i := by
  unfold parent
  omega

theorem child_cases (h : 0 < i) : i = 2 * parent i + 1 ∨ i = 2 * parent i + 2 := by
  unfold parent
  omega

/-! ## Moving an entry along the holes -/

theorem keyAt_of_lt (h : i < heap.length) : keyAt key heap i = key heap[i] := by
  simp [keyAt, h]

theorem keyAt_swap (hi : i < heap.length) (hj : j < heap.length) :
    keyAt key (heap.swap i j) k =
      if k = i then keyAt key heap j else if k = j then keyAt key heap i else keyAt key heap k := by
  unfold keyAt
  rw [List.swap_eq_of_lt hi hj]
  by_cases hkj : k = j
  · subst hkj
    by_cases hki : k = i
    · subst hki
      simp [hi]
    · simp [hki, hi, hj]
  · rw [List.getElem?_set_ne (Ne.symm hkj)]
    by_cases hki : k = i
    · subst hki
      simp [hi, hj]
    · rw [List.getElem?_set_ne (Ne.symm hki), if_neg hki, if_neg hkj]

/-- A move fills the hole and makes the next one: seen with the moving entry put down, it is a swap. -/
theorem move_set (moving : α) (hi : i < heap.length) (hj : j < heap.length) (ne : i ≠ j) :
    (move heap i j).set j moving = (heap.set i moving).swap i j := by
  have hi' : i < (heap.set i moving).length := by simpa using hi
  have hj' : j < (heap.set i moving).length := by simpa using hj
  rw [List.swap_eq_of_lt hi' hj']
  simp [move, hj, List.getElem_set_ne ne]

theorem length_move : (move heap i j).length = heap.length := by
  unfold move
  split
  · rfl
  · simp

theorem keyAt_set_self (moving : α) (h : i < heap.length) :
    keyAt key (heap.set i moving) i = key moving := by
  simp [keyAt, h]

theorem keyAt_set_ne (moving : α) (ne : i ≠ k) :
    keyAt key (heap.set i moving) k = keyAt key heap k := by
  simp [keyAt, List.getElem?_set_ne ne]

/-! ## Up -/

theorem UpOrdered.rise (h : UpOrdered key heap hole) (pos : 0 < hole) (lt : hole < heap.length)
    (before : keyAt key heap hole < keyAt key heap (parent hole)) :
    UpOrdered key (heap.swap hole (parent hole)) (parent hole) := by
  have hp : parent hole < hole := parent_lt pos
  have swapped : ∀ k, keyAt key (heap.swap hole (parent hole)) k =
      if k = hole then keyAt key heap (parent hole)
      else if k = parent hole then keyAt key heap hole else keyAt key heap k :=
    fun k => keyAt_swap lt (by omega)
  constructor
  · intro i hi hilt hne
    rw [List.length_swap] at hilt
    rw [swapped, swapped]
    by_cases hih : i = hole
    · subst hih
      simp only [if_pos, if_neg (show parent i ≠ i by omega)]
      omega
    · rw [if_neg hih, if_neg hne]
      have order := h.others i hi hilt hih
      by_cases hph : parent i = hole
      · rw [if_pos hph]
        exact h.grand pos i hi hilt hph
      · rw [if_neg hph]
        split
        · next same =>
          rw [same] at order
          omega
        · exact order
  · intro hpos i hi hilt hpi
    rw [List.length_swap] at hilt
    have hpp : parent (parent hole) < parent hole := parent_lt hpos
    have above : keyAt key heap (parent (parent hole)) ≤ keyAt key heap (parent hole) :=
      h.others (parent hole) hpos (by omega) (by omega)
    rw [swapped, swapped, if_neg (show parent (parent hole) ≠ hole by omega),
      if_neg (show parent (parent hole) ≠ parent hole by omega)]
    by_cases hih : i = hole
    · rw [if_pos hih]
      exact above
    · have := parent_lt hi
      rw [if_neg hih, if_neg (show i ≠ parent hole by omega)]
      have order := h.others i hi hilt hih
      rw [hpi] at order
      omega

theorem UpOrdered.finish (h : UpOrdered key heap hole)
    (stop : 0 < hole → keyAt key heap (parent hole) ≤ keyAt key heap hole) : Ordered key heap := by
  intro i hi hlt
  by_cases hih : i = hole
  · rw [hih]
    exact stop (hih ▸ hi)
  · exact h.others i hi hlt hih

/-- The heap on its way up from `i`: seen with the moving entry put down, it has the entries it had,
nothing behind `i` has changed, and `i` has got its parent once the hole has left it. -/
structure Rising (heap : List α) (i : Nat) (moving : α) (s : List α × Nat) : Prop where
  hole : s.2 ≤ i
  size : s.1.length = heap.length
  perm : (s.1.set s.2 moving).Perm heap
  behind : (s.1.set s.2 moving).drop (i + 1) = heap.drop (i + 1)
  left : s.2 < i → (s.1.set s.2 moving)[i]? = heap[parent i]?
  started : s.2 = i → s.1 = heap

theorem drop_swap {heap : List α} {n : Nat} (hi : i < heap.length) (hj : j < heap.length) (hin : i < n)
    (hjn : j < n) : (heap.swap i j).drop n = heap.drop n := by
  rw [List.swap_eq_of_lt hi hj, List.drop_set_of_lt hjn, List.drop_set_of_lt hin]

theorem Rising.step {moving : α} {s : List α × Nat} (lt : i < heap.length)
    (h : Rising heap i moving s) (pos : 0 < s.2) :
    Rising heap i moving (move s.1 s.2 (parent s.2), parent s.2) := by
  have up := parent_lt pos
  have hole := h.hole
  have size := h.size
  have swapped := move_set moving (show s.2 < s.1.length by omega)
    (show parent s.2 < s.1.length by omega) (by omega)
  have hlt : s.2 < (s.1.set s.2 moving).length := by simp; omega
  have hplt : parent s.2 < (s.1.set s.2 moving).length := by simp; omega
  constructor
  case hole => exact le_trans (le_of_lt up) hole
  case size => exact length_move.trans size
  case perm =>
    rw [swapped]
    exact (List.swap_perm _ _ _).trans h.perm
  case behind =>
    rw [swapped, drop_swap hlt hplt (by omega) (by omega)]
    exact h.behind
  case left =>
    intro _
    rw [swapped, List.swap_eq_of_lt hlt hplt]
    by_cases hs : s.2 = i
    · rw [← h.started hs, ← hs, List.getElem?_set_ne (by omega), List.getElem?_set_self hlt,
        List.getElem_set_ne (by omega), List.getElem?_eq_getElem (by omega)]
    · rw [List.getElem?_set_ne (by omega), List.getElem?_set_ne hs]
      exact h.left (by omega)
  case started =>
    intro hs
    omega

variable (key) in
/-- What a sift up does to the entries, wherever they are ordered. -/
theorem siftUp_rising (lt : i < heap.length) :
    ∃ s, Rising heap i heap[i] s ∧ siftUp key heap i = s.1.set s.2 heap[i] ∧
      (s.2 = i ↔ ¬ (0 < i ∧ keyAt key heap i < keyAt key heap (parent i))) := by
  have start : Rising heap i heap[i] (heap, i) := by
    constructor
    case hole => exact le_refl i
    case size => rfl
    case perm => simp
    case behind => simp
    case left => exact fun h => absurd h (lt_irrefl i)
    case started => exact fun _ => rfl
  have atKey : keyAt key heap i = key heap[i] := keyAt_of_lt lt
  unfold siftUp
  rw [List.getElem?_eq_getElem lt]
  dsimp only
  generalize hcond : (fun s : List α × Nat => decide (0 < s.2) &&
    decide (key heap[i] < keyAt key s.1 (parent s.2))) = cond
  generalize hbody : (fun s : List α × Nat => (move s.1 s.2 (parent s.2), parent s.2)) = body
  have keeps : ∀ s, cond s = true → Rising heap i heap[i] s → Rising heap i heap[i] (body s) := by
    intro s hs h
    simp only [← hcond, Bool.and_eq_true, decide_eq_true_eq] at hs
    rw [← hbody]
    exact h.step lt hs.1
  refine ⟨Loop.whileN cond body i (heap, i), Loop.whileN_invariant keeps i start, rfl, ?_⟩
  -- The hole leaves `i` in the first round or not at all.
  constructor
  · intro hole rises
    have first : cond (heap, i) = true := by
      simp [← hcond, rises.1, ← atKey, rises.2]
    have below : (Loop.whileN cond body i (heap, i)).2 < i := by
      obtain ⟨n, rfl⟩ : ∃ n, i = n + 1 := ⟨i - 1, by omega⟩
      rw [Loop.whileN_step first]
      apply Loop.whileN_invariant (P := fun s : List α × Nat => s.2 < n + 1)
      · intro s hs hlt
        simp only [← hcond, Bool.and_eq_true, decide_eq_true_eq] at hs
        rw [← hbody]
        exact lt_trans (parent_lt hs.1) hlt
      · rw [← hbody]
        exact parent_lt (by omega)
    omega
  · intro stays
    have stop : cond (heap, i) = false := by
      rw [← hcond]
      by_cases hpos : 0 < i
      · have := fun before => stays ⟨hpos, before⟩
        simpa [hpos, ← atKey] using this
      · simp [hpos]
    rw [Loop.whileN_of_not stop]

theorem siftUp_perm (lt : i < heap.length) : (siftUp key heap i).Perm heap := by
  obtain ⟨s, h, eq, -⟩ := siftUp_rising key lt
  rw [eq]
  exact h.perm

theorem siftUp_stays (lt : i < heap.length)
    (stays : ¬ (0 < i ∧ keyAt key heap i < keyAt key heap (parent i))) : siftUp key heap i = heap := by
  obtain ⟨s, h, eq, still⟩ := siftUp_rising key lt
  have hole := still.mpr stays
  rw [eq, h.started hole, hole, List.set_getElem_self]

theorem siftUp_rises (lt : i < heap.length) (pos : 0 < i)
    (before : keyAt key heap i < keyAt key heap (parent i)) :
    (siftUp key heap i)[i]? = heap[parent i]? ∧
      (siftUp key heap i).drop (i + 1) = heap.drop (i + 1) := by
  obtain ⟨s, h, eq, still⟩ := siftUp_rising key lt
  have hole := h.hole
  have moved : s.2 ≠ i := fun hs => still.mp hs ⟨pos, before⟩
  rw [eq]
  exact ⟨h.left (by omega), h.behind⟩

theorem siftUp_ordered (lt : i < heap.length) (h : UpOrdered key heap i) :
    Ordered key (siftUp key heap i) := by
  unfold siftUp
  rw [List.getElem?_eq_getElem lt]
  dsimp only
  generalize hcond : (fun s : List α × Nat => decide (0 < s.2) &&
    decide (key heap[i] < keyAt key s.1 (parent s.2))) = cond
  generalize hbody : (fun s : List α × Nat => (move s.1 s.2 (parent s.2), parent s.2)) = body
  have step : ∀ s, cond s = true →
      s.2 < s.1.length ∧ UpOrdered key (s.1.set s.2 heap[i]) s.2 →
      (body s).2 < (body s).1.length ∧ UpOrdered key ((body s).1.set (body s).2 heap[i]) (body s).2 := by
    intro s hs ⟨hlt, order⟩
    simp only [← hcond, Bool.and_eq_true, decide_eq_true_eq] at hs
    have up := parent_lt hs.1
    simp only [← hbody]
    refine ⟨by rw [length_move]; omega, ?_⟩
    rw [move_set _ hlt (by omega) (by omega)]
    apply order.rise hs.1 (by simpa using hlt)
    rw [keyAt_set_self _ hlt, keyAt_set_ne _ (by omega)]
    exact hs.2
  have ended := Loop.whileN_invariant step i (s := (heap, i)) ⟨lt, by rwa [List.set_getElem_self]⟩
  have stop : cond (Loop.whileN cond body i (heap, i)) = false := by
    apply Loop.whileN_exit (fun s => s.2) step ?_ i (s := (heap, i)) ⟨lt, by rwa [List.set_getElem_self]⟩
      (le_refl i)
    intro s hs _
    simp only [← hcond, Bool.and_eq_true, decide_eq_true_eq] at hs
    rw [← hbody]
    exact parent_lt hs.1
  generalize Loop.whileN cond body i (heap, i) = s at ended stop
  obtain ⟨hlt, order⟩ := ended
  apply order.finish
  intro hpos
  have up := parent_lt hpos
  rw [keyAt_set_self _ hlt, keyAt_set_ne _ (by omega)]
  simpa [← hcond, hpos] using stop

/-! ## Down -/

variable (key) in
theorem smallest_spec (heap : List α) (moving : α) (i : Nat) :
    (smallest key heap moving i = i ∧ ∀ d, 0 < d → d < heap.length → parent d = i →
      key moving ≤ keyAt key heap d) ∨
    (0 < smallest key heap moving i ∧ smallest key heap moving i < heap.length ∧
      parent (smallest key heap moving i) = i ∧
      keyAt key heap (smallest key heap moving i) < key moving ∧
      ∀ d, 0 < d → d < heap.length → parent d = i →
        keyAt key heap (smallest key heap moving i) ≤ keyAt key heap d) := by
  have children : ∀ d, 0 < d → parent d = i → d = 2 * i + 1 ∨ d = 2 * i + 1 + 1 := by
    intro d hd hp
    have := child_cases hd
    omega
  have isParent : parent (2 * i + 1) = i ∧ parent (2 * i + 1 + 1) = i := by
    unfold parent
    omega
  by_cases hleft : 2 * i + 1 < heap.length ∧ keyAt key heap (2 * i + 1) < key moving
  · by_cases hright : 2 * i + 1 + 1 < heap.length ∧
        keyAt key heap (2 * i + 1 + 1) < keyAt key heap (2 * i + 1)
    · have value : smallest key heap moving i = 2 * i + 1 + 1 := by
        simp [smallest, hleft, hright]
      rw [value]
      refine .inr ⟨by omega, hright.1, isParent.2, by omega, ?_⟩
      intro d hd hlt hp
      obtain rfl | rfl := children d hd hp <;> omega
    · have value : smallest key heap moving i = 2 * i + 1 := by
        simp only [smallest, hleft, decide_true, Bool.and_self, if_true, Bool.and_eq_true,
          decide_eq_true_eq, hright, if_false]
      rw [value]
      refine .inr ⟨by omega, hleft.1, isParent.1, hleft.2, ?_⟩
      intro d hd hlt hp
      obtain rfl | rfl := children d hd hp
      · exact le_refl _
      · exact Nat.le_of_not_lt fun before => hright ⟨hlt, before⟩
  · by_cases hright : 2 * i + 1 + 1 < heap.length ∧ keyAt key heap (2 * i + 1 + 1) < key moving
    · have value : smallest key heap moving i = 2 * i + 1 + 1 := by
        simp only [smallest, Bool.and_eq_true, decide_eq_true_eq, hleft, if_false, hright, and_self, if_true]
      rw [value]
      refine .inr ⟨by omega, hright.1, isParent.2, hright.2, ?_⟩
      intro d hd hlt hp
      obtain rfl | rfl := children d hd hp
      · have := Nat.le_of_not_lt fun before => hleft ⟨hlt, before⟩
        omega
      · exact le_refl _
    · have value : smallest key heap moving i = i := by
        simp only [smallest, Bool.and_eq_true, decide_eq_true_eq, hleft, if_false, hright]
      rw [value]
      refine .inl ⟨rfl, ?_⟩
      intro d hd hlt hp
      obtain rfl | rfl := children d hd hp
      · exact Nat.le_of_not_lt fun before => hleft ⟨hlt, before⟩
      · exact Nat.le_of_not_lt fun before => hright ⟨hlt, before⟩

theorem DownOrdered.sink (h : DownOrdered key heap hole) {c : Nat} (lt : hole < heap.length)
    (pos : 0 < c) (clt : c < heap.length) (child : parent c = hole)
    (before : keyAt key heap c < keyAt key heap hole)
    (least : ∀ d, 0 < d → d < heap.length → parent d = hole → keyAt key heap c ≤ keyAt key heap d) :
    DownOrdered key (heap.swap hole c) c := by
  have hc : hole < c := child ▸ parent_lt pos
  have swapped : ∀ k, keyAt key (heap.swap hole c) k =
      if k = hole then keyAt key heap c else if k = c then keyAt key heap hole else keyAt key heap k :=
    fun k => keyAt_swap lt clt
  constructor
  · intro i hi hilt hne
    rw [List.length_swap] at hilt
    rw [swapped, swapped, if_neg hne]
    by_cases hih : i = hole
    · subst hih
      have hp := parent_lt hi
      rw [if_pos rfl, if_neg (show parent i ≠ i by omega)]
      exact h.grand hi c pos clt child
    · by_cases hph : parent i = hole
      · rw [if_pos hph, if_neg hih]
        split
        · exact le_of_lt before
        · exact least i hi hilt hph
      · rw [if_neg hph, if_neg hih, if_neg (show i ≠ c by rintro rfl; exact hph child)]
        exact h.others i hi hilt hph
  · intro _ i hi hilt hpi
    rw [List.length_swap] at hilt
    have below := parent_lt hi
    rw [swapped, swapped, child, if_pos rfl, if_neg (show i ≠ hole by omega),
      if_neg (show i ≠ c by omega), ← hpi]
    exact h.others i hi hilt (by omega)

theorem DownOrdered.finish (h : DownOrdered key heap hole)
    (stop : ∀ d, 0 < d → d < heap.length → parent d = hole → keyAt key heap hole ≤ keyAt key heap d) :
    Ordered key heap := by
  intro i hi hlt
  by_cases hp : parent i = hole
  · rw [hp]
    exact stop i hi hlt hp
  · exact h.others i hi hlt hp

/-- The heap on its way down from `i`, seen with the moving entry put down. -/
structure Sinking (heap : List α) (i : Nat) (moving : α) (s : List α × Nat) : Prop where
  hole : i ≤ s.2
  lt : s.2 < s.1.length
  perm : (s.1.set s.2 moving).Perm heap
  before : (s.1.set s.2 moving).take i = heap.take i

theorem take_swap {heap : List α} {n : Nat} (hi : i < heap.length) (hj : j < heap.length) (hin : n ≤ i)
    (hjn : n ≤ j) : (heap.swap i j).take n = heap.take n := by
  rw [List.swap_eq_of_lt hi hj, List.take_set_of_le hjn, List.take_set_of_le hin]

/-- One round of a sift down, with the moving entry put down before and after it. -/
theorem sink_step {moving : α} {s : List α × Nat} (lt : s.2 < s.1.length)
    (goes : smallest key s.1 moving s.2 ≠ s.2) :
    s.2 < smallest key s.1 moving s.2 ∧ smallest key s.1 moving s.2 < s.1.length ∧
      (move s.1 s.2 (smallest key s.1 moving s.2)).set (smallest key s.1 moving s.2) moving =
        (s.1.set s.2 moving).swap s.2 (smallest key s.1 moving s.2) := by
  obtain ⟨stays, -⟩ | ⟨pos, clt, child, -, -⟩ := smallest_spec key s.1 moving s.2
  · exact absurd stays goes
  · have down := parent_lt pos
    rw [child] at down
    exact ⟨down, clt, move_set moving lt clt (by omega)⟩

variable (key) in
theorem siftDown_sinking (lt : i < heap.length) :
    ∃ s, Sinking heap i heap[i] s ∧ siftDown key heap i = s.1.set s.2 heap[i] ∧
      (DownOrdered key heap i → Ordered key (s.1.set s.2 heap[i])) := by
  unfold siftDown
  rw [List.getElem?_eq_getElem lt]
  dsimp only
  generalize hcond : (fun s : List α × Nat => decide (smallest key s.1 heap[i] s.2 ≠ s.2)) = cond
  generalize hbody : (fun s : List α × Nat => (move s.1 s.2 (smallest key s.1 heap[i] s.2),
    smallest key s.1 heap[i] s.2)) = body
  have start : Sinking heap i heap[i] (heap, i) := by
    constructor
    case hole => exact le_refl i
    case lt => exact lt
    case perm => simp
    case before => simp
  have step : ∀ s, cond s = true → Sinking heap i heap[i] s → Sinking heap i heap[i] (body s) := by
    intro s hs h
    simp only [← hcond, decide_eq_true_eq] at hs
    obtain ⟨down, clt, swapped⟩ := sink_step h.lt hs
    have hole := h.hole
    simp only [← hbody]
    constructor
    case hole => exact le_trans hole (le_of_lt down)
    case lt => rwa [length_move]
    case perm =>
      rw [swapped]
      exact (List.swap_perm _ _ _).trans h.perm
    case before =>
      rw [swapped, take_swap (by simpa using h.lt) (by simpa using clt) hole (by omega)]
      exact h.before
  have stop : cond (Loop.whileN cond body heap.length (heap, i)) = false := by
    apply Loop.whileN_exit (P := fun s => Sinking heap i heap[i] s) (fun s => s.1.length - s.2) step ?_
      heap.length start (by simp)
    intro s hs h
    simp only [← hcond, decide_eq_true_eq] at hs
    obtain ⟨down, clt, -⟩ := sink_step h.lt hs
    simp only [← hbody, length_move]
    omega
  refine ⟨Loop.whileN cond body heap.length (heap, i), Loop.whileN_invariant step _ start, rfl, ?_⟩
  intro order
  have sinks : ∀ s, cond s = true → s.2 < s.1.length ∧ DownOrdered key (s.1.set s.2 heap[i]) s.2 →
      (body s).2 < (body s).1.length ∧ DownOrdered key ((body s).1.set (body s).2 heap[i]) (body s).2 := by
    intro s hs ⟨hlt, order⟩
    simp only [← hcond, decide_eq_true_eq] at hs
    obtain ⟨down, clt, swapped⟩ := sink_step hlt hs
    simp only [← hbody]
    refine ⟨by rwa [length_move], ?_⟩
    rw [swapped]
    obtain ⟨stays, -⟩ | ⟨pos, -, child, before, least⟩ := smallest_spec key s.1 heap[i] s.2
    · exact absurd stays hs
    · apply order.sink (by simpa using hlt) pos (by simpa using clt) child
      · rw [keyAt_set_self _ hlt, keyAt_set_ne _ (by omega)]
        exact before
      · intro d hd hdlt hp
        rw [List.length_set] at hdlt
        have below := parent_lt hd
        rw [keyAt_set_ne _ (by omega), keyAt_set_ne _ (by omega)]
        exact least d hd hdlt hp
  have ended := Loop.whileN_invariant sinks heap.length (s := (heap, i))
    ⟨lt, by rwa [List.set_getElem_self]⟩
  generalize Loop.whileN cond body heap.length (heap, i) = s at ended stop
  obtain ⟨hlt, order⟩ := ended
  apply order.finish
  intro d hd hdlt hp
  rw [List.length_set] at hdlt
  have down := parent_lt hd
  rw [hp] at down
  rw [keyAt_set_self _ hlt, keyAt_set_ne _ (by omega)]
  obtain ⟨-, least⟩ | ⟨pos, -, child, -, -⟩ := smallest_spec key s.1 heap[i] s.2
  · exact least d hd hdlt hp
  · have ended : smallest key s.1 heap[i] s.2 = s.2 := by simpa [← hcond] using stop
    have below := parent_lt pos
    omega

theorem siftDown_perm (lt : i < heap.length) : (siftDown key heap i).Perm heap := by
  obtain ⟨s, h, eq, -⟩ := siftDown_sinking key lt
  rw [eq]
  exact h.perm

theorem siftDown_take (lt : i < heap.length) : (siftDown key heap i).take i = heap.take i := by
  obtain ⟨s, h, eq, -⟩ := siftDown_sinking key lt
  rw [eq]
  exact h.before

theorem siftDown_ordered (lt : i < heap.length) (h : DownOrdered key heap i) :
    Ordered key (siftDown key heap i) := by
  obtain ⟨s, -, eq, ordered⟩ := siftDown_sinking key lt
  rw [eq]
  exact ordered h

theorem siftDown_stays (lt : i < heap.length) (h : Ordered key heap) : siftDown key heap i = heap := by
  have stop : smallest key heap heap[i] i = i := by
    obtain ⟨stays, -⟩ | ⟨pos, clt, child, before, -⟩ := smallest_spec key heap heap[i] i
    · exact stays
    · have order := h _ pos clt
      rw [child, keyAt_of_lt lt] at order
      omega
  unfold siftDown
  rw [List.getElem?_eq_getElem lt]
  dsimp only
  rw [Loop.whileN_of_not (by simpa using stop)]
  exact List.set_getElem_self lt

/-! ## Both ways -/

theorem Near.risen (h : Near key heap i) (lt : i < heap.length) (pos : 0 < i)
    (before : keyAt key heap i < keyAt key heap (parent i)) : Ordered key (siftUp key heap i) := by
  apply siftUp_ordered lt
  constructor
  · intro k hk hklt hne
    by_cases hp : parent k = i
    · have := h.grand pos k hk hklt hp
      rw [hp]
      omega
    · exact h.others k hk hklt hne hp
  · exact h.grand

theorem Near.sifted (h : Near key heap i) (lt : i < heap.length) :
    Ordered key (siftDown key (siftUp key heap i) i) := by
  by_cases rises : 0 < i ∧ keyAt key heap i < keyAt key heap (parent i)
  · have ordered := h.risen lt rises.1 rises.2
    rwa [siftDown_stays ((siftUp_perm lt).length_eq ▸ lt) ordered]
  · rw [siftUp_stays lt rises]
    apply siftDown_ordered lt
    constructor
    · intro k hk hklt hp
      by_cases hki : k = i
      · subst hki
        exact Nat.le_of_not_lt fun before => rises ⟨hk, before⟩
      · exact h.others k hk hklt hki hp
    · exact h.grand

/-! ## A hole filled by the last entry -/

theorem length_fill : (fill heap i).length = heap.length - 1 := by
  rw [fill, List.length_take, length_move]
  omega

theorem fill_getElem? (lt : i < heap.length - 1) (k : Nat) :
    (fill heap i)[k]? =
      if k = i then heap[heap.length - 1]? else if k < heap.length - 1 then heap[k]? else none := by
  have hlast : heap.length - 1 < heap.length := by omega
  unfold fill move
  rw [List.getElem?_eq_getElem hlast, List.getElem?_take]
  by_cases hki : k = i
  · subst hki
    simp [lt, List.getElem?_set_self (show k < heap.length by omega)]
  · rw [if_neg hki, List.getElem?_set_ne (Ne.symm hki)]

theorem fill_take (lt : i < heap.length - 1) : (fill heap i).take i = heap.take i := by
  apply List.ext_getElem?
  intro k
  rw [List.getElem?_take, List.getElem?_take, fill_getElem? lt]
  split
  · rw [if_neg (by omega), if_pos (by omega)]
  · rfl

theorem keyAt_fill (lt : i < heap.length - 1) {k : Nat} (hk : k < heap.length - 1) :
    keyAt key (fill heap i) k = if k = i then keyAt key heap (heap.length - 1) else keyAt key heap k := by
  unfold keyAt
  rw [fill_getElem? lt]
  by_cases hki : k = i
  · rw [if_pos hki, if_pos hki]
  · rw [if_neg hki, if_neg hki, if_pos hk]

theorem fill_perm (lt : i < heap.length) : (heap[i] :: fill heap i).Perm heap := by
  obtain ⟨front, last, rfl⟩ : ∃ front last, heap = front ++ [last] :=
    ⟨heap.dropLast, heap.getLast (by rintro rfl; simp at lt), (List.dropLast_append_getLast _).symm⟩
  have hlen : (front ++ [last]).length - 1 = front.length := by simp
  have hlast : (front ++ [last])[front.length]? = some last := by simp
  rw [List.length_append, List.length_singleton] at lt
  unfold fill move
  rw [hlen, hlast]
  dsimp only
  by_cases hi : i = front.length
  · subst hi
    simp only [List.getElem_concat_length, List.set_append_right _ _ (le_refl _), List.take_left]
    exact (List.perm_append_singleton last front).symm
  · have hlt : i < front.length := by omega
    rw [List.getElem_append_left hlt, List.set_append_left _ _ hlt,
      List.take_left' (List.length_set ..)]
    calc (front[i] :: front.set i last).Perm (front[i] :: last :: front.eraseIdx i) :=
          (List.set_perm_cons_eraseIdx hlt last).cons _
      _ |>.Perm (last :: front[i] :: front.eraseIdx i) := List.Perm.swap _ _ _
      _ |>.Perm (last :: front) := (List.getElem_cons_eraseIdx_perm hlt).cons _
      _ |>.Perm (front ++ [last]) := (List.perm_append_singleton last front).symm

theorem Ordered.fill (h : Ordered key heap) (lt : i < heap.length - 1) : Near key (fill heap i) i := by
  constructor
  · intro k hk hklt hne hp
    rw [length_fill] at hklt
    have up := parent_lt hk
    rw [keyAt_fill lt hklt, keyAt_fill lt (by omega), if_neg hne, if_neg hp]
    exact h k hk (by omega)
  · intro hpos k hk hklt hp
    rw [length_fill] at hklt
    have up := parent_lt hk
    have upper := parent_lt hpos
    rw [keyAt_fill lt hklt, keyAt_fill lt (by omega), if_neg (by omega), if_neg (by omega)]
    have order := h k hk (by omega)
    rw [hp] at order
    exact le_trans (h i hpos (by omega)) order

theorem Ordered.take (h : Ordered key heap) (n : Nat) : Ordered key (heap.take n) := by
  intro k hk hklt
  have up := parent_lt hk
  rw [List.length_take] at hklt
  have same : ∀ j, j < n → keyAt key (heap.take n) j = keyAt key heap j := by
    intro j hj
    simp [keyAt, hj]
  rw [same k (by omega), same (parent k) (by omega)]
  exact h k hk (by omega)

theorem Ordered.root_le (h : Ordered key heap) (i : Nat) (lt : i < heap.length) : keyAt key heap 0 ≤ keyAt key heap i := by
  induction i using Nat.strong_induction_on with
  | _ i ih =>
    by_cases root : i = 0
    · rw [root]
    · have pos : 0 < i := by omega
      have up := parent_lt pos
      exact (ih (parent i) up (by omega)).trans (h i pos lt)

/-- The entry at the root is due no later than any other. -/
theorem Ordered.head_le (h : Ordered key heap) {first other : α} (root : heap.head? = some first) (member : other ∈ heap) :
    key first ≤ key other := by
  obtain ⟨i, lt, rfl⟩ := List.mem_iff_getElem.mp member
  have order := h.root_le i lt
  have pos : 0 < heap.length := by omega
  rw [keyAt_of_lt pos, keyAt_of_lt lt] at order
  rw [List.head?_eq_getElem?, List.getElem?_eq_getElem pos, Option.some.injEq] at root
  rw [← root]
  exact order

end MinHeap
