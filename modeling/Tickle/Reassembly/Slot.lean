import Tickle.Reassembly.Units

/-! # A reassembly slot

`struct tt_FragSlot`: the CDR of one sample, filled unit by unit. A unit lies where its index and the
continuation length say, which is learned from the first unit but the last to come; the last one is
parked at the end of the slot while it is not known. A slot that has taken units of one sample only
holds its bytes wherever it has a unit (`Fills.place`).
-/

namespace Tickle

open Pieces (piece write Agrees)

/-- `received` is the bitmap of the units that have landed. The CDR bytes are the slot's capacity. -/
structure FragSlot where
  source : UInt8
  entityId : BitVec 32
  seqNo : SeqNo
  fragCount : Nat
  contLength : Nat
  lastLength : Nat
  received : Finset Nat
  done : Bool
  header : DataHeader
  cdr : List UInt8
  deriving DecidableEq

/-- `frag_offset()`: where unit `index` starts, given the payload of a full continuation. -/
def fragOffset (index contLength : Nat) : Nat :=
  if index = 0 then 0 else (contLength - 7) + (index - 1) * contLength

namespace FragSlot

def capacity (slot : FragSlot) : Nat := slot.cdr.length

/-- `frag_slot_busy()`. -/
def busy (slot : FragSlot) : Bool := slot.received ≠ ∅ || slot.done

/-- `frag_slot_is()`. -/
def isFor (slot : FragSlot) (f : Fragment) : Bool :=
  slot.source = f.source && slot.entityId = f.entityId && slot.seqNo = f.seqNo

/-- The slot claimed anew: the last lines of `frag_slot_for()`. -/
def claim (slot : FragSlot) (f : Fragment) : FragSlot :=
  { slot with source := f.source, entityId := f.entityId, seqNo := f.seqNo, fragCount := f.count,
              contLength := 0, lastLength := 0, received := ∅, done := false }

def release (slot : FragSlot) : FragSlot := { slot with received := ∅, done := false }

/-- `frag_learn_cont_length()`: a last unit parked meanwhile is moved to its place. -/
def learnContLength (slot : FragSlot) (contLength : Nat) : Option FragSlot :=
  let last := slot.fragCount - 1
  let offset := fragOffset last contLength
  if slot.contLength ≠ 0 then
    if slot.contLength = contLength then some slot else none
  else if contLength ≤ 7 || slot.capacity ≤ offset then none
  else if last ∈ slot.received then
    if contLength < slot.lastLength || slot.capacity < offset + slot.lastLength then none
    else
      some { slot with
        contLength := contLength
        cdr := write slot.cdr offset
          (piece slot.cdr (slot.capacity - slot.lastLength) slot.lastLength) }
  else some { slot with contLength := contLength }

/-- The end of `frag_place()`: the payload copied to `offset`. -/
def put (slot : FragSlot) (index offset : Nat) (payload : List UInt8) : Option FragSlot :=
  if slot.capacity < payload.length || slot.capacity - payload.length < offset then none
  else
    some { slot with
      cdr := write slot.cdr offset payload
      lastLength := if index = slot.fragCount - 1 then payload.length else slot.lastLength
      received := insert index slot.received }

/-- `frag_place()`. -/
def place (slot : FragSlot) (index : Nat) (payload : List UInt8) : Option FragSlot :=
  let last := slot.fragCount - 1
  if index ∈ slot.received then some slot
  else if index ≠ last then
    (slot.learnContLength (if index = 0 then payload.length + 7 else payload.length)).bind fun slot =>
      slot.put index (fragOffset index slot.contLength) payload
  else if slot.contLength = 0 then slot.put index (slot.capacity - payload.length) payload
  else if payload.length ≤ slot.contLength then
    slot.put index (fragOffset last slot.contLength) payload
  else none

/-- `frag_fits()`. -/
def fits (slot : FragSlot) (index length : Nat) : Bool :=
  let last := slot.fragCount - 1
  let cont := if slot.contLength = 0 && index ≠ last then (if index = 0 then length + 7 else length)
    else slot.contLength
  if cont = 0 then length ≤ slot.capacity
  else
    fragOffset last cont +
      (if index = last then length else if slot.lastLength ≠ 0 then slot.lastLength else 1) ≤ slot.capacity

/-- The highest unit placed up to `n`, 0 with none. -/
def highest (received : Finset Nat) : Nat → Nat
  | 0 => 0
  | n + 1 => if n + 1 ∈ received then n + 1 else highest received n

/-- `frag_slot_move()`: what is placed of `slot`'s sample, into the pool slot `dest`. -/
def moveTo (slot dest : FragSlot) : FragSlot :=
  let last := slot.fragCount - 1
  let high := highest slot.received last
  let stop := if high = last then fragOffset last slot.contLength + slot.lastLength
    else fragOffset (high + 1) slot.contLength
  { slot with
    done := false
    cdr :=
      if slot.contLength = 0 then
        if last ∈ slot.received then
          write dest.cdr (dest.capacity - slot.lastLength)
            (piece slot.cdr (slot.capacity - slot.lastLength) slot.lastLength)
        else dest.cdr
      else write dest.cdr 0 (slot.cdr.take stop) }

/-- The CDR of a whole sample. -/
def whole (slot : FragSlot) : List UInt8 :=
  slot.cdr.take (fragOffset (slot.fragCount - 1) slot.contLength + slot.lastLength)

end FragSlot

/-! ## A slot filled with one sample's units -/

namespace FragSample

variable {node : Context} (s : FragSample node)

/-- What a slot that names the sample and has taken units of it only holds. -/
structure Fills (slot : FragSlot) : Prop where
  count : slot.fragCount = s.count
  units : ∀ i ∈ slot.received, i < s.count
  last : s.count - 1 ∈ slot.received → slot.lastLength = s.unitLength (s.count - 1)
  /-- Before the continuation length is known only the last unit can be there, parked. -/
  parked : slot.contLength = 0 → ∀ i ∈ slot.received, i = s.count - 1 ∧
    slot.lastLength ≤ slot.capacity ∧
    piece slot.cdr (slot.capacity - slot.lastLength) slot.lastLength = s.payload (s.count - 1)
  cont : slot.contLength ≠ 0 → slot.contLength = node.fragContPayload
  placed : slot.contLength ≠ 0 → ∀ i ∈ slot.received,
    Agrees slot.cdr s.cdr (node.fragPayloadOffset i) (node.fragPayloadOffset i + s.unitLength i)

variable {s}

theorem fragOffset_eq (index : Nat) : fragOffset index node.fragContPayload = node.fragPayloadOffset index := by
  have := contPayload_eq node
  unfold fragOffset Context.fragPayloadOffset
  rw [show node.fragContPayload - 7 = node.fragFirstPayload by omega]

theorem fills_claim (slot : FragSlot) {f : Fragment} (count : f.count = s.count) : s.Fills (slot.claim f) where
  count := count
  units := by simp [FragSlot.claim]
  last := by simp [FragSlot.claim]
  parked := by simp [FragSlot.claim]
  cont := by simp [FragSlot.claim]
  placed := by simp [FragSlot.claim]

/-- A slot that learns the continuation length has its units where they belong. -/
theorem Fills.learn {slot slot' : FragSlot} (h : s.Fills slot)
    (learned : slot.learnContLength node.fragContPayload = some slot') :
    s.Fills slot' ∧ slot'.contLength = node.fragContPayload ∧ slot'.received = slot.received ∧
      slot'.lastLength = slot.lastLength ∧ slot'.capacity = slot.capacity := by
  have two := s.two_le_count
  unfold FragSlot.learnContLength at learned
  simp only at learned
  split at learned
  · next known =>
    split at learned
    · next same =>
      cases learned
      exact ⟨h, same, rfl, rfl, rfl⟩
    · cases learned
  · next unknown =>
    have zero : slot.contLength = 0 := by simpa using unknown
    split at learned
    · cases learned
    · next room =>
      simp only [Bool.or_eq_true, decide_eq_true_eq, not_or, not_le] at room
      have positive : node.fragContPayload ≠ 0 := by omega
      rw [h.count, fragOffset_eq] at *
      split at learned
      · next has_last =>
        obtain ⟨-, inside, there⟩ := h.parked zero _ has_last
        have length := h.last has_last
        split at learned
        · cases learned
        · next fit =>
          simp only [Bool.or_eq_true, decide_eq_true_eq, not_or, not_lt] at fit
          cases learned
          have within := s.end_le (show s.count - 1 < s.count by omega)
          have size : (piece slot.cdr (slot.capacity - slot.lastLength) slot.lastLength).length =
              slot.lastLength := by
            apply Pieces.piece_length
            unfold FragSlot.capacity at *
            omega
          have room_last : node.fragPayloadOffset (s.count - 1) + s.unitLength (s.count - 1) ≤
              slot.cdr.length := by
            rw [← length]
            exact fit.2
          refine ⟨⟨rfl, h.units, h.last, ?_, fun _ => rfl, ?_⟩, rfl, rfl, rfl, ?_⟩
          · intro none
            exact absurd none positive
          · intro _ i mem
            obtain ⟨rfl, -, -⟩ := h.parked zero i mem
            simp only
            rw [there]
            exact Pieces.agrees_write room_last within
          · exact Pieces.write_length (by rw [size]; exact fit.2)
      · next no_last =>
        cases learned
        refine ⟨⟨rfl, h.units, h.last, ?_, fun _ => rfl, ?_⟩, rfl, rfl, rfl, rfl⟩
        · intro none
          exact absurd none positive
        · intro _ i mem
          obtain ⟨rfl, -, -⟩ := h.parked zero i mem
          exact absurd mem no_last

/-- A unit is copied to its place. -/
theorem Fills.put {slot slot' : FragSlot} (h : s.Fills slot) (known : slot.contLength = node.fragContPayload)
    {index : Nat} (below : index < s.count)
    (put : slot.put index (node.fragPayloadOffset index) (s.payload index) = some slot') :
    s.Fills slot' ∧ slot'.received = insert index slot.received ∧ slot'.capacity = slot.capacity := by
  have cont := contPayload_eq node
  have size := s.payload_length below
  have within := s.end_le below
  unfold FragSlot.put at put
  rw [size] at put
  split at put
  · cases put
  · next room =>
    simp only [Bool.or_eq_true, decide_eq_true_eq, not_or, not_lt] at room
    have fits : node.fragPayloadOffset index + s.unitLength index ≤ slot.cdr.length := by
      unfold FragSlot.capacity at room
      omega
    cases put
    have nonzero : slot.contLength ≠ 0 := by omega
    refine ⟨⟨h.count, ?_, ?_, fun zero => absurd zero nonzero, fun _ => known, ?_⟩, rfl,
      Pieces.write_length (by rw [size]; exact fits)⟩
    · intro i mem
      rcases Finset.mem_insert.mp mem with rfl | before
      · exact below
      · exact h.units i before
    · intro mem
      simp only [h.count]
      split
      · next same => rw [same]
      · next other =>
        exact h.last ((Finset.mem_insert.mp mem).resolve_left (Ne.symm other))
    · intro _ i mem
      rcases Finset.mem_insert.mp mem with rfl | before
      · exact Pieces.agrees_write fits within
      · exact (h.placed nonzero i before).write fits within

/-- The last unit is parked. -/
theorem Fills.park {slot slot' : FragSlot} (h : s.Fills slot) (unknown : slot.contLength = 0)
    (put : slot.put (s.count - 1) (slot.capacity - (s.payload (s.count - 1)).length) (s.payload (s.count - 1)) =
      some slot') :
    s.Fills slot' ∧ slot'.received = insert (s.count - 1) slot.received ∧ slot'.capacity = slot.capacity := by
  have two := s.two_le_count
  have size := s.payload_length (show s.count - 1 < s.count by omega)
  unfold FragSlot.put at put
  rw [size] at put
  split at put
  · cases put
  · next room =>
    simp only [Bool.or_eq_true, decide_eq_true_eq, not_or, not_lt] at room
    have fits : slot.capacity - s.unitLength (s.count - 1) + (s.payload (s.count - 1)).length ≤
        slot.cdr.length := by
      rw [size]
      unfold FragSlot.capacity at *
      omega
    have length := Pieces.write_length fits
    cases put
    refine ⟨⟨h.count, ?_, ?_, ?_, fun nonzero => absurd unknown nonzero,
      fun nonzero => absurd unknown nonzero⟩, rfl, length⟩
    · intro i mem
      rcases Finset.mem_insert.mp mem with rfl | before
      · omega
      · exact h.units i before
    · intro _
      simp [h.count]
    · intro _ i mem
      have same : i = s.count - 1 := by
        rcases Finset.mem_insert.mp mem with rfl | before
        · rfl
        · exact (h.parked unknown i before).1
      have there := Pieces.piece_write fits
      rw [size] at there
      unfold FragSlot.capacity at length room there
      simp only [h.count, if_true, FragSlot.capacity, length]
      exact ⟨same, room.1, there⟩

/-- One of the sample's units is placed. -/
theorem Fills.place {slot slot' : FragSlot} (h : s.Fills slot) {index : Nat} (below : index < s.count)
    (placed : slot.place index (s.payload index) = some slot') :
    s.Fills slot' ∧ slot'.received = insert index slot.received ∧ slot'.capacity = slot.capacity := by
  have size := s.payload_length below
  unfold FragSlot.place at placed
  simp only [h.count] at placed
  split at placed
  · next there =>
    cases placed
    exact ⟨h, (Finset.insert_eq_of_mem there).symm, rfl⟩
  · split at placed
    · next early =>
      have full := s.unitLength_full (show index + 1 < s.count by omega)
      have cont := contPayload_eq node
      have length : (if index = 0 then (s.payload index).length + 7 else (s.payload index).length) =
          node.fragContPayload := by
        rw [size, full]
        split <;> omega
      rw [length] at placed
      obtain ⟨learned, hlearned, hput⟩ := Option.bind_eq_some_iff.mp placed
      obtain ⟨fills, known, received, -, capacity⟩ := h.learn hlearned
      rw [known, fragOffset_eq] at hput
      obtain ⟨fills', received', capacity'⟩ := fills.put known below hput
      exact ⟨fills', by rw [received', received], by rw [capacity', capacity]⟩
    · next late =>
      have last : index = s.count - 1 := by simpa using late
      subst last
      split at placed
      · next unknown => exact h.park unknown placed
      · next known =>
        split at placed
        · have cont := h.cont known
          rw [cont, fragOffset_eq] at placed
          exact h.put cont below placed
        · cases placed

theorem offset_mono (node : Context) {i j : Nat} (h : i ≤ j) :
    node.fragPayloadOffset i ≤ node.fragPayloadOffset j := by
  induction j with
  | zero =>
    rw [Nat.le_zero.mp h]
  | succ j ih =>
    by_cases same : i = j + 1
    · rw [same]
    · have before := ih (by omega)
      have next := offset_succ node j
      omega

/-- A slot large enough takes every unit. -/
theorem Fills.place_some {slot : FragSlot} (h : s.Fills slot) {index : Nat} (below : index < s.count)
    (room : s.cdr.length ≤ slot.capacity) : ∃ slot', slot.place index (s.payload index) = some slot' := by
  have two := s.two_le_count
  have size := s.payload_length below
  have cont := contPayload_eq node
  have least := node.control_min
  have within := s.end_le below
  have put_some : ∀ slot'' : FragSlot, slot''.capacity = slot.capacity →
      ∃ slot', slot''.put index (node.fragPayloadOffset index) (s.payload index) = some slot' := by
    intro slot'' capacity
    unfold FragSlot.put
    rw [size, if_neg]
    · exact ⟨_, rfl⟩
    · simp only [Bool.or_eq_true, decide_eq_true_eq, not_or, not_lt]
      omega
  unfold FragSlot.place
  simp only [h.count]
  split
  · exact ⟨slot, rfl⟩
  · split
    · next early =>
      have full := s.unitLength_full (show index + 1 < s.count by omega)
      have length : (if index = 0 then (s.payload index).length + 7 else (s.payload index).length) =
          node.fragContPayload := by
        rw [size, full]
        split <;> omega
      rw [length]
      have learned : ∃ slot', slot.learnContLength node.fragContPayload = some slot' := by
        have last_before := s.offset_lt (show s.count - 1 < s.count by omega)
        have last_end := s.offset_add_length_last
        have last_le := s.unitLength_le (s.count - 1)
        rw [if_neg (by omega)] at last_le
        unfold FragSlot.learnContLength
        simp only [h.count, fragOffset_eq]
        split
        · next known =>
          rw [if_pos (h.cont known)]
          exact ⟨slot, rfl⟩
        · rw [if_neg]
          · split
            · next has_last =>
              rw [if_neg]
              · exact ⟨_, rfl⟩
              · rw [h.last has_last]
                simp only [Bool.or_eq_true, decide_eq_true_eq, not_or, not_lt]
                omega
            · exact ⟨_, rfl⟩
          · simp only [Bool.or_eq_true, decide_eq_true_eq, not_or, not_le]
            unfold Context.fragFirstPayload Context.fragContPayload at cont
            unfold Context.fragContPayload
            omega
      obtain ⟨slot'', hlearned⟩ := learned
      obtain ⟨-, known, -, -, capacity⟩ := h.learn hlearned
      rw [hlearned, Option.bind_some, known, fragOffset_eq]
      exact put_some slot'' capacity
    · next late =>
      have last : index = s.count - 1 := by simpa using late
      split
      · unfold FragSlot.put
        rw [if_neg]
        · exact ⟨_, rfl⟩
        · simp only [Bool.or_eq_true, decide_eq_true_eq, not_or, not_lt]
          omega
      · next known =>
        have le := s.unitLength_le index
        rw [if_neg (by omega)] at le
        rw [h.cont known, if_pos (by omega), fragOffset_eq, ← last]
        exact put_some slot rfl

/-- A slot with every unit holds the sample. -/
theorem Fills.whole_eq {slot : FragSlot} (h : s.Fills slot) (all : slot.received = Finset.range s.count) :
    slot.whole = s.cdr := by
  have two := s.two_le_count
  have has : ∀ i < s.count, i ∈ slot.received := by
    intro i below
    rw [all]
    exact Finset.mem_range.mpr below
  have known : slot.contLength ≠ 0 := by
    intro unknown
    obtain ⟨first, -⟩ := h.parked unknown 0 (has 0 (by omega))
    omega
  have ends := s.offset_add_length_last
  have agrees : Agrees slot.cdr s.cdr 0 s.cdr.length := by
    have front : Agrees slot.cdr s.cdr (node.fragPayloadOffset 0) (node.fragPayloadOffset (s.count - 1)) := by
      apply Pieces.agrees_cover
      intro i below
      rw [← s.offset_add_length (show i + 1 < s.count by omega)]
      exact h.placed known i (has i (by omega))
    have back := h.placed known (s.count - 1) (has _ (by omega))
    rw [ends] at back
    exact front.append back
  unfold FragSlot.whole
  rw [h.count, h.cont known, fragOffset_eq, h.last (has _ (by omega)), ends]
  exact agrees.take_eq

/-! ## Moved to another slot -/

theorem le_highest {received : Finset Nat} {i n : Nat} (mem : i ∈ received) (le : i ≤ n) :
    i ≤ FragSlot.highest received n := by
  induction n with
  | zero =>
    rw [Nat.le_zero.mp le]
    exact Nat.zero_le _
  | succ n ih =>
    unfold FragSlot.highest
    split
    · exact le
    · next missing =>
      apply ih
      by_contra above
      have same : i = n + 1 := by omega
      rw [same] at mem
      exact missing mem

theorem highest_le (received : Finset Nat) (n : Nat) : FragSlot.highest received n ≤ n := by
  induction n with
  | zero => exact le_refl 0
  | succ n ih =>
    unfold FragSlot.highest
    split
    · exact le_refl _
    · omega

/-- What is placed of a sample goes along when it moves to a slot at least as large. -/
theorem Fills.moveTo {slot : FragSlot} (h : s.Fills slot) {dest : FragSlot}
    (larger : slot.capacity ≤ dest.capacity) :
    s.Fills (slot.moveTo dest) ∧ (slot.moveTo dest).capacity = dest.capacity := by
  have two := s.two_le_count
  by_cases unknown : slot.contLength = 0
  · by_cases has_last : s.count - 1 ∈ slot.received
    · obtain ⟨-, inside, there⟩ := h.parked unknown _ has_last
      have length := h.last has_last
      have size := s.payload_length (show s.count - 1 < s.count by omega)
      have moved : (slot.moveTo dest).cdr =
          write dest.cdr (dest.capacity - slot.lastLength) (s.payload (s.count - 1)) := by
        unfold FragSlot.moveTo
        simp only [unknown, h.count, has_last, if_true, there]
      have fits : dest.capacity - slot.lastLength + (s.payload (s.count - 1)).length ≤ dest.cdr.length := by
        rw [size, ← length]
        unfold FragSlot.capacity at *
        omega
      have capacity : (slot.moveTo dest).capacity = dest.capacity := by
        unfold FragSlot.capacity
        rw [moved]
        exact Pieces.write_length fits
      refine ⟨⟨h.count, h.units, h.last, ?_, h.cont, fun known => absurd unknown known⟩, capacity⟩
      intro _ i mem
      refine ⟨(h.parked unknown i mem).1, ?_, ?_⟩
      · rw [capacity]
        exact inside.trans larger
      · have written := Pieces.piece_write fits
        rw [size, ← length] at written
        rw [capacity, moved]
        exact written
    · have moved : (slot.moveTo dest).cdr = dest.cdr := by
        unfold FragSlot.moveTo
        simp only [unknown, h.count, has_last, if_true, if_false]
      have none : ∀ i ∈ slot.received, False := by
        intro i mem
        obtain ⟨rfl, -, -⟩ := h.parked unknown i mem
        exact has_last mem
      refine ⟨⟨h.count, h.units, h.last, fun _ i mem => (none i mem).elim, h.cont,
        fun known => absurd unknown known⟩, ?_⟩
      unfold FragSlot.capacity
      rw [moved]
  · generalize hstop : (if FragSlot.highest slot.received (s.count - 1) = s.count - 1 then
      node.fragPayloadOffset (s.count - 1) + slot.lastLength
      else node.fragPayloadOffset (FragSlot.highest slot.received (s.count - 1) + 1)) = stop
    have moved : (slot.moveTo dest).cdr = write dest.cdr 0 (slot.cdr.take stop) := by
      unfold FragSlot.moveTo
      simp only [h.count, h.cont unknown, fragOffset_eq, hstop]
      rw [if_neg]
      rw [← h.cont unknown]
      exact unknown
    have fits : (slot.cdr.take stop).length ≤ dest.cdr.length := by
      rw [List.length_take]
      unfold FragSlot.capacity at larger
      omega
    have capacity : (slot.moveTo dest).capacity = dest.capacity := by
      unfold FragSlot.capacity
      rw [moved]
      exact Pieces.write_length (by omega)
    refine ⟨⟨h.count, h.units, h.last, fun known => absurd known unknown, h.cont, ?_⟩, capacity⟩
    intro _ i also
    have mem : i ∈ slot.received := also
    have below := h.units i mem
    have agrees := h.placed unknown i mem
    have within := s.end_le below
    have inside := agrees.le_length (by have := s.unitLength_pos below; omega) within
    rw [moved]
    apply agrees.copy _ inside fits
    -- unit `i` ends before the copy does
    have high := le_highest mem (show i ≤ s.count - 1 by omega)
    rw [← hstop]
    split
    · by_cases last : i = s.count - 1
      · rw [last, h.last (last ▸ mem)]
      · rw [s.offset_add_length (show i + 1 < s.count by omega)]
        have := offset_mono node (show i + 1 ≤ s.count - 1 by omega)
        omega
    · next short =>
      have last : i ≠ s.count - 1 := by
        rintro rfl
        have most := highest_le slot.received (s.count - 1)
        omega
      rw [s.offset_add_length (show i + 1 < s.count by omega)]
      exact offset_mono node (by omega)

end FragSample

end Tickle
