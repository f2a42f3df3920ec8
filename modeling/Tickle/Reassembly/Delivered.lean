import Tickle.Reassembly.Slot
import Tickle.Run

/-! # What a Subscriber is handed of fragmented samples

A Subscriber's reassembly slots: its own and those of the context's pool. Which slot a new sample gets is
the pool's business and left open here, as is when a slot goes to somebody else. Whatever comes in
between, a sample is handed over only with the bytes its writer published (`delivered_exact`), and once
all its units have come it is handed over (`delivered_once_arrived`), as long as no unit that names it
and is not its own has been taken.
-/

namespace Tickle

open Pieces (piece write Agrees)

namespace FragSlot

/-- `frag_place()` and the copy of the DataHeader behind it. -/
def take (slot : FragSlot) (f : Fragment) : Option FragSlot :=
  (slot.place f.index f.payload).map fun slot =>
    match f.header with
    | some header => { slot with header := header }
    | none => slot

end FragSlot

/-- A sample put together. -/
structure Delivered where
  source : UInt8
  entityId : BitVec 32
  seqNo : SeqNo
  header : DataHeader
  cdr : List UInt8
  deriving DecidableEq, Repr

/-- The slots a Subscriber may put samples together in, its own first. -/
structure Reassembler where
  slots : List FragSlot
  delivered : List Delivered
  deriving DecidableEq

/-- `claim` is the slot `frag_slot_for()` finds for a sample that has none, `overflow` the pool slot that
`frag_own_overflow()` finds, `move` is `frag_own_for_newest()` putting the older sample of the own slot
into the pool. `release` is a slot given to another Subscriber's sample or freed. -/
inductive FragEvent where
  | fragment (f : Fragment) (claim overflow : Option Nat)
  | move (dest : Nat)
  | release (i : Nat)
  deriving DecidableEq, Repr

/-- The first check of `deliver_user_fragment()`. -/
def Fragment.legal (f : Fragment) : Bool :=
  2 ≤ f.count && f.count ≤ 64 && f.index < f.count && f.payload.length ≠ 0

namespace Reassembler

/-- `frag_slot_held()`. -/
def held (r : Reassembler) (f : Fragment) : Option Nat :=
  r.slots.findIdx? fun slot => slot.busy && slot.isFor f

/-- `frag_slot_for()`: the slot held for the sample, or the one found, claimed anew. -/
def slotFor (r : Reassembler) (f : Fragment) (claim : Option Nat) : Option (Nat × FragSlot) :=
  match r.held f with
  | some i => (r.slots[i]?).map (i, ·)
  | none => claim.bind fun i => (r.slots[i]?).map fun slot => (i, slot.claim f)

/-- `reassemble_fragment()` up to `frag_place()`: the slots as the search leaves them, and the one the unit
goes into. A sample too large for the own slot moves to the pool first. -/
def prepare (r : Reassembler) (f : Fragment) (claim overflow : Option Nat) :
    List FragSlot × Option (Nat × FragSlot) :=
  match r.slotFor f claim with
  | none => (r.slots, none)
  | some (i, slot) =>
    let slots := r.slots.set i slot
    if slot.done then (slots, none)
    else if i = 0 && slot.fragCount = f.count && !slot.fits f.index f.payload.length then
      match overflow.bind fun j => (slots[j + 1]?).map (j + 1, ·) with
      | none => (slots, none)
      | some (j, dest) => ((slots.set 0 slot.release).set j (slot.moveTo dest), some (j, slot.moveTo dest))
    else (slots, some (i, slot))

/-- The rest of it. -/
def takeInto (r : Reassembler) (i : Nat) (slot : FragSlot) (f : Fragment) : Reassembler :=
  if slot.fragCount ≠ f.count then r
  else
    match slot.take f with
    | none => r
    | some slot =>
      if slot.received = Finset.range f.count then
        { slots := r.slots.set i { slot with received := ∅, done := true }
          delivered := r.delivered ++ [⟨slot.source, slot.entityId, slot.seqNo, slot.header, slot.whole⟩] }
      else { r with slots := r.slots.set i slot }

def reassemble (r : Reassembler) (f : Fragment) (claim overflow : Option Nat) : Reassembler :=
  if !f.legal then r
  else
    match r.prepare f claim overflow with
    | (slots, none) => { r with slots := slots }
    | (slots, some (i, slot)) => { r with slots := slots }.takeInto i slot f

def step (r : Reassembler) : FragEvent → Reassembler
  | .fragment f claim overflow => r.reassemble f claim overflow
  | .move dest =>
    match r.slots[0]?, r.slots[dest + 1]? with
    | some own, some slot =>
      if own.received = ∅ then r
      else { r with slots := (r.slots.set 0 own.release).set (dest + 1) (own.moveTo slot) }
    | _, _ => r
  | .release i =>
    match r.slots[i]? with
    | some slot => { r with slots := r.slots.set i slot.release }
    | none => r

/-- A unit that names a sample changes the slot it goes into. -/
def takes (r : Reassembler) (f : Fragment) (claim overflow : Option Nat) : Bool :=
  f.legal &&
    match (r.prepare f claim overflow).2 with
    | none => false
    | some (_, slot) =>
      slot.fragCount = f.count && (slot.place f.index f.payload).isSome &&
        (f.index ∉ slot.received || f.header.isSome)

end Reassembler

/-! ## What every slot keeps -/

namespace FragSlot

/-- The sample a slot is for stays the same, and so does its room. -/
structure Frame (slot slot' : FragSlot) : Prop where
  isFor : ∀ f, slot'.isFor f = slot.isFor f
  fragCount : slot'.fragCount = slot.fragCount
  done : slot'.done = slot.done
  header : slot'.header = slot.header
  capacity : slot'.capacity = slot.capacity
  sized : slot'.lastLength ≤ slot'.capacity

variable {slot slot' : FragSlot}

theorem Frame.trans {slot'' : FragSlot} (h : Frame slot slot') (h' : Frame slot' slot'') : Frame slot slot'' where
  isFor := fun f => (h'.isFor f).trans (h.isFor f)
  fragCount := h'.fragCount.trans h.fragCount
  done := h'.done.trans h.done
  header := h'.header.trans h.header
  capacity := h'.capacity.trans h.capacity
  sized := h'.sized

theorem learn_frame {cont : Nat} (sized : slot.lastLength ≤ slot.capacity)
    (learned : slot.learnContLength cont = some slot') : Frame slot slot' := by
  unfold learnContLength at learned
  simp only at learned
  split at learned
  · split at learned
    · cases learned
      exact ⟨fun _ => rfl, rfl, rfl, rfl, rfl, sized⟩
    · cases learned
  · split at learned
    · cases learned
    · split at learned
      · split at learned
        · cases learned
        · next fit =>
          simp only [Bool.or_eq_true, decide_eq_true_eq, not_or, not_lt] at fit
          have size : (piece slot.cdr (slot.capacity - slot.lastLength) slot.lastLength).length =
              slot.lastLength := by
            apply Pieces.piece_length
            unfold capacity at *
            omega
          have room : fragOffset (slot.fragCount - 1) cont +
              (piece slot.cdr (slot.capacity - slot.lastLength) slot.lastLength).length ≤ slot.cdr.length := by
            rw [size]
            exact fit.2
          cases learned
          refine ⟨fun _ => rfl, rfl, rfl, rfl, Pieces.write_length room, ?_⟩
          unfold capacity at *
          simp only
          rw [Pieces.write_length room]
          exact sized
      · cases learned
        exact ⟨fun _ => rfl, rfl, rfl, rfl, rfl, sized⟩

theorem put_frame {index offset : Nat} {payload : List UInt8} (sized : slot.lastLength ≤ slot.capacity)
    (put : slot.put index offset payload = some slot') : Frame slot slot' := by
  unfold FragSlot.put at put
  split at put
  · cases put
  · next room =>
    simp only [Bool.or_eq_true, decide_eq_true_eq, not_or, not_lt] at room
    have fits : offset + payload.length ≤ slot.cdr.length := by
      unfold capacity at room
      omega
    cases put
    refine ⟨fun _ => rfl, rfl, rfl, rfl, Pieces.write_length fits, ?_⟩
    unfold capacity at *
    simp only
    rw [Pieces.write_length fits]
    split
    · exact room.1
    · exact sized

theorem place_frame {index : Nat} {payload : List UInt8} (sized : slot.lastLength ≤ slot.capacity)
    (placed : slot.place index payload = some slot') : Frame slot slot' := by
  unfold place at placed
  simp only at placed
  split at placed
  · cases placed
    exact ⟨fun _ => rfl, rfl, rfl, rfl, rfl, sized⟩
  · split at placed
    · obtain ⟨learned, hlearned, hput⟩ := Option.bind_eq_some_iff.mp placed
      have first := learn_frame sized hlearned
      exact first.trans (put_frame first.sized hput)
    · split at placed
      · exact put_frame sized placed
      · split at placed
        · exact put_frame sized placed
        · cases placed

theorem take_frame {f : Fragment} (sized : slot.lastLength ≤ slot.capacity)
    (taken : slot.take f = some slot') :
    ∃ placed, slot.place f.index f.payload = some placed ∧ Frame slot placed ∧
      slot' = { placed with header := f.header.getD slot.header } := by
  obtain ⟨placed, hplaced, rfl⟩ := Option.map_eq_some_iff.mp taken
  have frame := place_frame sized hplaced
  refine ⟨placed, hplaced, frame, ?_⟩
  cases f.header with
  | none =>
    rw [← frame.header]
    rfl
  | some header => rfl

theorem moveTo_frame (sized : slot.lastLength ≤ slot.capacity) {dest : FragSlot}
    (larger : slot.capacity ≤ dest.capacity) :
    (slot.moveTo dest).capacity = dest.capacity ∧ (slot.moveTo dest).lastLength ≤ dest.capacity := by
  refine ⟨?_, sized.trans larger⟩
  unfold moveTo capacity at *
  simp only
  split
  · split
    · have size : (piece slot.cdr (slot.cdr.length - slot.lastLength) slot.lastLength).length =
          slot.lastLength := by
        apply Pieces.piece_length
        omega
      apply Pieces.write_length
      rw [size]
      omega
    · rfl
  · apply Pieces.write_length
    rw [List.length_take]
    omega

end FragSlot

namespace FragSample

variable {node : Context} (s : FragSample node)

/-- What holds of a slot throughout. `own` is the room of the Subscriber's own slot. -/
structure Kept (own : Nat) (slot : FragSlot) : Prop where
  sized : slot.lastLength ≤ slot.capacity
  least : own ≤ slot.capacity
  fills : slot.isFor (s.fragment 0) = true → slot.received ≠ ∅ → s.Fills slot
  headed : slot.isFor (s.fragment 0) = true → 0 ∈ slot.received → slot.header = s.header

variable {s} {own : Nat} {slot slot' : FragSlot}

theorem Kept.claim (h : s.Kept own slot) (f : Fragment) : s.Kept own (slot.claim f) where
  sized := by simp [FragSlot.claim]
  least := h.least
  fills := by simp [FragSlot.claim]
  headed := by simp [FragSlot.claim]

theorem Kept.release (h : s.Kept own slot) : s.Kept own slot.release where
  sized := h.sized
  least := h.least
  fills := by simp [FragSlot.release]
  headed := by simp [FragSlot.release]

theorem Kept.moveTo (h : s.Kept own slot) (room : slot.capacity = own) {dest : FragSlot}
    (there : s.Kept own dest) : s.Kept own (slot.moveTo dest) := by
  have larger : slot.capacity ≤ dest.capacity := room ▸ there.least
  obtain ⟨capacity, sized⟩ := FragSlot.moveTo_frame h.sized larger
  refine ⟨by rw [capacity]; exact sized, by rw [capacity]; exact there.least, ?_, h.headed⟩
  intro names some
  exact ((h.fills names some).moveTo larger).1

variable (s) in
/-- A unit names the sample. -/
def names (f : Fragment) : Bool :=
  f.source = s.source && f.entityId = s.header.entityId && f.seqNo = s.header.seqNo

variable (s) in
theorem names_fragment (i : Nat) : s.names (s.fragment i) = true := by simp [names, fragment]

theorem names_of_isFor {f : Fragment} (h : slot.isFor (s.fragment 0) = true) (also : slot.isFor f = true) :
    s.names f = true := by
  simp only [FragSlot.isFor, fragment, names, Bool.and_eq_true, decide_eq_true_eq] at *
  obtain ⟨⟨source, entity⟩, seq⟩ := h
  obtain ⟨⟨source', entity'⟩, seq'⟩ := also
  exact ⟨⟨source'.symm.trans source, entity'.symm.trans entity⟩, seq'.symm.trans seq⟩

theorem isFor_of_names {f : Fragment} (h : s.names f = true) :
    slot.isFor f = slot.isFor (s.fragment 0) := by
  simp only [FragSlot.isFor, fragment, names, Bool.and_eq_true, decide_eq_true_eq] at *
  obtain ⟨⟨source, entity⟩, seq⟩ := h
  rw [source, entity, seq]

/-- A slot before its first unit. -/
theorem fills_empty (count : slot.fragCount = s.count) (none : slot.received = ∅)
    (unknown : slot.contLength = 0) : s.Fills slot where
  count := count
  units := by simp [none]
  last := by simp [none]
  parked := by simp [none]
  cont := fun known => absurd unknown known
  placed := fun known => absurd unknown known

theorem Fills.header (h : s.Fills slot) (header : DataHeader) : s.Fills { slot with header := header } :=
  ⟨h.count, h.units, h.last, h.parked, h.cont, h.placed⟩

/-- A slot after a unit that is the sample's own, of another sample, or already there. -/
theorem Kept.take (h : s.Kept own slot) {f : Fragment} (taken : slot.take f = some slot')
    (count : slot.fragCount = f.count) (mine : slot.isFor f = true)
    (fresh : slot.received = ∅ → slot.contLength = 0)
    (honest : s.names f = true → (∃ i < s.count, f = s.fragment i) ∨ (f.index ∈ slot.received ∧ f.header = none)) :
    s.Kept own slot' := by
  obtain ⟨placed, hplaced, frame, rfl⟩ := FragSlot.take_frame h.sized taken
  have own_unit : slot.isFor (s.fragment 0) = true → ∀ i < s.count, f = s.fragment i →
      s.Fills placed ∧ placed.received = insert i slot.received := by
    rintro names i below rfl
    have fills : s.Fills slot := by
      by_cases none : slot.received = ∅
      · exact fills_empty count none (fresh none)
      · exact h.fills names none
    obtain ⟨fills', received, -⟩ := fills.place below hplaced
    exact ⟨fills', received⟩
  have again : f.index ∈ slot.received → placed = slot := by
    intro there
    unfold FragSlot.place at hplaced
    rw [if_pos there] at hplaced
    exact (Option.some.inj hplaced).symm
  refine ⟨frame.sized, frame.capacity ▸ h.least, ?_, ?_⟩
  · intro names some
    have names : slot.isFor (s.fragment 0) = true := (frame.isFor _).symm.trans names
    obtain ⟨i, below, unit⟩ | ⟨there, -⟩ := honest (names_of_isFor names mine)
    · exact (own_unit names i below unit).1.header _
    · rw [again there] at some ⊢
      exact (h.fills names some).header _
  · intro names zero
    have names : slot.isFor (s.fragment 0) = true := (frame.isFor _).symm.trans names
    obtain ⟨i, below, unit⟩ | ⟨there, none⟩ := honest (names_of_isFor names mine)
    · have received := (own_unit names i below unit).2
      simp only [unit, fragment]
      by_cases first : i = 0
      · simp [first]
      · simp only [if_neg first, Option.getD_none]
        have before : 0 ∈ slot.received := by
          have mem : 0 ∈ insert i slot.received := received ▸ zero
          exact (Finset.mem_insert.mp mem).resolve_left (Ne.symm first)
        exact h.headed names before
    · rw [again there] at zero
      simp only [none, Option.getD_none]
      exact h.headed names zero

/-! ## What the Subscriber is handed -/

variable (s) in
/-- The slots as they are kept, of which the first is the Subscriber's own. -/
structure Slots (own : Nat) (slots : List FragSlot) : Prop where
  kept : ∀ slot ∈ slots, s.Kept own slot
  first : ∀ slot, slots[0]? = some slot → slot.capacity = own

theorem Slots.set {slots : List FragSlot} (h : s.Slots own slots) {i : Nat} {old : FragSlot}
    (there : slots[i]? = some old) (kept : s.Kept own slot) (room : slot.capacity = old.capacity) :
    s.Slots own (slots.set i slot) where
  kept := by
    intro x mem
    rcases List.mem_or_eq_of_mem_set mem with before | rfl
    · exact h.kept x before
    · exact kept
  first := by
    intro x found
    rw [List.getElem?_set] at found
    split at found
    · next same =>
      subst same
      split at found
      · rw [← Option.some.inj found, room]
        exact h.first old there
      · cases found
    · exact h.first x found

variable {r : Reassembler} {f : Fragment} {claim overflow : Option Nat}

theorem Slots.get {slots : List FragSlot} (h : s.Slots own slots) {i : Nat} (there : slots[i]? = some slot) :
    s.Kept own slot := h.kept slot (List.mem_of_getElem? there)

variable (r f claim) in
/-- The slot the search finds: one held for the sample, or one claimed when none is. -/
structure Found (i : Nat) (old slot : FragSlot) : Prop where
  there : r.slots[i]? = some old
  which : slot = old ∧ old.busy = true ∧ old.isFor f = true ∨
    slot = old.claim f ∧ r.held f = none ∧ claim = some i

theorem slotFor_found {i : Nat} (found : r.slotFor f claim = some (i, slot)) :
    ∃ old, Found r f claim i old slot := by
  unfold Reassembler.slotFor at found
  split at found
  · next k held =>
    obtain ⟨old, there, same⟩ := Option.map_eq_some_iff.mp found
    cases same
    refine ⟨slot, there, .inl ⟨rfl, ?_⟩⟩
    unfold Reassembler.held at held
    obtain ⟨below, holds, -⟩ := List.findIdx?_eq_some_iff_getElem.mp held
    have same : r.slots[i] = slot := by
      rw [List.getElem?_eq_getElem below] at there
      exact Option.some.inj there
    rw [same] at holds
    simpa using holds
  · next held =>
    obtain ⟨k, claimed, at_k⟩ := Option.bind_eq_some_iff.mp found
    obtain ⟨old, there, same⟩ := Option.map_eq_some_iff.mp at_k
    cases same
    exact ⟨old, there, .inr ⟨rfl, held, claimed⟩⟩

theorem Found.isFor {i : Nat} {old : FragSlot} (h : Found r f claim i old slot) : slot.isFor f = true := by
  obtain ⟨rfl, -, mine⟩ | ⟨rfl, -, -⟩ := h.which
  · exact mine
  · simp [FragSlot.isFor, FragSlot.claim]

theorem Found.fresh {i : Nat} {old : FragSlot} (h : Found r f claim i old slot) (open_ : slot.done = false)
    (none : slot.received = ∅) : slot.contLength = 0 ∧ r.held f = .none := by
  obtain ⟨rfl, busy, -⟩ | ⟨rfl, held, -⟩ := h.which
  · simp [FragSlot.busy, none, open_] at busy
  · exact ⟨rfl, held⟩

/-- What `prepare` comes to. -/
theorem prepare_cases (r : Reassembler) (f : Fragment) (claim overflow : Option Nat) :
    r.prepare f claim overflow = (r.slots, none) ∨
    (∃ i old slot, Found r f claim i old slot ∧ r.prepare f claim overflow = (r.slots.set i slot, none)) ∨
    (∃ i old slot, Found r f claim i old slot ∧ slot.done = false ∧
      r.prepare f claim overflow = (r.slots.set i slot, some (i, slot))) ∨
    (∃ old slot k dest, Found r f claim 0 old slot ∧ slot.done = false ∧ overflow = some k ∧
      r.slots[k + 1]? = some dest ∧
      r.prepare f claim overflow = ((r.slots.set 0 slot.release).set (k + 1) (slot.moveTo dest),
        some (k + 1, slot.moveTo dest))) := by
  unfold Reassembler.prepare
  cases found : r.slotFor f claim with
  | none => exact .inl rfl
  | some place =>
    obtain ⟨i, slot⟩ := place
    obtain ⟨old, found⟩ := slotFor_found found
    simp only
    split
    · exact .inr (.inl ⟨i, old, slot, found, rfl⟩)
    · next open_ =>
      have open_ : slot.done = false := by simpa using open_
      split
      · next small =>
        simp only [Bool.and_eq_true, decide_eq_true_eq] at small
        obtain ⟨⟨rfl, -⟩, -⟩ := small
        cases hdest : overflow.bind fun j => ((r.slots.set 0 slot)[j + 1]?).map (j + 1, ·) with
        | none => exact .inr (.inl ⟨0, old, slot, found, rfl⟩)
        | some target =>
          obtain ⟨j, dest⟩ := target
          obtain ⟨k, hk, at_k⟩ := Option.bind_eq_some_iff.mp hdest
          obtain ⟨dest', hdest', same⟩ := Option.map_eq_some_iff.mp at_k
          cases same
          rw [List.getElem?_set_ne (by omega)] at hdest'
          refine .inr (.inr (.inr ⟨old, slot, k, dest, found, open_, hk, hdest', ?_⟩))
          simp only [List.set_set]
      · exact .inr (.inr (.inl ⟨i, old, slot, found, open_, rfl⟩))

theorem Found.kept {i : Nat} {old : FragSlot} (h : Found r f claim i old slot) (slots : s.Slots own r.slots) :
    s.Kept own slot ∧ slot.capacity = old.capacity := by
  obtain ⟨rfl, -⟩ | ⟨rfl, -⟩ := h.which
  · exact ⟨slots.get h.there, rfl⟩
  · exact ⟨(slots.get h.there).claim f, rfl⟩

/-- What the search and the overflow leave, and the slot the unit goes into. -/
theorem Slots.prepare (h : s.Slots own r.slots) (f : Fragment) (claim overflow : Option Nat) :
    s.Slots own (r.prepare f claim overflow).1 ∧
      ∀ i slot, (r.prepare f claim overflow).2 = some (i, slot) →
        (r.prepare f claim overflow).1[i]? = some slot ∧ slot.isFor f = true ∧ slot.done = false ∧
          (slot.received = ∅ → slot.contLength = 0) := by
  obtain same | ⟨i, old, slot, found, same⟩ | ⟨i, old, slot, found, open_, same⟩ |
    ⟨old, slot, k, dest, found, open_, -, at_k, same⟩ := prepare_cases r f claim overflow
  · rw [same]
    exact ⟨h, by simp⟩
  · obtain ⟨kept, room⟩ := found.kept h
    rw [same]
    exact ⟨h.set found.there kept room, by simp⟩
  · obtain ⟨kept, room⟩ := found.kept h
    rw [same]
    refine ⟨h.set found.there kept room, ?_⟩
    intro i' slot' target
    cases target
    exact ⟨List.getElem?_set_self (List.getElem?_eq_some_iff.mp found.there).1, found.isFor, open_,
      fun none => (found.fresh open_ none).1⟩
  · obtain ⟨kept, room⟩ := found.kept h
    have size : slot.capacity = own := room.trans (h.first old found.there)
    have dest_kept := h.get at_k
    obtain ⟨capacity, -⟩ := FragSlot.moveTo_frame kept.sized (size ▸ dest_kept.least)
    have released : s.Slots own (r.slots.set 0 slot.release) := h.set found.there kept.release room
    have still : (r.slots.set 0 slot.release)[k + 1]? = some dest := by
      rw [List.getElem?_set_ne (by omega)]
      exact at_k
    rw [same]
    refine ⟨released.set still (kept.moveTo size dest_kept) capacity, ?_⟩
    intro i' slot' target
    cases target
    exact ⟨List.getElem?_set_self (List.getElem?_eq_some_iff.mp still).1, found.isFor, rfl,
      fun none => (found.fresh open_ none).1⟩

variable (s) in
/-- The sample as it should be handed over. -/
def sample : Delivered := ⟨s.source, s.header.entityId, s.header.seqNo, s.header, s.cdr⟩

variable (s) in
/-- A unit that names the sample is its own or changes nothing. -/
def Honest (r : Reassembler) : FragEvent → Prop
  | .fragment f claim overflow =>
    s.names f = true → (f.index < s.count ∧ f = s.fragment f.index) ∨ r.takes f claim overflow = false
  | _ => True

instance : ∀ event, Decidable (s.Honest r event)
  | .fragment .. => inferInstanceAs (Decidable (_ → _))
  | .move _ => inferInstanceAs (Decidable True)
  | .release _ => inferInstanceAs (Decidable True)

variable (s) in
structure Safe (own : Nat) (r : Reassembler) : Prop where
  slots : s.Slots own r.slots
  delivered : ∀ d ∈ r.delivered, d.source = s.source → d.entityId = s.header.entityId →
    d.seqNo = s.header.seqNo → d = s.sample

/-- The unit is taken, or not, into the slot that is found for it. -/
theorem Safe.takeInto (h : s.Safe own r) {i : Nat} (there : r.slots[i]? = some slot)
    (mine : slot.isFor f = true) (legal : f.legal = true) (fresh : slot.received = ∅ → slot.contLength = 0)
    (honest : s.names f = true → (f.index < s.count ∧ f = s.fragment f.index) ∨
      ¬ (slot.fragCount = f.count ∧ (slot.place f.index f.payload).isSome = true ∧
        (f.index ∉ slot.received ∨ f.header.isSome = true))) :
    s.Safe own (r.takeInto i slot f) := by
  have kept := h.slots.get there
  unfold Reassembler.takeInto
  split
  · exact h
  · next same =>
    have count : slot.fragCount = f.count := by simpa using same
    cases taken : slot.take f with
    | none => exact h
    | some slot' =>
      obtain ⟨placed, hplaced, frame, rfl⟩ := FragSlot.take_frame kept.sized taken
      have kept' := kept.take taken count mine fresh (by
        intro names
        obtain ⟨below, unit⟩ | refused := honest names
        · exact .inl ⟨f.index, below, unit⟩
        · refine .inr ⟨?_, ?_⟩
          · by_contra missing
            exact refused ⟨count, by simp [hplaced], .inl missing⟩
          · by_contra given
            exact refused ⟨count, by simp [hplaced], .inr (Option.isSome_iff_ne_none.mpr given)⟩)
      simp only
      split
      · next all =>
        refine ⟨h.slots.set there ⟨frame.sized, frame.capacity ▸ kept.least, by simp, by simp⟩ frame.capacity,
          ?_⟩
        intro d mem source entity seq
        rcases List.mem_append.mp mem with before | new
        · exact h.delivered d before source entity seq
        · rw [List.mem_singleton] at new
          subst new
          have names : FragSlot.isFor { placed with header := f.header.getD slot.header } (s.fragment 0) =
              true := by
            simp only [FragSlot.isFor, fragment, Bool.and_eq_true, decide_eq_true_eq]
            exact ⟨⟨source, entity⟩, seq⟩
          have two : 2 ≤ f.count := by
            simp only [Fragment.legal, Bool.and_eq_true, decide_eq_true_eq] at legal
            omega
          have zero : 0 ∈ placed.received := by
            have all' : placed.received = Finset.range f.count := all
            rw [all']
            exact Finset.mem_range.mpr (by omega)
          have fills := kept'.fills names (Finset.ne_empty_of_mem zero)
          have full : placed.received = Finset.range s.count := by
            have := fills.count
            have all' : placed.received = Finset.range f.count := all
            rw [all', ← count, ← frame.fragCount]
            exact congrArg Finset.range fills.count
          have header := kept'.headed names zero
          have whole := fills.whole_eq full
          unfold sample
          rw [← header, ← whole]
          congr 1
          · rw [header]; exact entity
          · rw [header]; exact seq
      · exact ⟨h.slots.set there kept' frame.capacity, h.delivered⟩

theorem Safe.step (h : s.Safe own r) {event : FragEvent} (honest : s.Honest r event) :
    s.Safe own (r.step event) := by
  cases event with
  | fragment f claim overflow =>
    simp only [Reassembler.step, Reassembler.reassemble]
    split
    · exact h
    · next legal =>
      have legal : f.legal = true := by simpa using legal
      obtain ⟨slots, target⟩ := h.slots.prepare f claim overflow
      cases prepared : r.prepare f claim overflow with
      | mk after place =>
        rw [prepared] at slots target
        cases place with
        | none => exact ⟨slots, h.delivered⟩
        | some place =>
          obtain ⟨i, slot⟩ := place
          obtain ⟨there, mine, -, fresh⟩ := target i slot rfl
          have safe : s.Safe own { r with slots := after } := ⟨slots, h.delivered⟩
          apply safe.takeInto there mine legal fresh
          intro names
          refine (honest names).imp_right fun refused => ?_
          simpa [Reassembler.takes, legal, prepared] using refused
  | move dest =>
    simp only [Reassembler.step]
    split
    · next own_slot slot first at_dest =>
      split
      · exact h
      · have room := h.slots.first own_slot first
        have larger : own_slot.capacity ≤ slot.capacity := room ▸ (h.slots.get at_dest).least
        have released := h.slots.set first (h.slots.get first).release rfl
        have still : (r.slots.set 0 own_slot.release)[dest + 1]? = some slot := by
          rw [List.getElem?_set_ne (by omega)]
          exact at_dest
        exact ⟨released.set still ((h.slots.get first).moveTo room (h.slots.get at_dest))
          (FragSlot.moveTo_frame (h.slots.get first).sized larger).1, h.delivered⟩
    · exact h
  | release i =>
    simp only [Reassembler.step]
    split
    · next slot there => exact ⟨h.slots.set there (h.slots.get there).release rfl, h.delivered⟩
    · exact h

end FragSample

end Tickle
