import Tickle.Serial
import Tickle.Tx.Buffer
import Tickle.Tx.Pacing

/-! # A large record goes

A large record is sent unit by unit, in datagrams of one unit or in runs, to one destination after another; a full send buffer or
a paced link stops the send, and it goes on later from where its cursor stands. While its publish is on, the record is encoded only
as far as the next send call reads, and to its end when the send stops.
-/

namespace Tickle

open Serial

/-! ## The record -/

/-- How a topic encodes one sample: `cdr` is what `data_encode()` writes, and `data_encode_range()`, where it does not decline,
writes the same bytes. `whole` is whether `data_encode()` succeeds. -/
structure Codec where
  cdr : List UInt8
  range : Nat → Nat → Bool
  whole : Bool

/-- Where a sample goes: in runs of `runN` units from 2 on, in one only when `oneRun`; one unit a call when `alone`; by descriptor
when its segment takes them. -/
structure Dest where
  runN : Nat
  oneRun : Bool
  alone : Bool
  takesRef : Bool
  deriving DecidableEq, Repr

/-- A datagram handed to the network: units from `first` on, and their bytes. A descriptor hands over all of them. -/
structure Handed where
  dest : Nat
  first : Nat
  units : Nat
  payload : List UInt8
  deriving DecidableEq, Repr

/-- `struct tt_LargeRecord`: `id` is its buffer's address and `buffer` the CDR in it. What it was published from and where it has
gone so far are history. -/
structure LargeTx where
  id : Nat
  seqNo : SeqNo
  send : LargeSend
  buffer : List UInt8
  encoded : Nat
  retained : Bool
  sent : Bool
  chunk : Bool
  codec : Codec
  dests : List Dest
  handed : List Handed

namespace LargeTx

def count (record : LargeTx) : Nat := record.send.count

/-- `large_end_of()`. -/
def endOf (record : LargeTx) (last : Nat) : Nat := record.send.largeOffset last + record.send.largeLength last

/-- The CDR as it is sent, padded. -/
def image (record : LargeTx) : List UInt8 :=
  record.codec.cdr ++ List.replicate (record.send.cdrLen - record.codec.cdr.length) 0

/-- `large_encode_through()`; `source` is the buffer whose publish is on. -/
def encodeThrough (record : LargeTx) (source : Option Nat) (end_ : Nat) : LargeTx × Bool :=
  if source ≠ some record.id ∨ record.send.cdrLen ≤ record.encoded ∨ end_ ≤ record.encoded then (record, true)
  else
    let end_ := min end_ record.send.cdrLen
    let size := record.codec.cdr.length
    let stop := min end_ size
    if record.encoded < stop then
      if record.codec.range record.encoded (stop - record.encoded) then
        let buffer := overwrite record.buffer record.encoded
          ((record.codec.cdr.drop record.encoded).take (stop - record.encoded))
        ({ record with buffer := overwrite buffer stop (List.replicate (end_ - stop) 0), encoded := end_ }, true)
      else if record.codec.whole then
        let buffer := overwrite record.buffer 0 record.codec.cdr
        ({ record with
          buffer := overwrite buffer size (List.replicate (record.send.cdrLen - size) 0)
          encoded := record.send.cdrLen }, true)
      else (record, false)
    else
      ({ record with
        buffer := overwrite record.buffer record.encoded (List.replicate (end_ - record.encoded) 0), encoded := end_ }, true)

/-- Units `first` to `first + units - 1` as they lie in the buffer. -/
def slice (record : LargeTx) (first units : Nat) : List UInt8 :=
  (record.buffer.drop (record.send.largeOffset first)).take (record.endOf (first + units - 1) - record.send.largeOffset first)

/-- One datagram behind another, of these many units each. -/
def hand (record : LargeTx) (dest : Nat) : Nat → List Nat → List Handed
  | _, [] => []
  | first, n :: units => ⟨dest, first, n, record.slice first n⟩ :: record.hand dest (first + n) units

end LargeTx

/-! ## A send call -/

/-- How the calls go, one after another: what the pacing grants of so many units, how many datagrams of a batch go (none is an
error), and whether a descriptor is taken. -/
structure Net where
  fit : Nat → Nat → Nat
  sent : Nat → Nat → Option Nat
  ref : Nat → Bool
  fit_le : ∀ call want, fit call want ≤ want
  sent_le : ∀ call batch k, sent call batch = some k → k ≤ batch

namespace Dest

/-- `hybrid_run_until()`. -/
def runUntil (dest : Dest) (count : Nat) : Nat :=
  if dest.runN < 2 then 0 else if dest.oneRun ∧ dest.runN < count - 1 then dest.runN else count - 1

/-- The loop of `large_build_runs()`: the units of each datagram. -/
def buildRuns (runN runUntil last maxUnits : Nat) : Nat → Nat → Nat → List Nat
  | 0, _, _ => []
  | k + 1, callUnits, next =>
    if callUnits < maxUnits ∧ next < last then
      let run := if runUntil ≤ next then 1 else min (runUntil - next) runN
      run :: buildRuns runN runUntil last maxUnits k (callUnits + run) (next + run)
    else []

/-- The units that a call asks the pacing for. -/
def want (dest : Dest) (count next : Nat) : Nat :=
  if 2 ≤ dest.runN then LargeSend.largeBatch else min (count - next) (if dest.alone then 1 else LargeSend.largeBatch)

/-- The units of each datagram of a call: `large_build_runs()`, or one each. -/
def units (dest : Dest) (count next fit : Nat) : List Nat :=
  if 2 ≤ dest.runN then
    if next = count - 1 then [1]
    else buildRuns dest.runN (dest.runUntil count) (count - 1) fit LargeSend.largeBatch 0 next
  else List.replicate fit 1

end Dest

/-! ## The send -/

/-- The record, the cursor over it, and how many calls have been made. -/
structure Sending where
  record : LargeTx
  nextDest : Nat
  nextIndex : Nat
  calls : Nat

inductive Went
  | done | stopped | failed
  deriving DecidableEq, Repr

namespace Sending

variable (net : Net) (source : Option Nat)

/-- The send stops here: what is not encoded yet is, while the publish is on. -/
def stop (s : Sending) : Sending × Went :=
  let encoded := s.record.encodeThrough source s.record.send.cdrLen
  ({ s with record := encoded.1 }, if encoded.2 then .stopped else .failed)

/-- `large_send_batch()`, and the cursor behind what went. -/
def sendBatch (s : Sending) (units : List Nat) : Sending × Bool :=
  let went := (net.sent s.calls units.length).getD units.length
  ({ s with
    record := { s.record with handed := s.record.handed ++ s.record.hand s.nextDest s.nextIndex (units.take went) }
    nextIndex := s.nextIndex + (units.take went).sum
    calls := s.calls + 1 }, went = units.length)

/-- The loop of `large_send_mtu()` and `large_send_runs()`, for as many calls as units are left at most. -/
def sendTo (dest : Dest) : Nat → Sending → Sending × Went
  | 0, s => (s, .done)
  | fuel + 1, s =>
    if s.record.count ≤ s.nextIndex then (s, .done)
    else
      let fit := net.fit s.calls (dest.want s.record.count s.nextIndex)
      if fit = 0 then { s with calls := s.calls + 1 }.stop source
      else
        let units := dest.units s.record.count s.nextIndex fit
        let encoded := s.record.encodeThrough source (s.record.endOf (s.nextIndex + units.sum - 1))
        if encoded.2 = false then ({ s with record := encoded.1 }, .failed)
        else
          let sent := { s with record := encoded.1 }.sendBatch net units
          if sent.2 then sendTo dest fuel sent.1 else sent.1.stop source

/-- The destination has all of it: on to the next. -/
def nextDestination (s : Sending) : Sending := { s with nextDest := s.nextDest + 1, nextIndex := 0 }

/-- The sample's descriptor, taken by the destination. -/
def handRef (s : Sending) : Sending :=
  { s with record := { s.record with
      handed := s.record.handed ++ [⟨s.nextDest, 0, s.record.count, s.record.buffer⟩] } }

/-- `large_send_some()`, to the destinations from the cursor's on. -/
def sendSome : List Dest → Sending → Sending × Went
  | [], s => (s, .done)
  | dest :: dests, s =>
    let encoded := s.record.encodeThrough source s.record.send.cdrLen
    let refs := s.nextIndex = 0 ∧ s.record.chunk ∧ dest.takesRef
    if refs ∧ encoded.2 = false then ({ s with record := encoded.1 }, .failed)
    else if refs ∧ net.ref s.calls then
      sendSome dests { s with record := encoded.1, calls := s.calls + 1 }.handRef.nextDestination
    else
      let s := if refs then { s with record := encoded.1, calls := s.calls + 1 } else s
      let sent := s.sendTo net source dest s.record.count
      match sent.2 with
      | .done => sendSome dests sent.1.nextDestination
      | _ => sent

end Sending

/-! ## Where the units lie -/

namespace LargeSend

variable {send : LargeSend}

theorem largeContPayload_pos : 0 < send.largeContPayload := by
  have framed := send.framed
  unfold largeContPayload
  unfold largeFramingMax fragFramingLength fragFirstLHeader at framed
  unfold fragFramingLength fragContLHeader
  omega

theorem count_pos : 0 < send.count := by
  unfold count
  split
  · exact Nat.one_pos
  · exact Nat.lt_of_lt_of_le Nat.one_pos (Nat.le_add_right 1 _)

theorem largeOffset_succ (index : Nat) : send.largeOffset (index + 1) = send.largeFirstPayload + index * send.largeContPayload := by
  rw [largeOffset, if_neg (Nat.succ_ne_zero index), Nat.add_sub_cancel]

theorem largeOffset_mono {i j : Nat} (le : i ≤ j) : send.largeOffset i ≤ send.largeOffset j := by
  cases i with
  | zero => exact Nat.zero_le _
  | succ i =>
    cases j with
    | zero => omega
    | succ j =>
      rw [largeOffset_succ, largeOffset_succ]
      exact Nat.add_le_add_left (Nat.mul_le_mul_right _ (by omega)) _

/-- A unit ends where the next begins. -/
theorem end_eq_next {index : Nat} (more : index + 1 < send.count) :
    send.largeOffset index + send.largeLength index = send.largeOffset (index + 1) := by
  rw [largeLength_full more, largeOffset_succ]
  cases index with
  | zero => simp [largeOffset]
  | succ index =>
    rw [largeOffset_succ, if_neg (Nat.succ_ne_zero index), Nat.add_mul]
    omega

/-- The last unit begins inside the CDR, and is all that is left of it. -/
theorem last_spec : send.largeOffset (send.count - 1) ≤ send.cdrLen ∧
    send.largeOffset (send.count - 1) + send.largeLength (send.count - 1) = send.cdrLen := by
  have positive := @largeContPayload_pos send
  by_cases short : send.cdrLen ≤ send.largeFirstPayload
  · have one : send.count = 1 := by rw [count, if_pos short]
    rw [one]
    simp only [largeLength, largeOffset, Nat.sub_self, if_true]
    split <;> omega
  · generalize hn : (send.cdrLen - send.largeFirstPayload + send.largeContPayload - 1) / send.largeContPayload = n
    have more : send.count - 1 = n := by
      rw [count, if_neg short, hn]
      omega
    have low := Nat.div_mul_le_self (send.cdrLen - send.largeFirstPayload + send.largeContPayload - 1) send.largeContPayload
    have high := Nat.lt_div_mul_add (a := send.cdrLen - send.largeFirstPayload + send.largeContPayload - 1) positive
    rw [hn] at low high
    rw [more]
    cases n with
    | zero => omega
    | succ m =>
      rw [Nat.add_mul, Nat.one_mul] at low high
      simp only [largeLength, largeOffset_succ, if_neg (Nat.succ_ne_zero m)]
      split <;> omega

theorem largeOffset_le {index : Nat} (inside : index < send.count) : send.largeOffset index ≤ send.cdrLen :=
  Nat.le_trans (largeOffset_mono (by omega)) (@last_spec send).1

theorem end_le {index : Nat} (inside : index < send.count) :
    send.largeOffset index + send.largeLength index ≤ send.cdrLen := by
  have := largeOffset_le inside
  have : send.largeLength index ≤ send.cdrLen - send.largeOffset index := by
    simp only [largeLength]
    split <;> split <;> omega
  omega

end LargeSend

/-! ## What is encoded -/

theorem overwrite_length_of_le {bytes written : List UInt8} {start : Nat} (fits : start + written.length ≤ bytes.length) :
    (overwrite bytes start written).length = bytes.length := by
  simp only [overwrite, List.length_append, List.length_take, List.length_drop]
  omega

/-- What is written lies behind what was there. -/
theorem overwrite_take {bytes written : List UInt8} {start : Nat} (inside : start ≤ bytes.length) :
    (overwrite bytes start written).take (start + written.length) = bytes.take start ++ written := by
  have front : (bytes.take start ++ written).length = start + written.length := by
    rw [List.length_append, List.length_take, Nat.min_eq_left inside]
  unfold overwrite
  rw [List.take_append_of_le_length (by omega), ← front, List.take_length]

namespace LargeTx

variable {record : LargeTx} {source : Option Nat} {end_ : Nat}

theorem image_length (size : record.codec.cdr.length ≤ record.send.cdrLen) : record.image.length = record.send.cdrLen := by
  simp only [image, List.length_append, List.length_replicate]
  omega

/-- The image up to `end_`, from what of the CDR lies before it. -/
theorem image_take (inside : end_ ≤ record.send.cdrLen) :
    record.image.take end_ = record.codec.cdr.take end_ ++
      List.replicate (end_ - min end_ record.codec.cdr.length) 0 := by
  unfold image
  rw [List.take_append, List.take_replicate]
  congr 2
  omega

/-- As far as the record is encoded, its buffer is the image, and so is what was handed over. -/
structure Faithful (record : LargeTx) : Prop where
  size : record.codec.cdr.length ≤ record.send.cdrLen
  length : record.buffer.length = record.send.cdrLen
  within : record.encoded ≤ record.send.cdrLen
  same : record.buffer.take record.encoded = record.image.take record.encoded
  payloads : ∀ h ∈ record.handed, h.payload =
    (record.image.drop (record.send.largeOffset h.first)).take
      (record.endOf (h.first + h.units - 1) - record.send.largeOffset h.first)

/-- The record is encoded, or its publish is on. -/
def Ready (record : LargeTx) (source : Option Nat) : Prop := source = some record.id ∨ record.encoded = record.send.cdrLen

/-- Only the buffer, and how far it is encoded. -/
structure Reencoded (record record' : LargeTx) : Prop where
  id : record'.id = record.id
  seqNo : record'.seqNo = record.seqNo
  send : record'.send = record.send
  retained : record'.retained = record.retained
  sent : record'.sent = record.sent
  chunk : record'.chunk = record.chunk
  codec : record'.codec = record.codec
  dests : record'.dests = record.dests
  handed : record'.handed = record.handed
  whole : record.encoded = record.send.cdrLen → record'.encoded = record.send.cdrLen

theorem Reencoded.refl (record : LargeTx) : Reencoded record record := ⟨rfl, rfl, rfl, rfl, rfl, rfl, rfl, rfl, rfl, fun whole => whole⟩

theorem encodeThrough_reencoded : Reencoded record (record.encodeThrough source end_).1 := by
  unfold encodeThrough
  dsimp only
  split
  · exact .refl record
  · next encodes =>
    have short : record.encoded ≠ record.send.cdrLen := fun whole => encodes (.inr (.inl (Nat.le_of_eq whole.symm)))
    split
    · split
      · exact ⟨rfl, rfl, rfl, rfl, rfl, rfl, rfl, rfl, rfl, fun whole => absurd whole short⟩
      · split
        · exact ⟨rfl, rfl, rfl, rfl, rfl, rfl, rfl, rfl, rfl, fun whole => absurd whole short⟩
        · exact .refl record
    · exact ⟨rfl, rfl, rfl, rfl, rfl, rfl, rfl, rfl, rfl, fun whole => absurd whole short⟩

/-- Written through `end_`, the buffer is the image through `end_`. -/
theorem Faithful.written (faithful : record.Faithful) {buffer : List UInt8} (inside : end_ ≤ record.send.cdrLen)
    (length : buffer.length = record.send.cdrLen) (same : buffer.take end_ = record.image.take end_) :
    Faithful { record with buffer := buffer, encoded := end_ } :=
  ⟨faithful.size, length, inside, same, faithful.payloads⟩

theorem Faithful.encodeThrough (faithful : record.Faithful) : (record.encodeThrough source end_).1.Faithful := by
  have within := faithful.within
  have length := faithful.length
  have size := faithful.size
  unfold LargeTx.encodeThrough
  dsimp only
  split
  · exact faithful
  · next encodes =>
    obtain ⟨_, left, ahead⟩ : source = some record.id ∧ record.encoded < record.send.cdrLen ∧ record.encoded < end_ := by
      simpa only [not_or, not_not, Nat.not_le] using encodes
    generalize hend : min end_ record.send.cdrLen = stop_
    have inside : stop_ ≤ record.send.cdrLen := by omega
    split
    · next behind =>
      split
      · -- the range, and the padding behind the CDR
        generalize hstop : min stop_ record.codec.cdr.length = stop at behind
        have ranged : ((record.codec.cdr.drop record.encoded).take (stop - record.encoded)).length = stop - record.encoded := by
          rw [List.length_take, List.length_drop]
          omega
        have zeros : (List.replicate (stop_ - stop) (0 : UInt8)).length = stop_ - stop := List.length_replicate
        have first : (overwrite record.buffer record.encoded
            ((record.codec.cdr.drop record.encoded).take (stop - record.encoded))).length = record.send.cdrLen := by
          rw [overwrite_length_of_le (by omega), length]
        have upTo := @overwrite_take record.buffer ((record.codec.cdr.drop record.encoded).take (stop - record.encoded))
          record.encoded (by omega)
        rw [ranged, Nat.add_sub_cancel' (by omega), faithful.same, image_take within] at upTo
        refine faithful.written inside (by rw [overwrite_length_of_le (by omega), first]) ?_
        have all := @overwrite_take (overwrite record.buffer record.encoded
          ((record.codec.cdr.drop record.encoded).take (stop - record.encoded))) (List.replicate (stop_ - stop) 0) stop (by omega)
        rw [zeros, Nat.add_sub_cancel' (by omega), upTo] at all
        rw [all, image_take inside, hstop]
        have short : record.encoded - min record.encoded record.codec.cdr.length = 0 := by omega
        have cut : record.codec.cdr.take stop_ = record.codec.cdr.take stop := List.take_eq_take_iff.mpr (by omega)
        rw [short, List.replicate_zero, List.append_nil, cut, ← List.take_add, Nat.add_sub_cancel' (by omega)]
      · split
        · -- all of the CDR, and all of the padding
          have zeros : (List.replicate (record.send.cdrLen - record.codec.cdr.length) (0 : UInt8)).length =
              record.send.cdrLen - record.codec.cdr.length := List.length_replicate
          have first : (overwrite record.buffer 0 record.codec.cdr).length = record.send.cdrLen := by
            rw [overwrite_length_of_le (by omega), length]
          have upTo := @overwrite_take record.buffer record.codec.cdr 0 (Nat.zero_le _)
          rw [Nat.zero_add, List.take_zero, List.nil_append] at upTo
          refine faithful.written (Nat.le_refl _) (by rw [overwrite_length_of_le (by omega), first]) ?_
          have all := @overwrite_take (overwrite record.buffer 0 record.codec.cdr)
            (List.replicate (record.send.cdrLen - record.codec.cdr.length) 0) record.codec.cdr.length (by omega)
          rw [zeros, Nat.add_sub_cancel' size, upTo] at all
          rw [all, image_take (Nat.le_refl _), List.take_of_length_le size, Nat.min_eq_right size]
        · exact faithful
    · next past =>
      -- nothing but padding is left
      have zeros : (List.replicate (stop_ - record.encoded) (0 : UInt8)).length = stop_ - record.encoded :=
        List.length_replicate
      refine faithful.written inside (by rw [overwrite_length_of_le (by omega), length]) ?_
      have all := @overwrite_take record.buffer (List.replicate (stop_ - record.encoded) 0) record.encoded (by omega)
      rw [zeros, Nat.add_sub_cancel' (by omega), faithful.same, image_take within] at all
      rw [all, image_take inside, List.take_of_length_le (by omega), List.take_of_length_le (by omega), List.append_assoc,
        List.replicate_append_replicate]
      congr 2
      omega

/-- A call to encode through `end_` that succeeds has done so. -/
theorem Ready.encoded_ge (ready : record.Ready source) (ok : (record.encodeThrough source end_).2 = true)
    (inside : end_ ≤ record.send.cdrLen) : end_ ≤ (record.encodeThrough source end_).1.encoded := by
  unfold LargeTx.encodeThrough at ok ⊢
  dsimp only at ok ⊢
  split
  · next skips =>
    change end_ ≤ record.encoded
    rcases ready with here | all
    · rcases skips with other | all | behind
      · exact absurd here other
      · omega
      · exact behind
    · omega
  · next goes =>
    rw [if_neg goes] at ok
    split
    · split
      · exact Nat.le_of_eq (Nat.min_eq_left inside).symm
      · split
        · exact inside
        · next behind declined fails =>
          rw [if_pos behind, if_neg declined, if_neg fails] at ok
          cases ok
    · exact Nat.le_of_eq (Nat.min_eq_left inside).symm

/-- What is encoded needs no encoding. -/
theorem encodeThrough_of_whole (whole : record.encoded = record.send.cdrLen) : record.encodeThrough source end_ = (record, true) := by
  unfold encodeThrough
  rw [if_pos (.inr (.inl (Nat.le_of_eq whole.symm)))]

/-- A record that is not encoded yet, of a sample that `data_encode()` fails on. -/
def Fails (record : LargeTx) : Prop := record.codec.whole = false ∧ record.encoded ≠ record.send.cdrLen

/-- Encoding fails only with `data_encode()`. -/
theorem encodeThrough_fails (fails : (record.encodeThrough source end_).2 = false) : record.Fails := by
  constructor
  · unfold encodeThrough at fails
    cases whole : record.codec.whole with
    | false => rfl
    | true =>
      simp only [whole, if_true] at fails
      split at fails
      · cases fails
      · split at fails
        · split at fails
          · cases fails
          · cases fails
        · cases fails
  · intro whole
    rw [encodeThrough_of_whole whole] at fails
    cases fails

theorem Ready.encodeThrough (ready : record.Ready source) :
    (record.encodeThrough source end_).1.Ready source := by
  have frame := @encodeThrough_reencoded record source end_
  rcases ready with here | all
  · exact .inl (by rw [frame.id]; exact here)
  · refine .inr ?_
    rw [encodeThrough_of_whole all]
    exact all

end LargeTx

/-! ## What has been handed over -/

/-- The units handed to a destination, in their order. -/
def unitsTo (dest : Nat) (handed : List Handed) : List Nat :=
  handed.flatMap fun h => if h.dest = dest then List.range' h.first h.units else []

theorem unitsTo_append (dest : Nat) (a b : List Handed) : unitsTo dest (a ++ b) = unitsTo dest a ++ unitsTo dest b :=
  List.flatMap_append

/-- The destinations before the cursor's have every unit, its own those before it, and the others none. -/
def Covers (count nextDest nextIndex : Nat) (handed : List Handed) : Prop :=
  ∀ dest, unitsTo dest handed =
    if dest < nextDest then List.range count else if dest = nextDest then List.range nextIndex else []

theorem unitsTo_hand (record : LargeTx) (dest other first : Nat) (units : List Nat) :
    unitsTo other (record.hand dest first units) = if other = dest then List.range' first units.sum else [] := by
  induction units generalizing first with
  | nil => simp [LargeTx.hand, unitsTo]
  | cons n units ih =>
    rw [LargeTx.hand, unitsTo, List.flatMap_cons]
    have rest := ih (first + n)
    rw [unitsTo] at rest
    rw [rest, List.sum_cons]
    by_cases same : other = dest
    · subst same
      simp only [if_true]
      exact List.range'_append_1
    · rw [if_neg same, if_neg same, if_neg (Ne.symm same)]
      rfl

theorem Covers.batch {count nextDest nextIndex : Nat} {handed : List Handed} (covers : Covers count nextDest nextIndex handed)
    (record : LargeTx) (units : List Nat) :
    Covers count nextDest (nextIndex + units.sum) (handed ++ record.hand nextDest nextIndex units) := by
  intro dest
  rw [unitsTo_append, covers dest, unitsTo_hand]
  by_cases before : dest < nextDest
  · rw [if_pos before, if_pos before, if_neg (by omega), List.append_nil]
  · by_cases own : dest = nextDest
    · rw [if_neg before, if_neg before, if_pos own, if_pos own, if_pos own, List.range_eq_range', List.range_eq_range']
      have joined := @List.range'_append_1 0 nextIndex units.sum
      rwa [Nat.zero_add] at joined
    · rw [if_neg before, if_neg before, if_neg own, if_neg own, if_neg own]
      rfl

theorem Covers.next {count nextDest : Nat} {handed : List Handed} (covers : Covers count nextDest count handed) :
    Covers count (nextDest + 1) 0 handed := by
  intro dest
  rw [covers dest]
  by_cases before : dest < nextDest
  · rw [if_pos before, if_pos (by omega)]
  · by_cases own : dest = nextDest
    · rw [if_neg before, if_pos own, if_pos (by omega)]
    · rw [if_neg before, if_neg own, if_neg (by omega)]
      split
      · rfl
      · rfl

/-! ## The units of a call -/

namespace Dest

variable {dest : Dest} {count next fit : Nat}

theorem runUntil_le (dest : Dest) (count : Nat) : dest.runUntil count ≤ count - 1 := by
  unfold runUntil
  split
  · exact Nat.zero_le _
  · split <;> omega

theorem buildRuns_spec {runN runUntil last maxUnits : Nat} (runs : 2 ≤ runN) (until_ : runUntil ≤ last) (k callUnits : Nat)
    (within : next ≤ last) :
    (∀ n ∈ buildRuns runN runUntil last maxUnits k callUnits next, 0 < n) ∧
      next + (buildRuns runN runUntil last maxUnits k callUnits next).sum ≤ last := by
  induction k generalizing callUnits next with
  | zero => simpa [buildRuns] using within
  | succ k ih =>
    rw [buildRuns]
    split
    · next more =>
      dsimp only
      generalize hrun : (if runUntil ≤ next then 1 else min (runUntil - next) runN) = run
      have some_ : 0 < run ∧ next + run ≤ last := by
        rw [← hrun]
        split <;> omega
      obtain ⟨each, total⟩ := @ih (next + run) (callUnits + run) some_.2
      refine ⟨?_, by rw [List.sum_cons]; omega⟩
      intro n mem
      rcases List.mem_cons.mp mem with rfl | mem
      · exact some_.1
      · exact each n mem
    · simpa using within

/-- A call carries at least one unit, and none past the last. -/
theorem units_spec (more : next < count) (some_ : 0 < fit) (granted : fit ≤ dest.want count next) :
    dest.units count next fit ≠ [] ∧ (∀ n ∈ dest.units count next fit, 0 < n) ∧
      next + (dest.units count next fit).sum ≤ count := by
  unfold units
  unfold want at granted
  by_cases runs : 2 ≤ dest.runN
  · rw [if_pos runs]
    rw [if_pos runs] at granted
    by_cases last : next = count - 1
    · rw [if_pos last]
      refine ⟨by simp, by simp, ?_⟩
      simp only [List.sum_cons, List.sum_nil]
      omega
    · rw [if_neg last]
      obtain ⟨each, total⟩ := @buildRuns_spec next dest.runN (dest.runUntil count) (count - 1) fit runs (runUntil_le dest count)
        LargeSend.largeBatch 0 (by omega)
      refine ⟨?_, each, by omega⟩
      rw [LargeSend.largeBatch, buildRuns, if_pos ⟨some_, by omega⟩]
      simp
  · rw [if_neg runs]
    rw [if_neg runs] at granted
    refine ⟨?_, ?_, ?_⟩
    · simp only [ne_eq, List.replicate_eq_nil_iff]
      omega
    · intro n mem
      rw [List.eq_of_mem_replicate mem]
      exact Nat.one_pos
    · rw [List.sum_replicate, smul_eq_mul, Nat.mul_one]
      omega

end Dest

/-! ## What a send leaves -/

namespace LargeTx

variable {record record' : LargeTx}

theorem endOf_mono {i j : Nat} (le : i ≤ j) (inside : j < record.count) : record.endOf i ≤ record.endOf j := by
  rcases Nat.eq_or_lt_of_le le with rfl | lt
  · exact Nat.le_refl _
  · have next := @LargeSend.end_eq_next record.send i (by unfold count at inside; omega)
    have later := @LargeSend.largeOffset_mono record.send (i + 1) j lt
    unfold endOf
    omega

theorem endOf_last : record.endOf (record.count - 1) = record.send.cdrLen := LargeSend.last_spec.2

/-- What is read of the buffer as far as it is encoded is the image. -/
theorem Faithful.slice (faithful : record.Faithful) {start stop : Nat} (encoded : stop ≤ record.encoded) :
    (record.buffer.drop start).take (stop - start) = (record.image.drop start).take (stop - start) := by
  have same : record.buffer.take stop = record.image.take stop := by
    have cut := congrArg (List.take stop) faithful.same
    rwa [List.take_take, List.take_take, Nat.min_eq_left encoded] at cut
  rw [← List.drop_take, ← List.drop_take, same]

theorem Faithful.hand (faithful : record.Faithful) {dest first : Nat} {units : List Nat} (each : ∀ n ∈ units, 0 < n)
    (inside : first + units.sum ≤ record.count) (encoded : units ≠ [] → record.endOf (first + units.sum - 1) ≤ record.encoded) :
    ∀ h ∈ record.hand dest first units, h.payload =
      (record.image.drop (record.send.largeOffset h.first)).take
        (record.endOf (h.first + h.units - 1) - record.send.largeOffset h.first) := by
  induction units generalizing first with
  | nil => simp [LargeTx.hand]
  | cons n units ih =>
    have own := each n (List.mem_cons_self ..)
    have through := encoded (by simp)
    rw [List.sum_cons] at inside through
    intro h mem
    rw [LargeTx.hand] at mem
    rcases List.mem_cons.mp mem with rfl | mem
    · exact faithful.slice (Nat.le_trans (endOf_mono (by omega) (by omega)) through)
    · refine ih (fun m mem => each m (List.mem_cons_of_mem _ mem)) (by omega) (fun _ => ?_) h mem
      have regroup : first + n + units.sum - 1 = first + (n + units.sum) - 1 := by omega
      rw [regroup]
      exact through

/-- The same record, whatever of it has been encoded and handed over. -/
structure Same (record record' : LargeTx) : Prop where
  id : record'.id = record.id
  seqNo : record'.seqNo = record.seqNo
  send : record'.send = record.send
  retained : record'.retained = record.retained
  sent : record'.sent = record.sent
  chunk : record'.chunk = record.chunk
  codec : record'.codec = record.codec
  dests : record'.dests = record.dests
  whole : record.encoded = record.send.cdrLen → record'.encoded = record.send.cdrLen

theorem Same.refl (record : LargeTx) : Same record record := ⟨rfl, rfl, rfl, rfl, rfl, rfl, rfl, rfl, fun whole => whole⟩

theorem Same.trans {record'' : LargeTx} (h : Same record record') (h' : Same record' record'') : Same record record'' :=
  ⟨h'.id.trans h.id, h'.seqNo.trans h.seqNo, h'.send.trans h.send, h'.retained.trans h.retained, h'.sent.trans h.sent,
    h'.chunk.trans h.chunk, h'.codec.trans h.codec, h'.dests.trans h.dests, fun whole => by
      rw [← h.send]
      exact h'.whole (by rw [h.send]; exact h.whole whole)⟩

theorem Same.fails (h : Same record record') (fails : record'.Fails) : record.Fails :=
  ⟨by rw [← h.codec]; exact fails.1, fun whole => fails.2 (by rw [h.send]; exact h.whole whole)⟩

theorem Reencoded.same (h : Reencoded record record') : Same record record' :=
  ⟨h.id, h.seqNo, h.send, h.retained, h.sent, h.chunk, h.codec, h.dests, h.whole⟩

end LargeTx

namespace Sending

variable {net : Net} {source : Option Nat} {s : Sending}

/-- The record is faithful, the cursor stands behind what was handed over, and all of that was encoded. -/
structure Good (source : Option Nat) (s : Sending) : Prop where
  faithful : s.record.Faithful
  ready : s.record.Ready source
  covers : Covers s.record.count s.nextDest s.nextIndex s.record.handed
  within : s.nextIndex ≤ s.record.count
  reached : 0 < s.nextIndex → s.record.endOf (s.nextIndex - 1) ≤ s.record.encoded

/-- Encoding keeps it. -/
theorem Good.encode (good : s.Good source) (end_ : Nat) (calls : Nat) :
    Good source { s with record := (s.record.encodeThrough source end_).1, calls := calls } := by
  have frame := @LargeTx.encodeThrough_reencoded s.record source end_
  have grows : s.record.encoded ≤ (s.record.encodeThrough source end_).1.encoded := by
    have within := good.faithful.within
    unfold LargeTx.encodeThrough
    dsimp only
    split
    · exact Nat.le_refl _
    · next goes =>
      rw [not_or, not_or] at goes
      split
      · split
        · dsimp only
          omega
        · split
          · exact within
          · exact Nat.le_refl _
      · dsimp only
        omega
  refine ⟨good.faithful.encodeThrough, good.ready.encodeThrough, ?_, ?_, ?_⟩
  · dsimp only
    rw [LargeTx.count, frame.send, frame.handed]
    exact good.covers
  · dsimp only
    rw [LargeTx.count, frame.send]
    exact good.within
  · intro some_
    have := good.reached some_
    dsimp only
    rw [LargeTx.endOf, frame.send]
    exact Nat.le_trans this grows

/-- What a stop leaves: the record whole, or a sample that could not be encoded. -/
theorem Good.stop (good : s.Good source) : (s.stop source).1.Good source ∧ LargeTx.Same s.record (s.stop source).1.record ∧
    (s.stop source).1.nextDest = s.nextDest ∧ (s.stop source).1.nextIndex = s.nextIndex ∧
    ((s.stop source).2 = .stopped ∧ (s.stop source).1.record.encoded = s.record.send.cdrLen ∨
      (s.stop source).2 = .failed ∧ s.record.Fails) := by
  refine ⟨good.encode _ s.calls, LargeTx.encodeThrough_reencoded.same, rfl, rfl, ?_⟩
  unfold Sending.stop
  dsimp only
  cases ok : (s.record.encodeThrough source s.record.send.cdrLen).2 with
  | true =>
    have through := good.ready.encoded_ge ok (Nat.le_refl _)
    have within := (@LargeTx.Faithful.encodeThrough s.record source s.record.send.cdrLen good.faithful).within
    rw [(@LargeTx.encodeThrough_reencoded s.record source s.record.send.cdrLen).send] at within
    exact .inl ⟨rfl, Nat.le_antisymm within through⟩
  | false => exact .inr ⟨rfl, LargeTx.encodeThrough_fails ok⟩

/-- A batch whose units are encoded: what went of it is behind the cursor. -/
theorem Good.batch (good : s.Good source) {units : List Nat} (each : ∀ n ∈ units, 0 < n)
    (inside : s.nextIndex + units.sum ≤ s.record.count)
    (encoded : s.record.endOf (s.nextIndex + units.sum - 1) ≤ s.record.encoded) :
    (s.sendBatch net units).1.Good source := by
  generalize hwent : (net.sent s.calls units.length).getD units.length = went
  have part : ∀ n ∈ units.take went, 0 < n := fun n mem => each n (List.mem_of_mem_take mem)
  have less : (units.take went).sum ≤ units.sum := (List.take_sublist went units).sum_le_sum fun _ _ => Nat.zero_le _
  have through : units.take went ≠ [] → s.record.endOf (s.nextIndex + (units.take went).sum - 1) ≤ s.record.encoded := by
    intro some_
    obtain ⟨n, rest, split⟩ := List.exists_cons_of_ne_nil some_
    have first := part n (by rw [split]; exact List.mem_cons_self ..)
    have total : (units.take went).sum = n + rest.sum := by rw [split, List.sum_cons]
    exact Nat.le_trans (LargeTx.endOf_mono (by omega) (by omega)) encoded
  unfold sendBatch
  dsimp only
  rw [hwent]
  refine ⟨⟨good.faithful.size, good.faithful.length, good.faithful.within, good.faithful.same, ?_⟩, good.ready, ?_, ?_, ?_⟩
  · intro h mem
    rcases List.mem_append.mp mem with mem | mem
    · exact good.faithful.payloads h mem
    · exact good.faithful.hand part (by omega) through h mem
  · exact good.covers.batch s.record _
  · change s.nextIndex + (units.take went).sum ≤ s.record.count
    omega
  · intro some_
    by_cases none_ : units.take went = []
    · have : (units.take went).sum = 0 := by rw [none_, List.sum_nil]
      dsimp only at some_ ⊢
      rw [this, Nat.add_zero] at some_ ⊢
      exact good.reached some_
    · exact through none_

/-- What a send to a destination leaves: it has every unit, or the send stopped with the record whole, or its sample could not be
encoded. -/
structure Leaves (source : Option Nat) (s : Sending) (left : Sending × Went) : Prop where
  good : left.1.Good source
  same : LargeTx.Same s.record left.1.record
  done : left.2 = .done → left.1.nextIndex = s.record.count
  stopped : left.2 = .stopped → left.1.record.encoded = s.record.send.cdrLen ∧ left.1.nextIndex < s.record.count
  failed : left.2 = .failed → s.record.Fails

theorem Good.stop_leaves (good : s.Good source) (more : s.nextIndex < s.record.count) : Leaves source s (s.stop source) := by
  obtain ⟨good', same, _, index, how⟩ := good.stop
  refine ⟨good', same, ?_, ?_, ?_⟩
  · intro done
    rcases how with ⟨h, _⟩ | ⟨h, _⟩ <;> rw [h] at done <;> cases done
  · intro stopped
    rcases how with ⟨_, whole⟩ | ⟨h, _⟩
    · exact ⟨whole, by rw [index]; exact more⟩
    · rw [h] at stopped
      cases stopped
  · intro failed
    rcases how with ⟨h, _⟩ | ⟨_, whole⟩
    · rw [h] at failed
      cases failed
    · exact whole

theorem Leaves.trans {s' : Sending} {left : Sending × Went} (same : LargeTx.Same s.record s'.record) (h : Leaves source s' left) :
    Leaves source s left := by
  have count : s'.record.count = s.record.count := by rw [LargeTx.count, same.send, LargeTx.count]
  refine ⟨h.good, same.trans h.same, ?_, ?_, ?_⟩
  · intro done
    rw [h.done done, count]
  · intro stopped
    obtain ⟨whole, short⟩ := h.stopped stopped
    exact ⟨by rw [whole, same.send], by omega⟩
  · intro failed
    exact same.fails (h.failed failed)

theorem sendBatch_moves {units : List Nat} (some_ : units ≠ []) (each : ∀ n ∈ units, 0 < n)
    (all : (s.sendBatch net units).2 = true) : s.nextIndex < (s.sendBatch net units).1.nextIndex := by
  unfold sendBatch at all ⊢
  dsimp only at all ⊢
  rw [decide_eq_true_eq] at all
  rw [all, List.take_length]
  obtain ⟨n, rest, rfl⟩ := List.exists_cons_of_ne_nil some_
  have := each n (List.mem_cons_self ..)
  rw [List.sum_cons]
  omega

theorem sendBatch_short {units : List Nat} (each : ∀ n ∈ units, 0 < n) (all : (s.sendBatch net units).2 = false) :
    (s.sendBatch net units).1.nextIndex < s.nextIndex + units.sum := by
  have most : (net.sent s.calls units.length).getD units.length ≤ units.length := by
    cases found : net.sent s.calls units.length with
    | none => exact Nat.le_refl _
    | some k => exact net.sent_le _ _ _ found
  unfold sendBatch at all ⊢
  dsimp only at all ⊢
  rw [decide_eq_false_iff_not] at all
  generalize (net.sent s.calls units.length).getD units.length = went at *
  have split := congrArg List.sum (List.take_append_drop went units)
  rw [List.sum_append] at split
  obtain ⟨n, rest, left⟩ := List.exists_cons_of_ne_nil (l := units.drop went) fun none_ => by
    have := congrArg List.length none_
    rw [List.length_drop, List.length_nil] at this
    omega
  have := each n (List.mem_of_mem_drop (i := went) (by rw [left]; exact List.mem_cons_self ..))
  rw [left, List.sum_cons] at split
  omega

theorem sendTo_leaves (dest : Dest) {fuel : Nat} (good : s.Good source) (enough : s.record.count ≤ s.nextIndex + fuel) :
    Leaves source s (s.sendTo net source dest fuel) ∧ (s.sendTo net source dest fuel).1.nextDest = s.nextDest := by
  induction fuel generalizing s with
  | zero => exact ⟨⟨good, .refl _, fun _ => Nat.le_antisymm good.within enough, nofun, nofun⟩, rfl⟩
  | succ fuel ih =>
    rw [sendTo]
    by_cases all : s.record.count ≤ s.nextIndex
    · rw [if_pos all]
      exact ⟨⟨good, .refl _, fun _ => Nat.le_antisymm good.within all, nofun, nofun⟩, rfl⟩
    rw [if_neg all]
    have more := Nat.lt_of_not_le all
    dsimp only
    by_cases paced : net.fit s.calls (dest.want s.record.count s.nextIndex) = 0
    · rw [if_pos paced]
      have again : Good source { s with calls := s.calls + 1 } := ⟨good.faithful, good.ready, good.covers, good.within, good.reached⟩
      have frame : LargeTx.Same s.record { s with calls := s.calls + 1 }.record := .refl _
      exact ⟨@Leaves.trans source s { s with calls := s.calls + 1 } _ frame (again.stop_leaves more), rfl⟩
    rw [if_neg paced]
    obtain ⟨some_, each, inside⟩ := Dest.units_spec more (Nat.pos_of_ne_zero paced) (net.fit_le _ _)
    generalize dest.units s.record.count s.nextIndex (net.fit s.calls (dest.want s.record.count s.nextIndex)) = units at *
    have last : s.nextIndex + units.sum - 1 < s.record.count := by omega
    have frame := @LargeTx.encodeThrough_reencoded s.record source (s.record.endOf (s.nextIndex + units.sum - 1))
    have encodes := good.encode (s.record.endOf (s.nextIndex + units.sum - 1)) s.calls
    cases ok : (s.record.encodeThrough source (s.record.endOf (s.nextIndex + units.sum - 1))).2 with
    | false =>
      rw [if_pos rfl]
      exact ⟨⟨encodes, frame.same, nofun, nofun, fun _ => LargeTx.encodeThrough_fails ok⟩, rfl⟩
    | true =>
      rw [if_neg (by simp)]
      have through := good.ready.encoded_ge ok (LargeSend.end_le last)
      generalize (s.record.encodeThrough source (s.record.endOf (s.nextIndex + units.sum - 1))).1 = record at *
      have count : record.count = s.record.count := by rw [LargeTx.count, frame.send, LargeTx.count]
      have endOf : record.endOf = s.record.endOf := by
        funext i
        rw [LargeTx.endOf, frame.send, LargeTx.endOf]
      have sent := @Good.batch net source { s with record := record } encodes units each (by dsimp only; omega)
        (by dsimp only; rw [endOf]; exact through)
      have same : LargeTx.Same s.record ({ s with record := record }.sendBatch net units).1.record :=
        frame.same.trans ⟨rfl, rfl, rfl, rfl, rfl, rfl, rfl, rfl, fun whole => whole⟩
      have counts : ({ s with record := record }.sendBatch net units).1.record.count = s.record.count := by
        rw [LargeTx.count, same.send, LargeTx.count]
      cases went : ({ s with record := record }.sendBatch net units).2 with
      | true =>
        rw [if_pos rfl]
        have moves := sendBatch_moves some_ each went
        obtain ⟨leaves, dest_⟩ := @ih ({ s with record := record }.sendBatch net units).1 sent (by
          dsimp only at moves
          omega)
        exact ⟨leaves.trans same, dest_⟩
      | false =>
        rw [if_neg (by simp)]
        have short := sendBatch_short each went
        dsimp only at short
        exact ⟨(sent.stop_leaves (by omega)).trans same, rfl⟩

/-- A record that is encoded hands over what a destination by descriptor takes. -/
theorem Good.handRef (good : s.Good source) (whole : s.record.encoded = s.record.send.cdrLen) (fresh : s.nextIndex = 0) :
    s.handRef.nextDestination.Good source := by
  have count := @LargeSend.count_pos s.record.send
  have all : s.record.buffer = s.record.image := by
    have same := good.faithful.same
    rwa [whole, List.take_of_length_le (Nat.le_of_eq good.faithful.length),
      List.take_of_length_le (Nat.le_of_eq (LargeTx.image_length good.faithful.size))] at same
  refine ⟨⟨good.faithful.size, good.faithful.length, good.faithful.within, good.faithful.same, ?_⟩, good.ready, ?_,
    Nat.zero_le _, nofun⟩
  · intro h mem
    rcases List.mem_append.mp mem with mem | mem
    · exact good.faithful.payloads h mem
    · rw [List.mem_singleton.mp mem]
      dsimp only
      have last : s.record.endOf (0 + s.record.count - 1) - s.record.send.largeOffset 0 = s.record.send.cdrLen := by
        rw [Nat.zero_add, LargeTx.endOf_last]
        rfl
      change s.record.buffer = (s.record.image.drop (s.record.send.largeOffset 0)).take
        (s.record.endOf (0 + s.record.count - 1) - s.record.send.largeOffset 0)
      rw [last, all]
      exact (List.take_of_length_le (Nat.le_of_eq (LargeTx.image_length good.faithful.size))).symm
  · intro dest
    have covers := good.covers dest
    rw [fresh] at covers
    change unitsTo dest (s.record.handed ++ [⟨s.nextDest, 0, s.record.count, s.record.buffer⟩]) =
      if dest < s.nextDest + 1 then List.range s.record.count else if dest = s.nextDest + 1 then List.range 0 else []
    rw [unitsTo_append, covers]
    by_cases before : dest < s.nextDest
    · simp [unitsTo, before, Nat.lt_succ_of_lt before, Nat.ne_of_gt before]
    · by_cases own : dest = s.nextDest
      · subst own
        simp [unitsTo, List.range_eq_range']
      · have past : ¬ dest < s.nextDest + 1 := by omega
        simp [unitsTo, before, own, past, Ne.symm own]

/-- What a send over destinations leaves. -/
structure Passes (source : Option Nat) (s : Sending) (dests : List Dest) (left : Sending × Went) : Prop where
  good : left.1.Good source
  same : LargeTx.Same s.record left.1.record
  done : left.2 = .done → left.1.nextDest = s.nextDest + dests.length ∧
    (dests ≠ [] → left.1.nextIndex = 0 ∧ left.1.record.encoded = s.record.send.cdrLen) ∧
    (dests = [] → left.1.nextIndex = s.nextIndex ∧ left.1.record = s.record)
  stopped : left.2 = .stopped → left.1.record.encoded = s.record.send.cdrLen ∧ left.1.nextDest < s.nextDest + dests.length
  failed : left.2 = .failed → s.record.Fails

theorem Good.nextDestination (good : s.Good source) (all : s.nextIndex = s.record.count) :
    s.nextDestination.Good source ∧ s.nextDestination.record.encoded = s.record.send.cdrLen := by
  have some_ : 0 < s.nextIndex := by
    rw [all]
    exact LargeSend.count_pos
  have covers := good.covers
  have reached := good.reached some_
  rw [all] at covers reached
  rw [LargeTx.endOf_last] at reached
  exact ⟨⟨good.faithful, good.ready, covers.next, Nat.zero_le _, nofun⟩, Nat.le_antisymm good.faithful.within reached⟩

/-- Behind a destination that has all of it. -/
theorem Passes.cons {s' : Sending} {dest : Dest} {dests : List Dest} {left : Sending × Went}
    (same : LargeTx.Same s.record s'.record) (next : s'.nextDest = s.nextDest + 1) (index : s'.nextIndex = 0)
    (whole : s'.record.encoded = s.record.send.cdrLen) (h : Passes source s' dests left) :
    Passes source s (dest :: dests) left := by
  refine ⟨h.good, same.trans h.same, ?_, ?_, ?_⟩
  · intro done
    obtain ⟨reached, some_, none_⟩ := h.done done
    refine ⟨by rw [reached, next, List.length_cons]; omega, fun _ => ?_, nofun⟩
    by_cases more : dests = []
    · obtain ⟨index', record⟩ := none_ more
      exact ⟨by rw [index', index], by rw [record, whole]⟩
    · obtain ⟨index', encoded⟩ := some_ more
      exact ⟨index', by rw [encoded, same.send]⟩
  · intro stopped
    obtain ⟨encoded, short⟩ := h.stopped stopped
    refine ⟨by rw [encoded, same.send], ?_⟩
    rw [List.length_cons]
    omega
  · intro failed
    exact same.fails (h.failed failed)

/-- A step that keeps the record and the cursor first. -/
theorem Passes.behind {s' : Sending} {dest : Dest} {dests : List Dest} {left : Sending × Went}
    (same : LargeTx.Same s.record s'.record) (next : s'.nextDest = s.nextDest) (h : Passes source s' (dest :: dests) left) :
    Passes source s (dest :: dests) left := by
  refine ⟨h.good, same.trans h.same, ?_, ?_, ?_⟩
  · intro done
    obtain ⟨reached, some_, _⟩ := h.done done
    obtain ⟨index, encoded⟩ := some_ nofun
    exact ⟨by rw [reached, next], fun _ => ⟨index, by rw [encoded, same.send]⟩, nofun⟩
  · intro stopped
    obtain ⟨encoded, short⟩ := h.stopped stopped
    exact ⟨by rw [encoded, same.send], by omega⟩
  · intro failed
    exact same.fails (h.failed failed)

/-- By datagrams to one destination, and then over the others. -/
theorem sendTo_passes (dest : Dest) (dests : List Dest) (good : s.Good source)
    (over_ : ∀ {s' : Sending}, s'.Good source → Passes source s' dests (s'.sendSome net source dests)) {left : Sending × Went}
    (done : (s.sendTo net source dest s.record.count).2 = .done →
      left = (s.sendTo net source dest s.record.count).1.nextDestination.sendSome net source dests)
    (otherwise : (s.sendTo net source dest s.record.count).2 ≠ .done → left = s.sendTo net source dest s.record.count) :
    Passes source s (dest :: dests) left := by
  obtain ⟨leaves, same_dest⟩ := @sendTo_leaves net source s dest s.record.count good (Nat.le_add_left _ _)
  generalize s.sendTo net source dest s.record.count = sent at *
  have count : sent.1.record.count = s.record.count := by rw [LargeTx.count, leaves.same.send, LargeTx.count]
  cases went : sent.2 with
  | done =>
    rw [done went]
    obtain ⟨next, whole⟩ := leaves.good.nextDestination (by rw [leaves.done went, count])
    rw [leaves.same.send] at whole
    exact @Passes.cons source s sent.1.nextDestination dest dests _ leaves.same (by rw [← same_dest]; rfl) rfl whole (over_ next)
  | stopped =>
    rw [otherwise (by rw [went]; nofun)]
    obtain ⟨whole, _⟩ := leaves.stopped went
    refine ⟨leaves.good, leaves.same, ?_, fun _ => ⟨whole, ?_⟩, ?_⟩
    · intro h
      rw [went] at h
      cases h
    · rw [same_dest, List.length_cons]
      omega
    · intro h
      rw [went] at h
      cases h
  | failed =>
    rw [otherwise (by rw [went]; nofun)]
    refine ⟨leaves.good, leaves.same, ?_, ?_, fun _ => leaves.failed went⟩
    · intro h
      rw [went] at h
      cases h
    · intro h
      rw [went] at h
      cases h

theorem sendSome_passes (dests : List Dest) (good : s.Good source) : Passes source s dests (s.sendSome net source dests) := by
  induction dests generalizing s with
  | nil => exact ⟨good, .refl _, fun _ => ⟨rfl, fun h => absurd rfl h, fun _ => ⟨rfl, rfl⟩⟩, nofun, nofun⟩
  | cons dest dests ih =>
    rw [sendSome]
    dsimp only
    have frame := @LargeTx.encodeThrough_reencoded s.record source s.record.send.cdrLen
    have encodes := good.encode s.record.send.cdrLen
    by_cases refs : s.nextIndex = 0 ∧ s.record.chunk = true ∧ dest.takesRef = true
    · cases ok : (s.record.encodeThrough source s.record.send.cdrLen).2 with
      | false =>
        rw [if_pos ⟨refs, rfl⟩]
        exact ⟨encodes s.calls, frame.same, nofun, nofun, fun _ => LargeTx.encodeThrough_fails ok⟩
      | true =>
        rw [if_neg (by simp)]
        have through := good.ready.encoded_ge ok (Nat.le_refl _)
        have again := encodes (s.calls + 1)
        generalize (s.record.encodeThrough source s.record.send.cdrLen).1 = record at *
        have whole : record.encoded = record.send.cdrLen := Nat.le_antisymm again.faithful.within (by rw [frame.send]; exact through)
        by_cases taken : net.ref s.calls = true
        · rw [if_pos ⟨refs, taken⟩]
          have handed := @Good.handRef source { s with record := record, calls := s.calls + 1 } again whole refs.1
          have same : LargeTx.Same s.record { s with record := record, calls := s.calls + 1 }.handRef.nextDestination.record :=
            frame.same.trans ⟨rfl, rfl, rfl, rfl, rfl, rfl, rfl, rfl, fun whole => whole⟩
          exact (ih handed).cons same rfl rfl (by rw [← frame.send]; exact whole)
        · rw [if_neg (fun h => taken h.2), if_pos refs]
          refine @Passes.behind source s { s with record := record, calls := s.calls + 1 } dest dests _ frame.same rfl
            (sendTo_passes dest dests again ih ?_ ?_)
          · intro done
            rw [done]
          · intro other
            split
            · next done => exact absurd done other
            · rfl
    · rw [if_neg (fun h => refs h.1), if_neg (fun h => refs h.1), if_neg refs]
      refine sendTo_passes dest dests good ih ?_ ?_
      · intro done
        rw [done]
      · intro other
        split
        · next done => exact absurd done other
        · rfl

end Sending

end Tickle
