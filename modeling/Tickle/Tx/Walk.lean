import Tickle.Writer.Record

/-! # A datagram and its walk

A datagram is a header and one submessage after another, or one submessage to everyone in the single
form. The receiver finds the submessages by their length fields alone (`walk`, `processPacket`): what
`frame` puts one behind another it takes apart again, whatever their lengths (`walk_frames`).
-/

namespace Tickle

/-- Of the sending host. The magic tells the receiver. -/
inductive ByteOrder where
  | little | big
  deriving DecidableEq, Repr

/-- `struct tt_SubmessageHeader` and what follows it, padding included. -/
structure Submessage where
  type : UInt8
  receiver : UInt8
  body : List UInt8
  deriving DecidableEq, Repr

/-- `tt_SUBMESSAGE_ID_ALL`. -/
def toAll : UInt8 := 0xff

/-- `tt_VERSION`. -/
def version : UInt8 := 14

/-- `sizeof(struct tt_SubmessageHeader)`. -/
def submessageHeaderLength : Nat := 4

namespace ByteOrder

/-- `tt_Header.magic`: "KT" from a little-endian host, "TK" from a big-endian one. -/
def magic : ByteOrder → List UInt8
  | .little => [0x4b, 0x54]
  | .big => [0x54, 0x4b]

/-- `native_single_marker()`: the magic's first byte in lower case. -/
def marker : ByteOrder → UInt8
  | .little => 0x6b
  | .big => 0x74

/-- A `uint16_t` in memory. -/
def put16 (order : ByteOrder) (n : Nat) : List UInt8 :=
  match order with
  | .little => [UInt8.ofNat n, UInt8.ofNat (n / 256)]
  | .big => [UInt8.ofNat (n / 256), UInt8.ofNat n]

def read16 (order : ByteOrder) (a b : UInt8) : Nat :=
  match order with
  | .little => a.toNat + 256 * b.toNat
  | .big => 256 * a.toNat + b.toNat

end ByteOrder

namespace Submessage

def length (s : Submessage) : Nat := submessageHeaderLength + s.body.length

/-- The submessage as it lies in a datagram. -/
def frame (order : ByteOrder) (s : Submessage) : List UInt8 :=
  s.type :: s.receiver :: (order.put16 s.length ++ s.body)

def frames (order : ByteOrder) (submessages : List Submessage) : List UInt8 :=
  submessages.flatMap (frame order)

end Submessage

/-- The loop of `process_packet()`: the submessages it hands on, `none` where it meets an illegal length.
A rest too short for a header ends it. -/
def walk (order : ByteOrder) : Nat → List UInt8 → Option (List Submessage)
  | 0, _ => some []
  | fuel + 1, type :: receiver :: a :: b :: rest =>
    let length := order.read16 a b
    if length < submessageHeaderLength || rest.length + submessageHeaderLength < length then none
    else
      (walk order fuel (rest.drop (length - submessageHeaderLength))).map
        (⟨type, receiver, rest.take (length - submessageHeaderLength)⟩ :: ·)
  | _ + 1, _ => some []

/-- `process_packet()`: who sent the datagram and the submessages in it. -/
def processPacket (bytes : List UInt8) : Option (UInt8 × List Submessage) :=
  match bytes with
  | first :: second :: third :: fourth :: rest =>
    if first = ByteOrder.marker .little || first = ByteOrder.marker .big then
      -- `read_single_header()`: marker, version, source, type
      if 65535 - submessageHeaderLength < rest.length then none
      else if second ≠ version then none
      else some (third, [⟨fourth, toAll, rest⟩])
    else if third ≠ version then none
    else if [first, second] = ByteOrder.magic .little then
      (walk .little rest.length rest).map (fourth, ·)
    else if [first, second] = ByteOrder.magic .big then
      (walk .big rest.length rest).map (fourth, ·)
    else none
  | _ => none

/-- `struct tt_Header` from this host. -/
def packetHeader (order : ByteOrder) (source : UInt8) : List UInt8 := order.magic ++ [version, source]

/-- The datagram with these submessages in the classic form. -/
def packet (order : ByteOrder) (source : UInt8) (submessages : List Submessage) : List UInt8 :=
  packetHeader order source ++ Submessage.frames order submessages

/-- The datagram with one submessage to everyone in the single form. -/
def singlePacket (order : ByteOrder) (source : UInt8) (s : Submessage) : List UInt8 :=
  [order.marker, version, source, s.type] ++ s.body

/-! ## The walk takes the frames apart -/

theorem ByteOrder.put16_length (order : ByteOrder) (n : Nat) : (order.put16 n).length = 2 := by
  cases order <;> rfl

theorem ByteOrder.read_put16 (order : ByteOrder) {n : Nat} (h : n < 65536) :
    ∃ a b, order.put16 n = [a, b] ∧ order.read16 a b = n := by
  cases order with
  | little =>
    refine ⟨_, _, rfl, ?_⟩
    simp only [ByteOrder.read16, UInt8.toNat_ofNat']
    omega
  | big =>
    refine ⟨_, _, rfl, ?_⟩
    simp only [ByteOrder.read16, UInt8.toNat_ofNat']
    omega

theorem Submessage.frame_length (order : ByteOrder) (s : Submessage) : (s.frame order).length = s.length := by
  simp only [frame, List.length_cons, List.length_append, ByteOrder.put16_length, length,
    submessageHeaderLength]
  omega

variable {order : ByteOrder}

theorem Submessage.frames_append (before after : List Submessage) :
    frames order (before ++ after) = frames order before ++ frames order after := by
  simp [frames]

theorem Submessage.frames_singleton (s : Submessage) : frames order [s] = s.frame order := by
  simp [frames]

/-- One submessage comes off the front, with its own bytes. -/
theorem walk_frame {s : Submessage} (short : s.length < 65536) (fuel : Nat) (rest : List UInt8) :
    walk order (fuel + 1) (s.frame order ++ rest) = (walk order fuel rest).map (s :: ·) := by
  obtain ⟨a, b, hput, hread⟩ := ByteOrder.read_put16 order short
  have split : s.frame order ++ rest = s.type :: s.receiver :: a :: b :: (s.body ++ rest) := by
    simp [Submessage.frame, hput]
  have body : s.length - submessageHeaderLength = s.body.length := by
    simp [Submessage.length]
  have legal : (decide (s.length < submessageHeaderLength) ||
      decide ((s.body ++ rest).length + submessageHeaderLength < s.length)) = false := by
    rw [Submessage.length, List.length_append, Bool.or_eq_false_iff]
    exact ⟨decide_eq_false (by omega), decide_eq_false (by omega)⟩
  rw [split, walk]
  simp only [hread, legal, body, List.drop_left, List.take_left]
  rfl

theorem walk_frames {submessages : List Submessage} (short : ∀ s ∈ submessages, s.length < 65536)
    {fuel : Nat} (enough : submessages.length ≤ fuel) :
    walk order fuel (Submessage.frames order submessages) = some submessages := by
  induction submessages generalizing fuel with
  | nil =>
    cases fuel with
    | zero => rfl
    | succ fuel => rfl
  | cons s rest ih =>
    cases fuel with
    | zero => simp at enough
    | succ fuel =>
      have more := @ih (fun t ht => short t (List.mem_cons_of_mem _ ht)) fuel (by simpa using enough)
      have front : Submessage.frames order (s :: rest) = s.frame order ++ Submessage.frames order rest := by
        simp [Submessage.frames]
      rw [front, walk_frame (short s (List.mem_cons_self ..)), more]
      rfl

theorem Submessage.length_le_frames (order : ByteOrder) (submessages : List Submessage) :
    submessages.length ≤ (frames order submessages).length := by
  induction submessages with
  | nil => simp
  | cons s rest ih =>
    simp only [frames, List.flatMap_cons, List.length_append, List.length_cons] at ih ⊢
    have := Submessage.frame_length order s
    simp only [length, submessageHeaderLength] at this
    omega

/-- A datagram in the classic form is taken apart into what it was put together from. -/
theorem processPacket_packet {submessages : List Submessage}
    (short : ∀ s ∈ submessages, s.length < 65536) (source : UInt8) :
    processPacket (packet order source submessages) = some (source, submessages) := by
  have walked : walk order (Submessage.frames order submessages).length _ = some submessages :=
    walk_frames short (Submessage.length_le_frames order submessages)
  unfold packet packetHeader
  cases order with
  | little =>
    simp only [ByteOrder.magic, List.cons_append, List.nil_append, processPacket]
    rw [if_neg (by decide), if_neg (by simp), if_pos (by decide), walked]
    rfl
  | big =>
    simp only [ByteOrder.magic, List.cons_append, List.nil_append, processPacket]
    rw [if_neg (by decide), if_neg (by simp), if_neg (by decide), if_pos (by decide), walked]
    rfl

theorem processPacket_singlePacket {s : Submessage} (short : s.length < 65536)
    (all : s.receiver = toAll) (source : UInt8) :
    processPacket (singlePacket order source s) = some (source, [s]) := by
  have room : ¬ 65535 - submessageHeaderLength < s.body.length := by
    simp only [Submessage.length, submessageHeaderLength] at short ⊢
    omega
  have whole : (⟨s.type, toAll, s.body⟩ : Submessage) = s := by rw [← all]
  simp only [singlePacket, List.cons_append, List.nil_append, processPacket]
  rw [if_pos (by cases order <;> decide), if_neg room, if_neg (by simp), whole]

end Tickle
