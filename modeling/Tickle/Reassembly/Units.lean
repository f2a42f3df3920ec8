import Tickle.Pieces
import Tickle.Tx.Framing

/-! # What a fragmented sample goes as

A sample no datagram carries whole is cut into units at the context's `control_max`: fragment 0 with the
DataHeader, continuations with the entity and a seq_no of their own. A unit goes alone in its datagram
or, but for the last, with its neighbours in a run. What a receiver decodes of the datagrams are the
units (`processFrag_submessage`, `processFrag_run`).
-/

namespace Tickle

open Serial

namespace ByteOrder

/-- A `uint32_t` in memory. -/
def put32 (order : ByteOrder) (n : BitVec 32) : List UInt8 :=
  match order with
  | .little => [UInt8.ofNat n.toNat, UInt8.ofNat (n.toNat / 256), UInt8.ofNat (n.toNat / 65536),
      UInt8.ofNat (n.toNat / 16777216)]
  | .big => [UInt8.ofNat (n.toNat / 16777216), UInt8.ofNat (n.toNat / 65536), UInt8.ofNat (n.toNat / 256),
      UInt8.ofNat n.toNat]

def read32 (order : ByteOrder) (a b c d : UInt8) : BitVec 32 :=
  match order with
  | .little => BitVec.ofNat 32 (a.toNat + 256 * b.toNat + 65536 * c.toNat + 16777216 * d.toNat)
  | .big => BitVec.ofNat 32 (16777216 * a.toNat + 65536 * b.toNat + 256 * c.toNat + d.toNat)

theorem read_put32 (order : ByteOrder) (n : BitVec 32) :
    ∃ a b c d, order.put32 n = [a, b, c, d] ∧ order.read32 a b c d = n := by
  have bound := n.isLt
  cases order with
  | little =>
    refine ⟨_, _, _, _, rfl, ?_⟩
    apply BitVec.eq_of_toNat_eq
    simp only [read32, UInt8.toNat_ofNat', BitVec.toNat_ofNat]
    omega
  | big =>
    refine ⟨_, _, _, _, rfl, ?_⟩
    apply BitVec.eq_of_toNat_eq
    simp only [read32, UInt8.toNat_ofNat', BitVec.toNat_ofNat]
    omega

end ByteOrder

/-- `struct tt_DataHeader`. -/
structure DataHeader where
  endpointId : BitVec 32
  seqNo : SeqNo
  timestamp : BitVec 32
  entityId : BitVec 32
  deriving DecidableEq, Repr

namespace DataHeader

def bytes (order : ByteOrder) (h : DataHeader) : List UInt8 :=
  order.put32 h.endpointId ++ order.put32 h.seqNo ++ order.put32 h.timestamp ++ order.put32 h.entityId

/-- The header in front of `bytes`, and what follows it. -/
def read (order : ByteOrder) : List UInt8 → Option (DataHeader × List UInt8)
  | a₁ :: b₁ :: c₁ :: d₁ :: a₂ :: b₂ :: c₂ :: d₂ :: a₃ :: b₃ :: c₃ :: d₃ :: a₄ :: b₄ :: c₄ :: d₄ :: rest =>
    some (⟨order.read32 a₁ b₁ c₁ d₁, order.read32 a₂ b₂ c₂ d₂, order.read32 a₃ b₃ c₃ d₃,
      order.read32 a₄ b₄ c₄ d₄⟩, rest)
  | _ => none

theorem read_bytes (order : ByteOrder) (h : DataHeader) (rest : List UInt8) :
    read order (h.bytes order ++ rest) = some (h, rest) := by
  obtain ⟨a₁, b₁, c₁, d₁, put₁, read₁⟩ := ByteOrder.read_put32 order h.endpointId
  obtain ⟨a₂, b₂, c₂, d₂, put₂, read₂⟩ := ByteOrder.read_put32 order h.seqNo
  obtain ⟨a₃, b₃, c₃, d₃, put₃, read₃⟩ := ByteOrder.read_put32 order h.timestamp
  obtain ⟨a₄, b₄, c₄, d₄, put₄, read₄⟩ := ByteOrder.read_put32 order h.entityId
  simp only [bytes, put₁, put₂, put₃, put₄, List.cons_append, List.nil_append, read, read₁, read₂, read₃,
    read₄]

theorem bytes_length (order : ByteOrder) (h : DataHeader) : (h.bytes order).length = 16 := by
  cases order <;> rfl

end DataHeader

/-- A unit as `deliver_user_fragment()` is handed it. `seqNo` is the sample's. -/
structure Fragment where
  source : UInt8
  entityId : BitVec 32
  seqNo : SeqNo
  index : Nat
  count : Nat
  payload : List UInt8
  header : Option DataHeader
  deriving DecidableEq, Repr

/-- `tt_DISCOVERY_ENTITY_ID`. -/
def discoveryEntityId : BitVec 32 := 0xffffffff

/-! ## The sender -/

/-- A sample that goes in fragments, as its Publisher has encoded it. -/
structure FragSample (node : Context) where
  order : ByteOrder
  source : UInt8
  header : DataHeader
  published : List UInt8
  within : published.length ≤ node.maxSampleLength
  large : node.fragWholeLimit < headerLength + recordLengthChecked published
  user : header.entityId ≠ discoveryEntityId

namespace FragSample

variable {node : Context} (s : FragSample node)

/-- What is cut: the encoded CDR, padded as a DATA would be. -/
def cdr : List UInt8 := padCdr s.published

def count : Nat := node.fragCountFor s.cdr.length

def payload (index : Nat) : List UInt8 :=
  Pieces.piece s.cdr (node.fragPayloadOffset index) (node.fragPayloadLength index s.cdr.length)

/-- The unit a receiver should find. -/
def fragment (index : Nat) : Fragment :=
  ⟨s.source, s.header.entityId, s.header.seqNo, index, s.count, s.payload index,
    if index = 0 then some s.header else none⟩

/-- `frag_write_header()` and the payload behind it. -/
def submessage (index : Nat) (receiver : UInt8) : Submessage :=
  if index = 0 then
    ⟨8, receiver, s.header.bytes s.order ++ UInt8.ofNat s.count :: s.payload 0⟩
  else
    ⟨9, receiver, s.order.put32 s.header.entityId ++ s.order.put32 (s.header.seqNo + BitVec.ofNat 32 index) ++
      UInt8.ofNat index :: UInt8.ofNat s.count :: s.payload index⟩

/-- A datagram of one submessage, in the single form when it qualifies (`to_single_form()`). -/
def datagramFor (sub : Submessage) : List UInt8 :=
  if sub.receiver = toAll then singlePacket s.order s.source sub else packet s.order s.source [sub]

/-- `hybrid_small_run()`: `units` units from `start` on. -/
def run (start units : Nat) : Submessage :=
  ⟨15, toAll, ({ s.header with seqNo := s.header.seqNo + BitVec.ofNat 32 start } : DataHeader).bytes s.order ++
    UInt8.ofNat start :: UInt8.ofNat s.count :: UInt8.ofNat units :: 0 ::
      Pieces.piece s.cdr (node.fragPayloadOffset start)
        (node.fragPayloadOffset (start + units) - node.fragPayloadOffset start)⟩

/-- The runs of `runN` units over the first `runUntil`, from `start` on. -/
def runs (runN runUntil : Nat) : Nat → Nat → List Submessage
  | 0, _ => []
  | fuel + 1, start =>
    if start < runUntil then
      s.run start (if runUntil - start < runN then runUntil - start else runN) ::
        runs runN runUntil fuel (start + runN)
    else []

/-- What a sample goes as to one destination: `send_fragments_from()` with units alone for `runN` below 2
or fewer than three units, else `hybrid_send_small_runs()`. -/
def submessages (runN : Nat) (oneRun : Bool) (receiver : UInt8) : List Submessage :=
  if runN < 2 || s.count < 3 then (List.range s.count).map (s.submessage · receiver)
  else
    let runUntil := if oneRun && runN < s.count - 1 then runN else s.count - 1
    s.runs runN runUntil s.count 0 ++
      (List.range' runUntil (s.count - runUntil)).map (s.submessage · receiver)

end FragSample

/-! ## The receiver -/

/-- The units of a run, cut at `unit`, which fragment 0 falls 7 bytes short of. -/
def runUnits (source : UInt8) (header : DataHeader) (count unit : Nat) : Nat → Nat → List UInt8 → List Fragment
  | 0, _, _ => []
  | left + 1, index, bytes =>
    let length := if index = 0 then unit - 7 else unit
    ⟨source, header.entityId, header.seqNo, index, count, bytes.take length,
        if index = 0 then some header else none⟩ ::
      runUnits source header count unit left (index + 1) (bytes.drop length)

/-- `process_frag()` and `process_frag_run()` up to `deliver_user_fragment()`: the units of a
submessage. An announce's are not units. -/
def processFrag (order : ByteOrder) (source : UInt8) (sub : Submessage) : List Fragment :=
  if sub.type = 8 then
    match DataHeader.read order sub.body with
    | some (header, count :: payload) =>
      if header.entityId = discoveryEntityId then []
      else [⟨source, header.entityId, header.seqNo, 0, count.toNat, payload, some header⟩]
    | _ => []
  else if sub.type = 9 then
    match sub.body with
    | a₁ :: b₁ :: c₁ :: d₁ :: a₂ :: b₂ :: c₂ :: d₂ :: index :: count :: payload =>
      let entityId := order.read32 a₁ b₁ c₁ d₁
      if entityId = discoveryEntityId then []
      else [⟨source, entityId, order.read32 a₂ b₂ c₂ d₂ - BitVec.ofNat 32 index.toNat, index.toNat,
        count.toNat, payload, none⟩]
    | _ => []
  else if sub.type = 15 then
    match DataHeader.read order sub.body with
    | some (header, index :: count :: runCount :: zero :: payload) =>
      let span := if index = 0 then payload.length + 7 else payload.length
      if zero ≠ 0 || header.entityId = discoveryEntityId || 64 < count.toNat || runCount = 0 ||
          count.toNat ≤ index.toNat + runCount.toNat || span % runCount.toNat ≠ 0 ||
          span / runCount.toNat ≤ 7 then []
      else
        runUnits source { header with seqNo := header.seqNo - BitVec.ofNat 32 index.toNat } count.toNat
          (span / runCount.toNat) runCount.toNat index.toNat payload
    | _ => []
  else []

/-- The byte order a datagram was written in, told by its first byte. -/
def datagramOrder (bytes : List UInt8) : ByteOrder :=
  if bytes.head? = some (ByteOrder.marker .big) || bytes.take 2 = ByteOrder.magic .big then .big else .little

/-- The units a datagram brings the context with id `self`. -/
def processDatagram (self : UInt8) (bytes : List UInt8) : List Fragment :=
  match processPacket bytes with
  | none => []
  | some (source, submessages) =>
    if source = self then []
    else
      (submessages.filter fun sub => sub.receiver = toAll || sub.receiver = self).flatMap
        (processFrag (datagramOrder bytes) source)

/-! ## How a sample is cut -/

namespace FragSample

variable {node : Context} (s : FragSample node)

theorem cdr_length : s.cdr.length = sampleCdrLength s.published := (sampleCdrLength_eq s.published).symm

theorem firstPayload_lt : node.fragFirstPayload < s.cdr.length := by
  rw [cdr_length]
  exact fragFirstPayload_lt_of_over (Nat.le_refl node.fragWholeLimit) s.large

theorem two_le_count : 2 ≤ s.count := by
  have first := s.firstPayload_lt
  unfold count
  rw [cdr_length] at first ⊢
  exact fragCountFor_ge_two first

theorem count_le : s.count ≤ 64 := by
  have cut : sampleDatagramCount node s.published node.fragWholeLimit = s.count := by
    unfold sampleDatagramCount count
    rw [if_pos s.large, cdr_length]
  rw [← cut]
  exact sampleDatagramCount_le s.within

theorem contPayload_eq (node : Context) : node.fragContPayload = node.fragFirstPayload + 7 := by
  have := node.control_min
  unfold Context.fragFirstPayload Context.fragContPayload
  omega

/-- Where the unit behind one starts. -/
theorem offset_succ (node : Context) (index : Nat) :
    node.fragPayloadOffset (index + 1) =
      node.fragPayloadOffset index + if index = 0 then node.fragFirstPayload else node.fragContPayload := by
  unfold Context.fragPayloadOffset
  by_cases first : index = 0
  · simp [first]
  · obtain ⟨k, rfl⟩ : ∃ k, index = k + 1 := ⟨index - 1, by omega⟩
    simp only [Nat.add_sub_cancel, Nat.add_mul, Nat.one_mul]
    simp only [Nat.add_eq_zero_iff, Nat.one_ne_zero, and_false, if_false]
    omega

theorem offset_lt {index : Nat} (h : index < s.count) : node.fragPayloadOffset index < s.cdr.length := by
  have first := s.firstPayload_lt
  unfold count at h
  rw [cdr_length] at first h ⊢
  exact fragPayloadOffset_lt first h

/-- The cut goes to the end of the CDR. -/
theorem le_offset_count : s.cdr.length ≤ node.fragPayloadOffset s.count := by
  have first := s.firstPayload_lt
  have positive : 0 < node.fragContPayload := by
    have := fragFirstPayload_pos node
    have := fragPayload_first_lt_cont node
    omega
  have some : s.count ≠ 0 := by
    have := s.two_le_count
    omega
  unfold Context.fragPayloadOffset
  rw [if_neg some]
  have last : s.count - 1 =
      (s.cdr.length - node.fragFirstPayload + node.fragContPayload - 1) / node.fragContPayload := by
    unfold count Context.fragCountFor
    exact Nat.add_sub_cancel_left 1 _
  rw [last]
  have whole := Nat.div_add_mod (s.cdr.length - node.fragFirstPayload + node.fragContPayload - 1)
    node.fragContPayload
  have rest := Nat.mod_lt (s.cdr.length - node.fragFirstPayload + node.fragContPayload - 1) positive
  rw [Nat.mul_comm] at whole
  omega

/-- How long unit `index` is. -/
def unitLength (index : Nat) : Nat := node.fragPayloadLength index s.cdr.length

/-- Every unit but the last ends where the next starts. -/
theorem offset_add_length {index : Nat} (h : index + 1 < s.count) :
    node.fragPayloadOffset index + s.unitLength index = node.fragPayloadOffset (index + 1) := by
  have next := s.offset_lt h
  rw [offset_succ] at next ⊢
  unfold unitLength Context.fragPayloadLength
  simp only
  generalize (if index = 0 then node.fragFirstPayload else node.fragContPayload) = full at next ⊢
  split <;> omega

/-- The last one ends with the CDR. -/
theorem offset_add_length_last : node.fragPayloadOffset (s.count - 1) + s.unitLength (s.count - 1) =
    s.cdr.length := by
  have two := s.two_le_count
  have before : node.fragPayloadOffset (s.count - 1) < s.cdr.length := s.offset_lt (by omega)
  have beyond := s.le_offset_count
  have next := offset_succ node (s.count - 1)
  rw [show s.count - 1 + 1 = s.count by omega] at next
  unfold unitLength Context.fragPayloadLength
  simp only
  generalize (if s.count - 1 = 0 then node.fragFirstPayload else node.fragContPayload) = full at next ⊢
  split <;> omega

theorem end_le {index : Nat} (h : index < s.count) :
    node.fragPayloadOffset index + s.unitLength index ≤ s.cdr.length := by
  by_cases last : index + 1 < s.count
  · rw [s.offset_add_length last]
    exact (s.offset_lt last).le
  · have same : index = s.count - 1 := by omega
    rw [same]
    exact s.offset_add_length_last.le

theorem payload_length {index : Nat} (h : index < s.count) : (s.payload index).length = s.unitLength index :=
  Pieces.piece_length (s.end_le h)

theorem unitLength_full {index : Nat} (h : index + 1 < s.count) :
    s.unitLength index = if index = 0 then node.fragFirstPayload else node.fragContPayload := by
  have next := offset_succ node index
  have full := s.offset_add_length h
  omega

theorem unitLength_le (index : Nat) :
    s.unitLength index ≤ if index = 0 then node.fragFirstPayload else node.fragContPayload := by
  unfold unitLength Context.fragPayloadLength
  simp only
  generalize (if index = 0 then node.fragFirstPayload else node.fragContPayload) = full
  split <;> omega

theorem unitLength_pos {index : Nat} (h : index < s.count) : 0 < s.unitLength index := by
  have first := s.firstPayload_lt
  unfold unitLength
  unfold count at h
  rw [cdr_length] at first h ⊢
  exact fragPayloadLength_pos first h

/-! ## On the wire -/

theorem submessage_length {index : Nat} (h : index < s.count) (receiver : UInt8) :
    (s.submessage index receiver).length = fragHeaderLength index + s.unitLength index := by
  have size := s.payload_length h
  unfold submessage fragHeaderLength Submessage.length
  by_cases first : index = 0
  · subst first
    simp only [if_true, List.length_append, DataHeader.bytes_length, List.length_cons, size,
      submessageHeaderLength]
    omega
  · simp only [if_neg first, List.length_append, List.length_cons, size, submessageHeaderLength]
    have four : ∀ n, (s.order.put32 n).length = 4 := by
      intro n
      cases s.order <;> rfl
    rw [four, four]
    omega

/-- A unit's datagram is within the link's limit. -/
theorem submessage_fits {index : Nat} (h : index < s.count) (receiver : UInt8) :
    headerLength + (s.submessage index receiver).length ≤ node.controlMax := by
  have least := node.control_min
  have most := s.unitLength_le index
  rw [s.submessage_length h]
  unfold fragHeaderLength headerLength
  unfold Context.fragFirstPayload Context.fragContPayload at most
  split at most
  · next first =>
    rw [if_pos first]
    omega
  · next later =>
    rw [if_neg later]
    omega

theorem datagramFor_length_le (sub : Submessage) : (s.datagramFor sub).length ≤ headerLength + sub.length := by
  unfold datagramFor
  split
  · simp only [singlePacket, List.cons_append, List.nil_append, List.length_cons, Submessage.length,
      headerLength, submessageHeaderLength]
    omega
  · rw [packet, List.length_append, TxBuffer.packetHeader_length, Submessage.frames_singleton,
      Submessage.frame_length]

theorem submessage_receiver (index : Nat) (receiver : UInt8) :
    (s.submessage index receiver).receiver = receiver := by
  unfold submessage
  split <;> rfl

theorem toNat_ofNat_small {n : Nat} (h : n ≤ 64) : (UInt8.ofNat n).toNat = n := by
  rw [UInt8.toNat_ofNat']
  omega

/-- A unit's submessage is read as the unit. -/
theorem processFrag_submessage {index : Nat} (h : index < s.count) (receiver : UInt8) :
    processFrag s.order s.source (s.submessage index receiver) = [s.fragment index] := by
  have most := s.count_le
  have count_eq : (UInt8.ofNat s.count).toNat = s.count := toNat_ofNat_small most
  unfold submessage processFrag
  by_cases first : index = 0
  · subst first
    simp only [if_true, DataHeader.read_bytes, if_neg s.user, count_eq]
    rfl
  · have index_eq : (UInt8.ofNat index).toNat = index := toNat_ofNat_small (by omega)
    obtain ⟨a₁, b₁, c₁, d₁, put₁, read₁⟩ := ByteOrder.read_put32 s.order s.header.entityId
    obtain ⟨a₂, b₂, c₂, d₂, put₂, read₂⟩ :=
      ByteOrder.read_put32 s.order (s.header.seqNo + BitVec.ofNat 32 index)
    simp only [if_neg first, put₁, put₂, List.cons_append, List.nil_append, read₁, read₂, if_neg s.user,
      index_eq, count_eq]
    simp [fragment, first]

/-- A run's units are full. -/
theorem offset_add (node : Context) (start : Nat) {units : Nat} (some : 0 < units) :
    node.fragPayloadOffset (start + units) + (if start = 0 then 7 else 0) =
      node.fragPayloadOffset start + units * node.fragContPayload := by
  have cont := contPayload_eq node
  obtain ⟨more, rfl⟩ : ∃ more, units = more + 1 := ⟨units - 1, by omega⟩
  unfold Context.fragPayloadOffset
  rw [if_neg (by omega)]
  by_cases first : start = 0
  · subst first
    simp only [if_true, Nat.zero_add, Nat.add_sub_cancel, Nat.add_mul, Nat.one_mul]
    omega
  · obtain ⟨before, rfl⟩ : ∃ before, start = before + 1 := ⟨start - 1, by omega⟩
    rw [if_neg (by omega), if_neg (by omega), show before + 1 + (more + 1) - 1 = before + (more + 1) by omega]
    simp only [Nat.add_sub_cancel, Nat.add_mul, Nat.one_mul]
    omega

theorem runUnits_eq (units index : Nat) (h : index + units < s.count) :
    runUnits s.source s.header s.count node.fragContPayload units index
        (Pieces.piece s.cdr (node.fragPayloadOffset index)
          (node.fragPayloadOffset (index + units) - node.fragPayloadOffset index)) =
      (List.range' index units).map s.fragment := by
  have cont := contPayload_eq node
  induction units generalizing index with
  | zero => rfl
  | succ units ih =>
    have full := s.unitLength_full (show index + 1 < s.count by omega)
    have next := s.offset_add_length (show index + 1 < s.count by omega)
    have later : node.fragPayloadOffset (index + 1) ≤ node.fragPayloadOffset (index + (units + 1)) := by
      by_cases none : units = 0
      · subst none
        exact le_refl _
      · have := offset_add node (index + 1) (Nat.pos_of_ne_zero none)
        rw [if_neg (by omega), show index + 1 + units = index + (units + 1) by omega] at this
        omega
    have length : (if index = 0 then node.fragContPayload - 7 else node.fragContPayload) =
        s.unitLength index := by
      rw [full]
      split <;> omega
    unfold runUnits
    simp only
    rw [length, Pieces.take_piece (by omega), Pieces.drop_piece, next, List.range'_succ, List.map_cons,
      ← ih (index + 1) (by omega)]
    congr 2
    rw [show index + 1 + units = index + (units + 1) by omega]
    congr 1
    omega

/-- A run's submessage is read as its units. -/
theorem processFrag_run {start units : Nat} (some : 0 < units) (h : start + units < s.count) :
    processFrag s.order s.source (s.run start units) = (List.range' start units).map s.fragment := by
  have most := s.count_le
  have least := node.control_min
  have cont := contPayload_eq node
  have positive := fragFirstPayload_pos node
  have stop := s.offset_lt h
  have extent := offset_add node start some
  have each := Nat.le_mul_of_pos_left node.fragContPayload some
  have size : (Pieces.piece s.cdr (node.fragPayloadOffset start)
      (node.fragPayloadOffset (start + units) - node.fragPayloadOffset start)).length =
      node.fragPayloadOffset (start + units) - node.fragPayloadOffset start := by
    apply Pieces.piece_length
    split at extent <;> omega
  have start_zero : UInt8.ofNat start = 0 ↔ start = 0 := by
    rw [← UInt8.toNat_inj, toNat_ofNat_small (by omega)]
    rfl
  have units_zero : ¬ UInt8.ofNat units = 0 := by
    rw [← UInt8.toNat_inj, toNat_ofNat_small (by omega)]
    exact Nat.ne_of_gt some
  have span : (if start = 0 then node.fragPayloadOffset (start + units) - node.fragPayloadOffset start + 7
      else node.fragPayloadOffset (start + units) - node.fragPayloadOffset start) =
      units * node.fragContPayload := by
    split <;> split at extent <;> omega
  unfold run processFrag
  simp only [DataHeader.read_bytes, size, start_zero, toNat_ofNat_small most,
    toNat_ofNat_small (show start ≤ 64 by omega), toNat_ofNat_small (show units ≤ 64 by omega), span]
  rw [if_neg (by decide), if_neg (by decide), if_pos trivial, if_neg, Nat.mul_div_cancel_left _ some]
  · have back : s.header.seqNo + BitVec.ofNat 32 start - BitVec.ofNat 32 start = s.header.seqNo :=
      BitVec.add_sub_cancel _ _
    rw [back]
    exact s.runUnits_eq units start h
  · simp [Nat.mul_div_cancel_left _ some, units_zero, s.user]
    omega

theorem datagramOrder_datagramFor (sub : Submessage) : datagramOrder (s.datagramFor sub) = s.order := by
  unfold datagramFor
  split
  · cases h : s.order <;> simp [singlePacket, datagramOrder, ByteOrder.marker, ByteOrder.magic]
  · cases h : s.order <;> simp [packet, packetHeader, datagramOrder, ByteOrder.marker, ByteOrder.magic]

/-- A datagram of one submessage is read as what the submessage is read as. -/
theorem processDatagram_datagramFor {sub : Submessage} (short : sub.length < 65536) {self : UInt8}
    (other : s.source ≠ self) (mine : sub.receiver = toAll ∨ sub.receiver = self) :
    processDatagram self (s.datagramFor sub) = processFrag s.order s.source sub := by
  have parsed : processPacket (s.datagramFor sub) = some (s.source, [sub]) := by
    unfold datagramFor
    split
    · next all => exact processPacket_singlePacket short all s.source
    · exact processPacket_packet (by simpa using short) s.source
  unfold processDatagram
  rw [parsed, s.datagramOrder_datagramFor]
  simp [other, mine]

/-! ## To one destination -/

theorem mem_runs {runN runUntil fuel start : Nat} (some : 0 < runN) {sub : Submessage}
    (mem : sub ∈ s.runs runN runUntil fuel start) :
    ∃ at_, ∃ units, sub = s.run at_ units ∧ 0 < units ∧ units ≤ runN ∧ at_ + units ≤ runUntil := by
  induction fuel generalizing start with
  | zero => simp [runs] at mem
  | succ fuel ih =>
    unfold runs at mem
    split at mem
    · next before =>
      rcases List.mem_cons.mp mem with rfl | later
      · refine ⟨start, _, rfl, ?_⟩
        split <;> omega
      · exact ih later
    · simp at mem

theorem runs_units {runN runUntil : Nat} (some : 0 < runN) (below : runUntil < s.count) {fuel start : Nat}
    (enough : runUntil - start ≤ fuel) :
    (s.runs runN runUntil fuel start).flatMap (processFrag s.order s.source) =
      (List.range' start (runUntil - start)).map s.fragment := by
  induction fuel generalizing start with
  | zero =>
    rw [show runUntil - start = 0 by omega]
    rfl
  | succ fuel ih =>
    unfold runs
    split
    · next before =>
      rw [List.flatMap_cons, ih (by omega)]
      by_cases short : runUntil - start < runN
      · rw [if_pos short, s.processFrag_run (by omega) (by omega),
          show runUntil - (start + runN) = 0 by omega]
        simp
      · rw [if_neg short, s.processFrag_run some (by omega), ← List.map_append, List.range'_append_1]
        congr 2
        omega
    · next past =>
      rw [show runUntil - start = 0 by omega]
      rfl

theorem runs_length_le {runN runUntil : Nat} (some : 0 < runN) (fuel start : Nat) :
    (s.runs runN runUntil fuel start).length ≤ runUntil - start := by
  induction fuel generalizing start with
  | zero => simp [runs]
  | succ fuel ih =>
    unfold runs
    split
    · have := ih (start + runN)
      rw [List.length_cons]
      omega
    · simp

/-- The sample's units, in their order, whatever it goes as. -/
theorem submessages_units (runN : Nat) (oneRun : Bool) (receiver : UInt8) :
    (s.submessages runN oneRun receiver).flatMap (processFrag s.order s.source) =
      (List.range s.count).map s.fragment := by
  have alone : ∀ units : List Nat, (∀ i ∈ units, i < s.count) →
      (units.map (s.submessage · receiver)).flatMap (processFrag s.order s.source) =
        units.map s.fragment := by
    intro units below
    induction units with
    | nil => rfl
    | cons i rest ih =>
      rw [List.map_cons, List.flatMap_cons, s.processFrag_submessage (below i (List.mem_cons_self ..)),
        ih fun j mem => below j (List.mem_cons_of_mem i mem)]
      rfl
  unfold submessages
  split
  · exact alone _ fun i mem => List.mem_range.mp mem
  · next several =>
    simp only [Bool.or_eq_true, decide_eq_true_eq, not_or, not_lt] at several
    generalize hUntil : (if oneRun && decide (runN < s.count - 1) then runN else s.count - 1) = runUntil
    have below : runUntil < s.count := by
      rw [← hUntil]
      split
      · next one =>
        simp only [Bool.and_eq_true, decide_eq_true_eq] at one
        omega
      · omega
    rw [List.flatMap_append, s.runs_units (by omega) below (by omega), Nat.sub_zero, alone]
    · have whole : List.range' 0 runUntil ++ List.range' runUntil (s.count - runUntil) =
          List.range' 0 s.count := by
        have joined : List.range' 0 runUntil ++ List.range' (0 + runUntil) (s.count - runUntil) =
          List.range' 0 (runUntil + (s.count - runUntil)) := List.range'_append_1
        rwa [Nat.zero_add, show runUntil + (s.count - runUntil) = s.count by omega] at joined
      rw [← List.map_append, List.range_eq_range', whole]
    · intro i mem
      have := List.mem_range'_1.mp mem
      omega

/-- A run's datagram is as long as its framing and at most `runN` full units. -/
theorem run_length {start units : Nat} (some : 0 < units) :
    (s.run start units).length ≤ submessageHeaderLength + 20 + units * node.fragContPayload := by
  have extent := offset_add node start some
  have size : (Pieces.piece s.cdr (node.fragPayloadOffset start)
      (node.fragPayloadOffset (start + units) - node.fragPayloadOffset start)).length ≤
      node.fragPayloadOffset (start + units) - node.fragPayloadOffset start := by
    unfold Pieces.piece
    exact List.length_take_le ..
  simp only [run, Submessage.length, List.length_append, DataHeader.bytes_length, List.length_cons]
  omega

theorem submessage_short {index : Nat} (h : index < s.count) (receiver : UInt8) :
    (s.submessage index receiver).length < 65536 := by
  have most := node.sample_max
  have padded := roundup_le s.published.length
  have within := s.within
  have cdr_size : s.cdr.length ≤ node.maxSampleLength + 3 := by
    rw [cdr, padCdr_length]
    omega
  have stop := s.end_le h
  rw [s.submessage_length h]
  unfold fragHeaderLength
  split <;> omega

theorem run_short {start units : Nat} (h : start + units < s.count) : (s.run start units).length < 65536 := by
  have most := node.sample_max
  have padded := roundup_le s.published.length
  have within := s.within
  have cdr_size : s.cdr.length ≤ node.maxSampleLength + 3 := by
    rw [cdr, padCdr_length]
    omega
  have stop := s.offset_lt h
  have size : (Pieces.piece s.cdr (node.fragPayloadOffset start)
      (node.fragPayloadOffset (start + units) - node.fragPayloadOffset start)).length ≤
      node.fragPayloadOffset (start + units) - node.fragPayloadOffset start := by
    unfold Pieces.piece
    exact List.length_take_le ..
  simp only [run, Submessage.length, List.length_append, DataHeader.bytes_length, List.length_cons,
    submessageHeaderLength]
  omega

/-- What a submessage of the sample is: a unit alone or a run. -/
theorem mem_submessages {runN : Nat} {oneRun : Bool} {receiver : UInt8} {sub : Submessage}
    (mem : sub ∈ s.submessages runN oneRun receiver) :
    (∃ index, index < s.count ∧ sub = s.submessage index receiver) ∨
    (2 ≤ runN ∧ ∃ start units, sub = s.run start units ∧ 0 < units ∧ units ≤ runN ∧
      start + units < s.count) := by
  unfold submessages at mem
  split at mem
  · obtain ⟨index, below, rfl⟩ := List.mem_map.mp mem
    exact .inl ⟨index, List.mem_range.mp below, rfl⟩
  · next several =>
    simp only [Bool.or_eq_true, decide_eq_true_eq, not_or, not_lt] at several
    simp only at mem
    rcases List.mem_append.mp mem with run | alone
    · obtain ⟨start, units, rfl, positive, most, stop⟩ := s.mem_runs (by omega) run
      refine .inr ⟨several.1, start, units, rfl, positive, most, ?_⟩
      split at stop
      · next one =>
        simp only [Bool.and_eq_true, decide_eq_true_eq] at one
        omega
      · omega
    · obtain ⟨index, below, rfl⟩ := List.mem_map.mp alone
      have := List.mem_range'_1.mp below
      refine .inl ⟨index, ?_, rfl⟩
      split at this
      · next one =>
        simp only [Bool.and_eq_true, decide_eq_true_eq] at one
        omega
      · omega

/-- `hybrid_units_within()`: the units a datagram of at most `ceiling` bytes holds as a run. Only a context
whose `control_max` is the build's sends runs, so that a unit of the build's is one of the context's. -/
def hybridUnitsWithin (node : Context) (ceiling limit : Nat) : Nat :=
  max 1 (min limit (if 24 < ceiling then (ceiling - 24) / node.fragContPayload else 0))

theorem hybridUnitsWithin_le {ceiling limit n : Nat} (h : n ≤ hybridUnitsWithin node ceiling limit)
    (several : 2 ≤ n) : 24 + n * node.fragContPayload ≤ ceiling := by
  have positive : 0 < node.fragContPayload := by
    have := contPayload_eq node
    omega
  unfold hybridUnitsWithin at h
  split at h
  · have := (Nat.le_div_iff_mul_le positive).mp (show n ≤ (ceiling - 24) / node.fragContPayload by omega)
    omega
  · omega

/-- A sample is at most 64 datagrams to a destination. -/
theorem submessages_length_le (runN : Nat) (oneRun : Bool) (receiver : UInt8) :
    (s.submessages runN oneRun receiver).length ≤ 64 := by
  have most := s.count_le
  unfold submessages
  split
  · simpa using most
  · next several =>
    simp only [Bool.or_eq_true, decide_eq_true_eq, not_or, not_lt] at several
    simp only
    generalize hUntil : (if oneRun && decide (runN < s.count - 1) then runN else s.count - 1) = runUntil
    have below : runUntil < s.count := by
      rw [← hUntil]
      split
      · next one =>
        simp only [Bool.and_eq_true, decide_eq_true_eq] at one
        omega
      · omega
    have runs : (s.runs runN runUntil s.count 0).length ≤ runUntil - 0 :=
      s.runs_length_le (by omega) s.count 0
    rw [List.length_append, List.length_map, List.length_range']
    omega

end FragSample

end Tickle
