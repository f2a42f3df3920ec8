import Tickle.Serial

/-! # What a sample goes as

An encoded sample is one DATA record, or one record per fragment when no datagram can carry it. Every
datagram takes a seq_no of its own, so a sample spends as many seq_nos as its network form has
datagrams, whatever path it takes.
-/

namespace Tickle

open Serial

/-- `ROUNDUP()`: the next multiple of 4. -/
def roundup (n : Nat) : Nat := (n + 3) / 4 * 4

theorem le_roundup (n : Nat) : n ≤ roundup n := by unfold roundup; omega

theorem roundup_le (n : Nat) : roundup n ≤ n + 3 := by unfold roundup; omega

/-- The constants of `struct tt_Context` that decide how a sample is cut: `control_max`, the largest
datagram of its links, and the build's `tt_MAX_SAMPLE_LENGTH`. A context is created only when its
options pass `link_control_fragments()` and the link's MTU is at least `tt_LINK_MTU_MIN`. -/
structure Context where
  controlMax : Nat
  maxSampleLength : Nat
  /-- `tt_LINK_MTU_MIN` less the IPv4 and UDP headers. -/
  control_min : 548 ≤ controlMax
  /-- A padded DATA fits its 16-bit submessage length. -/
  sample_max : maxSampleLength + 27 ≤ 65535
  /-- `link_control_fragments()`: within `tt_FRAG_MAX_COUNT` fragments. -/
  fragments_max : maxSampleLength + 3 ≤ controlMax - 25 ∨
    1 + (maxSampleLength + 3 - (controlMax - 25) + (controlMax - 18) - 1) / (controlMax - 18) ≤ 64

/-! The smallest MTU, with samples of 4000 bytes. -/

theorem smallest_control : 548 ≤ 548 := by decide

theorem smallest_samples : 4000 + 27 ≤ 65535 := by decide

theorem smallest_fragments : 4000 + 3 ≤ 548 - 25 ∨ 1 + (4000 + 3 - (548 - 25) + (548 - 18) - 1) / (548 - 18) ≤ 64 := by
  decide

/-- `sizeof(struct tt_Header)`. -/
def headerLength : Nat := 4

/-- `sizeof(struct tt_SubmessageHeader) + sizeof(struct tt_DataHeader)`. -/
def dataFraming : Nat := 20

namespace Context

/-- `frag_whole_limit()`: the largest datagram a sample goes as whole on the network. -/
def fragWholeLimit (node : Context) : Nat := node.controlMax

/-- `frag_cont_payload()`: `control_max` less a continuation's framing. -/
def fragContPayload (node : Context) : Nat := node.controlMax - 18

/-- `frag_first_payload()`: less `tt_FRAG_FIRST_SHORTFALL`. -/
def fragFirstPayload (node : Context) : Nat := node.fragContPayload - 7

def fragCountFor (node : Context) (cdrLen : Nat) : Nat :=
  1 + (cdrLen - node.fragFirstPayload + node.fragContPayload - 1) / node.fragContPayload

def fragPayloadOffset (node : Context) (index : Nat) : Nat :=
  if index = 0 then 0 else node.fragFirstPayload + (index - 1) * node.fragContPayload

def fragPayloadLength (node : Context) (index cdrLen : Nat) : Nat :=
  let offset := node.fragPayloadOffset index
  let full := if index = 0 then node.fragFirstPayload else node.fragContPayload
  if cdrLen - offset < full then cdrLen - offset else full

end Context

/-- `frag_header_length()`: the submessage header and the fragment header. -/
def fragHeaderLength (index : Nat) : Nat := if index = 0 then 21 else 14

/-- A submessage as it is cached and sent: a whole DATA, a sample's first fragment, or a
continuation. `seqNo` is the datagram's own. -/
inductive Record
  | data (seqNo : SeqNo) (cdr : List UInt8)
  | fragFirst (seqNo : SeqNo) (count : Nat) (payload : List UInt8)
  | fragCont (seqNo : SeqNo) (index count : Nat) (payload : List UInt8)
  deriving DecidableEq, Repr

namespace Record

def seqNo : Record → SeqNo
  | data seqNo _ => seqNo
  | fragFirst seqNo _ _ => seqNo
  | fragCont seqNo _ _ _ => seqNo

/-- Bytes of the submessage. -/
def length : Record → Nat
  | data _ cdr => dataFraming + cdr.length
  | fragFirst _ _ payload => fragHeaderLength 0 + payload.length
  | fragCont _ _ _ payload => fragHeaderLength 1 + payload.length

/-- `type == tt_SUBMESSAGE_TYPE_FRAG_CONT`. -/
def continues : Record → Bool
  | fragCont .. => true
  | _ => false

/-- The seq_nos the record's sample spends, one per datagram of its network form. -/
def span (node : Context) : Record → Nat
  | data _ cdr =>
    if headerLength + dataFraming + cdr.length > node.fragWholeLimit then node.fragCountFor cdr.length
    else 1
  | fragFirst _ count _ => count
  | fragCont _ _ count _ => count

/-- The first seq_no of the sample the record belongs to. -/
def sampleSeqNo : Record → SeqNo
  | data seqNo _ => seqNo
  | fragFirst seqNo _ _ => seqNo
  | fragCont seqNo index _ _ => seqNo - BitVec.ofNat 32 index

end Record

/-- The CDR as it is sent and cached, padded to the submessage alignment. -/
def padCdr (cdr : List UInt8) : List UInt8 :=
  cdr ++ List.replicate (roundup cdr.length - cdr.length) 0

theorem padCdr_length (cdr : List UInt8) : (padCdr cdr).length = roundup cdr.length := by
  have := le_roundup cdr.length
  simp only [padCdr, List.length_append, List.length_replicate]
  omega

/-- `record_length_checked()` of an encoded sample: its framing and CDR, rounded up. -/
def recordLengthChecked (cdr : List UInt8) : Nat := roundup (dataFraming + cdr.length)

/-- `sample_cdr_length()`. -/
def sampleCdrLength (cdr : List UInt8) : Nat := roundup (dataFraming + cdr.length) - dataFraming

theorem sampleCdrLength_eq (cdr : List UInt8) : sampleCdrLength cdr = (padCdr cdr).length := by
  rw [padCdr_length]
  unfold sampleCdrLength roundup dataFraming
  omega

theorem recordLengthChecked_eq (cdr : List UInt8) :
    recordLengthChecked cdr = dataFraming + (padCdr cdr).length := by
  rw [padCdr_length]
  unfold recordLengthChecked roundup dataFraming
  omega

/-- `sample_datagram_count()`: 1, or one per fragment when the record passes `wholeLimit`. -/
def sampleDatagramCount (node : Context) (cdr : List UInt8) (wholeLimit : Nat) : Nat :=
  if headerLength + recordLengthChecked cdr > wholeLimit then
    node.fragCountFor (sampleCdrLength cdr)
  else 1

/-- Fragment `index` of the sample under `seqNo`, as `frag_write_header()` and the copy behind it
write it. -/
def fragRecord (node : Context) (seqNo : SeqNo) (cdr : List UInt8) (count index : Nat) : Record :=
  let length := node.fragPayloadLength index (sampleCdrLength cdr)
  let payload := ((padCdr cdr).drop (node.fragPayloadOffset index)).take length
  if index = 0 then .fragFirst seqNo count payload
  else .fragCont (plus seqNo index) index count payload

/-- Arena bytes of fragment `index`. -/
def fragFootprint (node : Context) (cdr : List UInt8) (index : Nat) : Nat :=
  roundup (fragHeaderLength index + node.fragPayloadLength index (sampleCdrLength cdr))

/-- `sample_cache_footprint()`: the arena bytes of the one record, or of every fragment. -/
def sampleCacheFootprint (node : Context) (cdr : List UInt8) (wholeLimit : Nat) : Nat :=
  let count := sampleDatagramCount node cdr wholeLimit
  if count = 1 then recordLengthChecked cdr
  else ((List.range count).map (fragFootprint node cdr)).sum

section Lengths

variable (node : Context)

theorem fragFirstPayload_pos : 0 < node.fragFirstPayload := by
  have := node.control_min
  unfold Context.fragFirstPayload Context.fragContPayload
  omega

theorem fragPayload_first_lt_cont : node.fragFirstPayload < node.fragContPayload := by
  have := node.control_min
  unfold Context.fragFirstPayload Context.fragContPayload
  omega

variable {node} {cdr : List UInt8} {limit : Nat}

/-- A sample over its whole limit has more CDR than its first fragment carries. -/
theorem fragFirstPayload_lt_of_over (hl : node.fragWholeLimit ≤ limit)
    (h : headerLength + recordLengthChecked cdr > limit) :
    node.fragFirstPayload < sampleCdrLength cdr := by
  have := node.control_min
  rw [recordLengthChecked_eq, ← sampleCdrLength_eq] at h
  unfold Context.fragWholeLimit at hl
  unfold Context.fragFirstPayload Context.fragContPayload
  unfold headerLength dataFraming at h
  omega

theorem fragCountFor_ge_two (h : node.fragFirstPayload < sampleCdrLength cdr) :
    2 ≤ node.fragCountFor (sampleCdrLength cdr) := by
  have := node.control_min
  unfold Context.fragCountFor
  have hc : 0 < node.fragContPayload := by unfold Context.fragContPayload; omega
  have : 1 ≤ (sampleCdrLength cdr - node.fragFirstPayload + node.fragContPayload - 1) /
      node.fragContPayload := (Nat.le_div_iff_mul_le hc).mpr (by omega)
  omega

theorem sampleDatagramCount_pos (node : Context) (cdr : List UInt8) (limit : Nat) :
    0 < sampleDatagramCount node cdr limit := by
  unfold sampleDatagramCount Context.fragCountFor
  split
  · exact Nat.add_pos_left Nat.one_pos _
  · exact Nat.one_pos

/-- `link_control_fragments()`: no sample takes more than `tt_FRAG_MAX_COUNT` fragments. -/
theorem sampleDatagramCount_le (h : cdr.length ≤ node.maxSampleLength) :
    sampleDatagramCount node cdr limit ≤ 64 := by
  have hmin := node.control_min
  have hlen : sampleCdrLength cdr ≤ node.maxSampleLength + 3 := by
    have := roundup_le cdr.length
    rw [sampleCdrLength_eq, padCdr_length]
    omega
  unfold sampleDatagramCount
  split
  · unfold Context.fragCountFor Context.fragFirstPayload Context.fragContPayload
    rcases node.fragments_max with h1 | h1
    · rw [Nat.div_eq_of_lt (by omega)]
      omega
    · refine Nat.le_trans (Nat.add_le_add_left (Nat.div_le_div_right ?_) 1) h1
      omega
  · omega

/-- Every fragment of a sample carries at least one byte of it. -/
theorem fragPayloadOffset_lt {index : Nat} (h : node.fragFirstPayload < sampleCdrLength cdr)
    (hi : index < node.fragCountFor (sampleCdrLength cdr)) :
    node.fragPayloadOffset index < sampleCdrLength cdr := by
  have hc : 0 < node.fragContPayload := by
    have := node.control_min
    unfold Context.fragContPayload
    omega
  unfold Context.fragPayloadOffset
  split
  · omega
  · unfold Context.fragCountFor at hi
    have h1 : index ≤ (sampleCdrLength cdr - node.fragFirstPayload + node.fragContPayload - 1) /
        node.fragContPayload := by omega
    have h2 := (Nat.le_div_iff_mul_le hc).mp h1
    obtain ⟨k, rfl⟩ : ∃ k, index = k + 1 := ⟨index - 1, by omega⟩
    rw [Nat.add_mul] at h2
    simp only [Nat.add_sub_cancel]
    omega

theorem fragPayloadLength_pos {index : Nat} (h : node.fragFirstPayload < sampleCdrLength cdr)
    (hi : index < node.fragCountFor (sampleCdrLength cdr)) :
    0 < node.fragPayloadLength index (sampleCdrLength cdr) := by
  have h1 := fragPayloadOffset_lt h hi
  have h2 := fragFirstPayload_pos node
  have h3 := fragPayload_first_lt_cont node
  simp only [Context.fragPayloadLength]
  split <;> split <;> omega

/-- The cached fragment is as long as its header says. -/
theorem fragRecord_length (seqNo : SeqNo) (count : Nat) {index : Nat} :
    (fragRecord node seqNo cdr count index).length =
      fragHeaderLength index + node.fragPayloadLength index (sampleCdrLength cdr) := by
  have hlen : (((padCdr cdr).drop (node.fragPayloadOffset index)).take
      (node.fragPayloadLength index (sampleCdrLength cdr))).length =
      node.fragPayloadLength index (sampleCdrLength cdr) := by
    rw [List.length_take, List.length_drop, ← sampleCdrLength_eq]
    simp only [Context.fragPayloadLength]
    split <;> split <;> omega
  unfold fragRecord
  split
  · next h0 =>
    subst h0
    rw [Record.length, hlen]
  · next h0 =>
    rw [Record.length, hlen, fragHeaderLength, fragHeaderLength, if_neg h0, if_neg Nat.one_ne_zero]

end Lengths

end Tickle
