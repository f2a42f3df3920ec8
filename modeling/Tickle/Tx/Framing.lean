import Tickle.Run
import Tickle.Tx.Buffer

/-! # What a flush leaves and what it sends

Seen as bytes, a flush takes the first of them away, or leaves them all when its sends fail. All but the
four it has rewritten: a datagram of one submessage to everyone is put into the single form in the
buffer itself (`flushTx_failed`).
-/

namespace Tickle

theorem overwrite_middle (front old back written : List UInt8) (same : written.length = old.length) :
    overwrite (front ++ (old ++ back)) front.length written = front ++ (written ++ back) := by
  simp [overwrite, same, List.drop_append]

theorem overwrite_end (front stale written : List UInt8) :
    overwrite (front ++ stale) front.length written = front ++ (written ++ stale.drop written.length) := by
  simp [overwrite, List.drop_append]

namespace TxBuffer

variable {ctx : TxContext} {tx : TxBuffer} {c : List UInt8}

/-- The buffer's content is `c`. -/
def Contains (tx : TxBuffer) (c : List UInt8) : Prop :=
  ∃ header stale, tx.bytes = header ++ (c ++ stale) ∧ header.length = headerLength ∧
    tx.tail = headerLength + c.length

theorem create_contains (ctx : TxContext) : (create ctx).Contains [] := by
  refine ⟨List.replicate headerLength 0, List.replicate (ctx.txSize - headerLength) 0, ?_, by simp, rfl⟩
  simp only [create, List.nil_append, List.replicate_append_replicate]
  congr 1
  simp only [TxContext.txSize, headerLength]
  omega

theorem Contains.encode (h : tx.Contains c) {written : List UInt8} {tx' : TxBuffer}
    (encoded : tx.encode ctx written = some tx') : tx'.Contains (c ++ written) := by
  obtain ⟨header, stale, bytes, size, tail⟩ := h
  unfold TxBuffer.encode at encoded
  split at encoded
  · simp at encoded
  · cases encoded
    refine ⟨header, stale.drop written.length, ?_, size, ?_⟩
    · have front : tx.tail = (header ++ c).length := by simp [tail, size]
      have whole : tx.bytes = (header ++ c) ++ stale := by simp [bytes]
      simp only
      rw [whole, front, overwrite_end]
      simp
    · simp only [tail, List.length_append]
      omega

theorem Contains.rollback_front {front back : List UInt8} (h : tx.Contains (front ++ back)) :
    (tx.rollback (headerLength + front.length)).Contains front := by
  obtain ⟨header, stale, bytes, size, -⟩ := h
  exact ⟨header, back ++ stale, by simp [TxBuffer.rollback, bytes], size, rfl⟩

theorem Contains.pad (h : tx.Contains c) (n : Nat) :
    Contains ⟨overwrite tx.bytes tx.tail (List.replicate n 0), tx.tail + n⟩
      (c ++ List.replicate n 0) := by
  obtain ⟨header, stale, bytes, size, tail⟩ := h
  refine ⟨header, stale.drop n, ?_, size, ?_⟩
  · have front : tx.tail = (header ++ c).length := by simp [tail, size]
    have whole : tx.bytes = (header ++ c) ++ stale := by simp [bytes]
    simp only
    rw [whole, front, overwrite_end]
    simp
  · simp only [tail, List.length_append, List.length_replicate]
    omega

/-- Padding written past the end is not content yet. -/
theorem Contains.padding (h : tx.Contains c) (n : Nat) :
    Contains { tx with bytes := overwrite tx.bytes tx.tail (List.replicate n 0) } c := by
  have padded := h.pad n
  obtain ⟨header, stale, bytes, size, -⟩ := padded
  obtain ⟨-, -, -, -, tail⟩ := h
  exact ⟨header, List.replicate n 0 ++ stale, by simpa using bytes, size, tail⟩

/-- The length field of the submessage that starts behind `before` is written. -/
theorem Contains.setLength {before rest : List UInt8} {type receiver a b : UInt8}
    (h : tx.Contains (before ++ (type :: receiver :: a :: b :: rest))) (ctx : TxContext) (length : Nat) :
    (tx.setLength ctx (headerLength + before.length) length).Contains
      (before ++ (type :: receiver :: (ctx.order.put16 length ++ rest))) := by
  obtain ⟨header, stale, bytes, size, tail⟩ := h
  have room := ByteOrder.put16_length ctx.order length
  refine ⟨header, stale, ?_, size, ?_⟩
  · have start : headerLength + before.length + 2 = (header ++ before ++ [type, receiver]).length := by
      simp [size]
      omega
    have whole : tx.bytes = (header ++ before ++ [type, receiver]) ++ ([a, b] ++ (rest ++ stale)) := by
      simp [bytes]
    simp only [TxBuffer.setLength]
    rw [whole, start, overwrite_middle _ _ _ _ room]
    simp
  · simp only [TxBuffer.setLength, tail, List.length_append, List.length_cons, room]
    omega

/-! ## A flush -/

/-- The bytes of a failed flush as it leaves them. -/
def spoiled (ctx : TxContext) (c : List UInt8) : List UInt8 :=
  if qualifies ctx.order (packetHeader ctx.order ctx.id ++ c) then
    [ctx.order.marker, version, ctx.id, c.getD 0 0] ++ c.drop submessageHeaderLength
  else c

/-- The datagram that carries them. -/
def datagramOf (ctx : TxContext) (c : List UInt8) : List UInt8 :=
  if qualifies ctx.order (packetHeader ctx.order ctx.id ++ c) then spoiled ctx c
  else packetHeader ctx.order ctx.id ++ c

theorem packetHeader_length (order : ByteOrder) (id : UInt8) :
    (packetHeader order id).length = headerLength := by
  cases order <;> rfl

theorem packetHeader_getD (order : ByteOrder) (id : UInt8) (rest : List UInt8) :
    (packetHeader order id ++ rest).getD 2 0 = version ∧ (packetHeader order id ++ rest).getD 3 0 = id := by
  cases order <;> exact ⟨rfl, rfl⟩

theorem spoiled_length {c : List UInt8} (long : submessageHeaderLength ≤ c.length) :
    (spoiled ctx c).length = c.length := by
  unfold spoiled
  split
  · simp only [submessageHeaderLength, List.cons_append, List.nil_append, List.length_cons,
      List.length_drop] at long ⊢
    omega
  · rfl

/-- `to_single_form()` of a buffer that starts with the header and `front`. -/
theorem toSingleForm_eq (front back : List UInt8) (long : submessageHeaderLength ≤ front.length) :
    toSingleForm ctx (packetHeader ctx.order ctx.id ++ (front ++ back)) (headerLength + front.length) =
      (packetHeader ctx.order ctx.id ++ (spoiled ctx front ++ back),
        if qualifies ctx.order (packetHeader ctx.order ctx.id ++ front) then headerLength else 0) := by
  have size := packetHeader_length ctx.order ctx.id
  have taken : (packetHeader ctx.order ctx.id ++ (front ++ back)).take (headerLength + front.length) =
      packetHeader ctx.order ctx.id ++ front := by
    rw [← List.append_assoc, List.take_left' (by simp [size])]
  unfold toSingleForm spoiled
  rw [taken]
  split
  · obtain ⟨one, two⟩ := packetHeader_getD ctx.order ctx.id (front ++ back)
    obtain ⟨first, second, third, fourth, rest, rfl⟩ :
        ∃ first second third fourth rest, front = first :: second :: third :: fourth :: rest := by
      match front, long with
      | first :: second :: third :: fourth :: rest, _ => exact ⟨_, _, _, _, _, rfl⟩
    have lead : (packetHeader ctx.order ctx.id ++ (first :: second :: third :: fourth :: rest ++ back)).getD
        headerLength 0 = first := by
      rw [List.getD_append_right _ _ _ _ (le_of_eq size), size]
      rfl
    rw [one, two, lead]
    have wrote := overwrite_middle (packetHeader ctx.order ctx.id) [first, second, third, fourth]
      (rest ++ back) [ctx.order.marker, version, ctx.id, first] rfl
    rw [size] at wrote
    have apart : first :: second :: third :: fourth :: rest ++ back =
        [first, second, third, fourth] ++ (rest ++ back) := by simp
    rw [apart, wrote]
    simp [submessageHeaderLength]
  · rfl

/-- What a flush of the front of the content leaves and sends. -/
theorem Contains.flushTx {front back : List UInt8} (h : tx.Contains (front ++ back))
    (long : submessageHeaderLength ≤ front.length) {slotBytes : Nat}
    (fits : headerLength + front.length ≤ ctx.recordSizeLimit slotBytes) (sends : Sends) :
    ∃ left, tx.flushTx ctx (headerLength + front.length) slotBytes sends =
        ⟨left, if sends.reached then some (datagramOf ctx front) else none, sends.ok⟩ ∧
      left.Contains (if sends.ok then back else spoiled ctx front ++ back) := by
  obtain ⟨header, stale, bytes, size, tail⟩ := h
  have full := packetHeader_length ctx.order ctx.id
  have headed : overwrite tx.bytes 0 (packetHeader ctx.order ctx.id) =
      packetHeader ctx.order ctx.id ++ (front ++ (back ++ stale)) := by
    have wrote := overwrite_middle [] header (front ++ back ++ stale) (packetHeader ctx.order ctx.id)
      (full.trans size.symm)
    simpa [bytes] using wrote
  have sent : ((packetHeader ctx.order ctx.id ++ (spoiled ctx front ++ (back ++ stale))).take
      (headerLength + front.length)).drop
        (if qualifies ctx.order (packetHeader ctx.order ctx.id ++ front) then headerLength else 0) =
      datagramOf ctx front := by
    rw [← List.append_assoc, List.take_left' (by simp [full, spoiled_length long])]
    unfold datagramOf
    split
    · rw [List.drop_left' full]
    · next classic =>
      rw [List.drop_zero, spoiled, if_neg classic]
  unfold TxBuffer.flushTx
  rw [if_neg (by omega), if_neg (by omega), headed]
  dsimp only
  rw [toSingleForm_eq _ _ long]
  simp only [sent]
  cases hok : sends.ok with
  | false =>
    refine ⟨⟨packetHeader ctx.order ctx.id ++ (spoiled ctx front ++ (back ++ stale)), tx.tail⟩, rfl,
      packetHeader ctx.order ctx.id, stale, by simp, full, ?_⟩
    simp [tail, spoiled_length long]
  | true =>
    have rest : ((packetHeader ctx.order ctx.id ++ (spoiled ctx front ++ (back ++ stale))).take tx.tail).drop
        (headerLength + front.length) = back := by
      rw [tail, show packetHeader ctx.order ctx.id ++ (spoiled ctx front ++ (back ++ stale)) =
        (packetHeader ctx.order ctx.id ++ spoiled ctx front ++ back) ++ stale by simp,
        List.take_left' (by simp [full, spoiled_length long]),
        List.drop_left' (by simp [full, spoiled_length long])]
    have wrote := overwrite_end (packetHeader ctx.order ctx.id) (spoiled ctx front ++ (back ++ stale)) back
    rw [full] at wrote
    refine ⟨⟨packetHeader ctx.order ctx.id ++
        (back ++ List.drop back.length (spoiled ctx front ++ (back ++ stale))),
        headerLength + (tx.tail - (headerLength + front.length))⟩, by simp [rest, wrote],
      packetHeader ctx.order ctx.id, _, rfl, full, ?_⟩
    simp only [tail, List.length_append, if_true]
    omega

theorem flushTx_nothing (sends : Sends) (slotBytes : Nat) :
    tx.flushTx ctx headerLength slotBytes sends = ⟨tx, none, true⟩ := by
  simp [TxBuffer.flushTx, headerLength, submessageHeaderLength]

/-! ## A submessage -/

/-- Whether the submessage has room in the buffer and can be sent at all. -/
def takes (ctx : TxContext) (tail size slotBytes : Nat) : Bool :=
  tail + submessageHeaderLength < ctx.txSize && tail + submessageHeaderLength + size < ctx.txSize &&
    headerLength + roundup (submessageHeaderLength + size) ≤ ctx.recordSizeLimit slotBytes

/-- The place of a submessage behind `tail`. -/
def placeOf (ctx : TxContext) (tail size slotBytes : Nat) : Placing :=
  ctx.placing tail (tail + submessageHeaderLength + size) slotBytes

/-- The submessage as it is encoded behind `tail`: with zeros up to a multiple of 4, or without. -/
def encodedAs (ctx : TxContext) (tail : Nat) (type receiver : UInt8) (payload : List UInt8)
    (slotBytes : Nat) : Submessage :=
  match placeOf ctx tail payload.length slotBytes with
  | .unpadded => ⟨type, receiver, payload⟩
  | _ =>
    ⟨type, receiver, payload ++
      List.replicate (roundup (submessageHeaderLength + payload.length) -
        (submessageHeaderLength + payload.length)) 0⟩

/-- A failure goes back to `oldTail`. -/
def settled (oldTail : Nat) (result : TxResult) : TxResult :=
  if result.ok then result else { result with tx := result.tx.rollback oldTail }

theorem recordSizeLimit_lt (ctx : TxContext) (slotBytes : Nat) : ctx.recordSizeLimit slotBytes < 65536 := by
  have := ctx.buffer_le
  have := ctx.node.sample_max
  unfold TxContext.recordSizeLimit
  omega

variable {type receiver : UInt8} {payload : List UInt8} {slotBytes : Nat}

theorem encodedAs_length_lt (takes : takes ctx tx.tail payload.length slotBytes = true) :
    (encodedAs ctx tx.tail type receiver payload slotBytes).length < 65536 := by
  have limit := recordSizeLimit_lt ctx slotBytes
  have small := le_roundup (submessageHeaderLength + payload.length)
  simp only [TxBuffer.takes, Bool.and_eq_true, decide_eq_true_eq] at takes
  unfold encodedAs Submessage.length
  split <;> simp only [List.length_append, List.length_replicate] <;> omega

/-- The content with the submessage encoded behind it, before it is ended. -/
theorem Contains.encoded (h : tx.Contains c) (ctx : TxContext) (type receiver : UInt8) (payload : List UInt8) :
    ((tx.startEncode ctx type receiver).bind (·.encode ctx payload) = none ∧
      ¬ (tx.tail + submessageHeaderLength < ctx.txSize ∧
        tx.tail + submessageHeaderLength + payload.length < ctx.txSize)) ∨
    ∃ full, (tx.startEncode ctx type receiver).bind (·.encode ctx payload) = some full ∧
      tx.tail + submessageHeaderLength < ctx.txSize ∧
      tx.tail + submessageHeaderLength + payload.length < ctx.txSize ∧
      full.Contains (c ++ (type :: receiver :: 0 :: 0 :: payload)) := by
  by_cases opens : tx.tail + submessageHeaderLength < ctx.txSize
  · have started : tx.startEncode ctx type receiver =
        some ⟨overwrite tx.bytes tx.tail [type, receiver, 0, 0], tx.tail + submessageHeaderLength⟩ := by
      unfold startEncode TxBuffer.encode
      rw [if_neg (by simpa [submessageHeaderLength] using opens)]
      rfl
    by_cases writes : tx.tail + submessageHeaderLength + payload.length < ctx.txSize
    · have written : TxBuffer.encode
          ⟨overwrite tx.bytes tx.tail [type, receiver, 0, 0], tx.tail + submessageHeaderLength⟩ ctx payload =
          some ⟨_, _⟩ := if_neg (by simpa using writes)
      refine .inr ⟨_, by rw [started]; exact written, opens, writes, ?_⟩
      simpa using (h.encode started).encode written
    · refine .inl ⟨?_, fun both => writes both.2⟩
      rw [started]
      exact if_pos (by simpa using writes)
  · refine .inl ⟨?_, fun both => opens both.1⟩
    have started : tx.startEncode ctx type receiver = none :=
      if_pos (by simpa [submessageHeaderLength] using opens)
    rw [started]
    rfl

theorem Contains.tail_eq (h : tx.Contains c) : tx.tail = headerLength + c.length := by
  obtain ⟨-, -, -, -, tail⟩ := h
  exact tail

/-- A submessage encoded behind `c` is ended. -/
theorem Contains.endEncode {encoded : TxBuffer} {type receiver a b : UInt8} {payload : List UInt8}
    (h : encoded.Contains (c ++ (type :: receiver :: a :: b :: payload))) {base : Nat}
    (behind : base = headerLength + c.length) (isFlush : Bool) {slotBytes : Nat}
    (fits : headerLength + roundup (submessageHeaderLength + payload.length) ≤
      ctx.recordSizeLimit slotBytes) (sends : Sends) :
    ∃ full : TxBuffer,
      full.Contains (c ++ (encodedAs ctx base type receiver payload slotBytes).frame ctx.order) ∧
      encoded.endEncode ctx base isFlush slotBytes sends =
        match placeOf ctx base payload.length slotBytes with
        | .joins => if isFlush then full.flushTx ctx full.tail slotBytes sends else ⟨full, none, true⟩
        | _ => full.flushTx ctx base slotBytes sends := by
  have tail : encoded.tail = base + submessageHeaderLength + payload.length := by
    rw [h.tail_eq, behind]
    simp only [List.length_append, List.length_cons, submessageHeaderLength]
    omega
  have length : encoded.tail - base = submessageHeaderLength + payload.length := by omega
  have most := le_roundup (submessageHeaderLength + payload.length)
  have padded : ∀ n, Contains (TxBuffer.setLength
      ⟨overwrite encoded.bytes encoded.tail (List.replicate n 0), encoded.tail + n⟩ ctx base
        (submessageHeaderLength + payload.length + n))
      (c ++ (Submessage.mk type receiver (payload ++ List.replicate n 0)).frame ctx.order) := by
    intro n
    have zeros := h.pad n
    rw [List.append_assoc] at zeros
    have written := Contains.setLength zeros ctx (submessageHeaderLength + payload.length + n)
    simpa [Submessage.frame, Submessage.length, behind, Nat.add_assoc] using written
  have bare : Contains (TxBuffer.setLength
      { encoded with bytes := overwrite encoded.bytes encoded.tail (List.replicate
        (roundup (submessageHeaderLength + payload.length) - (submessageHeaderLength + payload.length)) 0) }
        ctx base (submessageHeaderLength + payload.length))
      (c ++ (Submessage.mk type receiver payload).frame ctx.order) := by
    have written := (h.padding (roundup (submessageHeaderLength + payload.length) -
      (submessageHeaderLength + payload.length))).setLength ctx
      (submessageHeaderLength + payload.length)
    simpa [Submessage.frame, Submessage.length, behind] using written
  unfold TxBuffer.endEncode encodedAs placeOf
  rw [length, if_neg (by omega), tail]
  dsimp only
  rw [← tail]
  cases ctx.placing base encoded.tail slotBytes with
  | joins => exact ⟨_, padded _, rfl⟩
  | unpadded => exact ⟨_, bare, rfl⟩
  | defers => exact ⟨_, padded _, rfl⟩

/-- A submessage is refused before anything is sent, joins what is pending, or goes behind a flush of
it. -/
theorem Contains.sendSubmessage (h : tx.Contains c) (ctx : TxContext) (oldTail : Nat) (type receiver : UInt8)
    (payload : List UInt8) (isFlush : Bool) (slotBytes : Nat) (sends : Sends) :
    (takes ctx tx.tail payload.length slotBytes = false ∧ ∃ (left : TxBuffer) (more : List UInt8),
      left.Contains (c ++ more) ∧
      tx.sendSubmessage ctx oldTail type receiver payload isFlush slotBytes sends =
        ⟨left.rollback oldTail, none, false⟩) ∨
    (takes ctx tx.tail payload.length slotBytes = true ∧ ∃ full : TxBuffer,
      full.Contains (c ++ (encodedAs ctx tx.tail type receiver payload slotBytes).frame ctx.order) ∧
      tx.sendSubmessage ctx oldTail type receiver payload isFlush slotBytes sends =
        settled oldTail (match placeOf ctx tx.tail payload.length slotBytes with
          | .joins => if isFlush then full.flushTx ctx full.tail slotBytes sends else ⟨full, none, true⟩
          | _ => full.flushTx ctx tx.tail slotBytes sends)) := by
  obtain ⟨none_encoded, room⟩ | ⟨encoded, some_encoded, opens, writes, holds⟩ :=
    h.encoded ctx type receiver payload
  · refine .inl ⟨?_, tx, [], by simpa using h, ?_⟩
    · simp only [takes, Bool.and_eq_false_iff, decide_eq_false_iff_not]
      tauto
    · unfold TxBuffer.sendSubmessage
      rw [none_encoded]
  · unfold TxBuffer.sendSubmessage
    rw [some_encoded]
    dsimp only
    by_cases fits : headerLength + roundup (submessageHeaderLength + payload.length) ≤
        ctx.recordSizeLimit slotBytes
    · obtain ⟨full, contains, ended⟩ := holds.endEncode h.tail_eq isFlush fits sends
      refine .inr ⟨by simp [takes, opens, writes, fits], full, contains, ?_⟩
      rw [ended]
      rfl
    · have length : encoded.tail - tx.tail = submessageHeaderLength + payload.length := by
        rw [holds.tail_eq, h.tail_eq]
        simp only [List.length_append, List.length_cons, submessageHeaderLength]
        omega
      have refused : encoded.endEncode ctx tx.tail isFlush slotBytes sends =
          ⟨encoded.rollback tx.tail, none, false⟩ := by
        unfold TxBuffer.endEncode
        rw [length]
        exact if_pos (by omega)
      refine .inl ⟨by simp [takes, fits], encoded, _, holds, ?_⟩
      rw [refused]
      rfl

/-! ## Submessages pending -/

/-- One submessage, to everyone: what goes in the single form. -/
def lone : List Submessage → Bool
  | [s] => s.receiver = toAll
  | _ => false

theorem qualifies_frames {s : Submessage} {more : List Submessage} (short : s.length < 65536)
    (order : ByteOrder) (id : UInt8) :
    qualifies order (packetHeader order id ++ Submessage.frames order (s :: more)) = lone (s :: more) := by
  obtain ⟨a, b, hput, hread⟩ := ByteOrder.read_put16 order short
  have front : Submessage.frames order (s :: more) =
      s.type :: s.receiver :: a :: b :: (s.body ++ Submessage.frames order more) := by
    simp [Submessage.frames, Submessage.frame, hput]
  have size := packetHeader_length order id
  have extent : (packetHeader order id ++ Submessage.frames order (s :: more)).length - headerLength =
      s.length + (Submessage.frames order more).length := by
    rw [List.length_append, size, front]
    simp only [List.length_cons, List.length_append, Submessage.length, submessageHeaderLength]
    omega
  have alone : s.length = s.length + (Submessage.frames order more).length ↔ more = [] := by
    have := Submessage.length_le_frames order more
    constructor
    · intro same
      exact List.length_eq_zero_iff.mp (by omega)
    · rintro rfl
      rfl
  unfold qualifies
  rw [List.drop_left' size, extent, front]
  simp only [hread, alone]
  cases more with
  | nil => simp [lone]
  | cons next rest => simp [lone]

/-- A datagram carries the submessages: their frames behind the header, or the one in the single
form. -/
def Carries (ctx : TxContext) (datagram : List UInt8) (submessages : List Submessage) : Prop :=
  datagram = packet ctx.order ctx.id submessages ∨
    ∃ s, submessages = [s] ∧ s.receiver = toAll ∧ datagram = singlePacket ctx.order ctx.id s

theorem spoiled_frame {s : Submessage} (short : s.length < 65536) (all : s.receiver = toAll) :
    spoiled ctx (Submessage.frames ctx.order [s]) = singlePacket ctx.order ctx.id s := by
  have form := ByteOrder.put16_length ctx.order s.length
  unfold spoiled
  rw [qualifies_frames short, if_pos (by simp [lone, all])]
  obtain ⟨a, b, hput⟩ := List.length_eq_two.mp form
  simp [Submessage.frames, Submessage.frame, hput, submessageHeaderLength, singlePacket]

theorem datagramOf_frames {submessages : List Submessage} (some : submessages ≠ [])
    (short : ∀ s ∈ submessages, s.length < 65536) :
    Carries ctx (datagramOf ctx (Submessage.frames ctx.order submessages)) submessages := by
  cases submessages with
  | nil => exact absurd rfl some
  | cons s more =>
    have first := short s (List.mem_cons_self ..)
    unfold datagramOf
    rw [qualifies_frames first]
    by_cases single : lone (s :: more) = true
    · rw [if_pos single]
      cases more with
      | cons next rest => simp [lone] at single
      | nil =>
        have all : s.receiver = toAll := by simpa [lone] using single
        exact .inr ⟨s, rfl, all, spoiled_frame first all⟩
    · rw [if_neg single]
      exact .inl rfl

/-- A flush that fails leaves the frames as they were unless they are one submessage to everyone. -/
theorem spoiled_frames {submessages : List Submessage} (short : ∀ s ∈ submessages, s.length < 65536)
    (not_lone : lone submessages = false) (some : submessages ≠ []) :
    spoiled ctx (Submessage.frames ctx.order submessages) = Submessage.frames ctx.order submessages := by
  cases submessages with
  | nil => exact absurd rfl some
  | cons s more =>
    unfold spoiled
    rw [qualifies_frames (short s (List.mem_cons_self ..)), if_neg (by simp [not_lone])]

theorem Carries.processPacket {datagram : List UInt8} {submessages : List Submessage}
    (h : Carries ctx datagram submessages) (short : ∀ s ∈ submessages, s.length < 65536) :
    processPacket datagram = some (ctx.id, submessages) := by
  obtain rfl | ⟨s, rfl, all, rfl⟩ := h
  · exact processPacket_packet short ctx.id
  · exact processPacket_singlePacket (short s (List.mem_singleton_self s)) all ctx.id

theorem frames_long {submessages : List Submessage} (some : submessages ≠ []) (order : ByteOrder) :
    submessageHeaderLength ≤ (Submessage.frames order submessages).length := by
  cases submessages with
  | nil => exact absurd rfl some
  | cons s more =>
    have := Submessage.frame_length order s
    simp only [Submessage.frames, List.flatMap_cons, List.length_append, this, Submessage.length]
    omega

end TxBuffer

end Tickle
