import Tickle.Tx.Framing

/-! # A flush after failed ones

What is pending stays in the buffer while flushes of it fail and submessages are encoded behind it. A
later flush sends it as it was put in unless one of the failed ones was of a lone submessage to
everyone: its header is then the single form's, and the datagram it goes out in is read as something
else (`flushed_intact_iff`).
-/

namespace Tickle

/-- What may be tried while every send fails: a flush of everything, a submessage encoded behind it that
may flush first or at once, or a sample whose fragments everything has to go before. -/
inductive TxAttempt where
  | flush (slotBytes : Nat) (reached : Bool)
  | submessage (type receiver : UInt8) (payload : List UInt8) (isFlush : Bool) (slotBytes : Nat)
      (reached : Bool)
  | fragmented (type : UInt8) (payload : List UInt8) (reached : Bool)
  deriving DecidableEq, Repr

def TxBuffer.attempt (ctx : TxContext) (tx : TxBuffer) : TxAttempt → TxBuffer
  | .flush slotBytes reached => (tx.flushTx ctx tx.tail slotBytes ⟨reached, false⟩).tx
  | .submessage type receiver payload isFlush slotBytes reached =>
    (tx.sendSubmessage ctx tx.tail type receiver payload isFlush slotBytes ⟨reached, false⟩).tx
  | .fragmented type payload reached =>
    (tx.sendFragmented ctx tx.tail type payload ⟨reached, false⟩).tx

/-- The submessages encoded and not sent, and whether a failed flush has rewritten the first. -/
structure TxQueue where
  pending : List Submessage
  spoiled : Bool
  deriving DecidableEq, Repr

namespace TxQueue

open TxBuffer (takes placeOf encodedAs lone)

/-- `tx_tail` over these submessages. -/
def tail (ctx : TxContext) (q : TxQueue) : Nat :=
  headerLength + (Submessage.frames ctx.order q.pending).length

/-- A flush of everything fails. -/
def failed (q : TxQueue) : TxQueue := { q with spoiled := q.spoiled || lone q.pending }

def after (ctx : TxContext) (q : TxQueue) : TxAttempt → TxQueue
  | .flush slotBytes _ =>
    if q.pending = [] then q
    else if ctx.recordSizeLimit slotBytes < q.tail ctx then ⟨[], false⟩
    else q.failed
  | .submessage type receiver payload isFlush slotBytes _ =>
    if !takes ctx (q.tail ctx) payload.length slotBytes then q
    else
      match placeOf ctx (q.tail ctx) payload.length slotBytes with
      | .joins =>
        if isFlush then q
        else { q with pending := q.pending ++ [encodedAs ctx (q.tail ctx) type receiver payload slotBytes] }
      | _ => if ctx.recordSizeLimit slotBytes < q.tail ctx then q else q.failed
  | .fragmented _ payload _ =>
    if ctx.txSize ≤ q.tail ctx + submessageHeaderLength + payload.length || q.pending = [] ||
      ctx.recordSizeLimit 0 < q.tail ctx then q
    else q.failed

/-- The bytes the buffer holds for it. -/
def bytes (ctx : TxContext) (q : TxQueue) : List UInt8 :=
  match q.spoiled, q.pending with
  | true, s :: more => singlePacket ctx.order ctx.id s ++ Submessage.frames ctx.order more
  | _, pending => Submessage.frames ctx.order pending

/-- What holds of the queue throughout: a rewritten header was one to everyone. -/
structure Sound (q : TxQueue) : Prop where
  short : ∀ s ∈ q.pending, s.length < 65536
  all : q.spoiled = true → ∃ s more, q.pending = s :: more ∧ s.receiver = toAll

variable {ctx : TxContext} {q : TxQueue}

theorem bytes_length (q : TxQueue) : (q.bytes ctx).length = (Submessage.frames ctx.order q.pending).length := by
  obtain ⟨pending, spoiled⟩ := q
  unfold bytes
  split
  · next s more hspoiled hpending =>
    have first := Submessage.frame_length ctx.order s
    simp only at hpending
    simp only [hpending, Submessage.frames, List.flatMap_cons, List.length_append, first,
      Submessage.length, singlePacket, List.length_cons, List.length_nil, submessageHeaderLength]
  · rfl

/-- A header already rewritten is not taken for one to everyone. -/
theorem spoiled_singlePacket (s : Submessage) (rest : List UInt8) :
    TxBuffer.qualifies ctx.order (packetHeader ctx.order ctx.id ++
      (singlePacket ctx.order ctx.id s ++ rest)) = false := by
  unfold TxBuffer.qualifies
  rw [List.drop_left' (TxBuffer.packetHeader_length ctx.order ctx.id)]
  simp only [singlePacket, List.cons_append, List.nil_append, Bool.and_eq_false_iff,
    decide_eq_false_iff_not]
  exact .inl (by decide)

/-- What a failed flush makes of the bytes. -/
theorem spoiled_bytes (h : q.Sound) (some : q.pending ≠ []) :
    TxBuffer.spoiled ctx (q.bytes ctx) = (q.failed).bytes ctx := by
  cases hspoiled : q.spoiled with
  | true =>
    obtain ⟨s, more, hpending, -⟩ := h.all hspoiled
    simp only [bytes, failed, hspoiled, hpending, Bool.true_or]
    rw [TxBuffer.spoiled, spoiled_singlePacket]
    rfl
  | false =>
    simp only [bytes, failed, hspoiled, Bool.false_or]
    cases hlone : lone q.pending with
    | false =>
      rw [TxBuffer.spoiled_frames h.short hlone some]
    | true =>
      unfold TxBuffer.lone at hlone
      split at hlone
      · next s hpending =>
        rw [hpending, TxBuffer.spoiled_frame (h.short s (by simp [hpending])) (by simpa using hlone)]
        simp [Submessage.frames]
      · simp at hlone

theorem Sound.failed (h : q.Sound) : (q.failed).Sound where
  short := h.short
  all := by
    intro spoiled
    simp only [TxQueue.failed, Bool.or_eq_true] at spoiled
    obtain before | alone := spoiled
    · exact h.all before
    · unfold TxBuffer.lone at alone
      split at alone
      · next s hpending => exact ⟨s, [], hpending, by simpa using alone⟩
      · simp at alone

theorem bytes_append (h : q.Sound) (s : Submessage) :
    bytes ctx { q with pending := q.pending ++ [s] } = q.bytes ctx ++ s.frame ctx.order := by
  cases hspoiled : q.spoiled with
  | true =>
    obtain ⟨first, more, hpending, -⟩ := h.all hspoiled
    simp [bytes, hspoiled, hpending, Submessage.frames]
  | false => simp [bytes, hspoiled, Submessage.frames]

theorem Sound.append (h : q.Sound) {s : Submessage} (short : s.length < 65536) :
    Sound { q with pending := q.pending ++ [s] } where
  short := by
    intro t mem
    obtain before | rfl := List.mem_append.mp mem |>.imp_right List.mem_singleton.mp
    · exact h.short t before
    · exact short
  all := by
    intro spoiled
    obtain ⟨first, more, hpending, all⟩ := h.all spoiled
    exact ⟨first, more ++ [s], by simp [hpending], all⟩

/-- With something in front of it, what comes last is not taken for the only one. -/
theorem spoiled_behind (h : q.Sound) (some : q.pending ≠ []) {s : Submessage} (short : s.length < 65536) :
    TxBuffer.spoiled ctx (q.bytes ctx ++ s.frame ctx.order) = q.bytes ctx ++ s.frame ctx.order := by
  rw [← bytes_append h, spoiled_bytes (h.append short) (by simp)]
  have several : lone (q.pending ++ [s]) = false := by
    cases hpending : q.pending with
    | nil => exact absurd hpending some
    | cons first more =>
      cases more with
      | nil => rfl
      | cons next rest => rfl
  simp [failed, several]

theorem bytes_nil (none : q.pending = []) : q.bytes ctx = [] := by
  have length : (q.bytes ctx).length = _ := bytes_length q
  rw [none] at length
  exact List.length_eq_zero_iff.mp length

theorem bytes_long (some : q.pending ≠ []) : submessageHeaderLength ≤ (q.bytes ctx).length := by
  rw [bytes_length]
  exact TxBuffer.frames_long some ctx.order

/-! ## A failing attempt -/

open TxBuffer (Contains)

variable {tx : TxBuffer}

theorem tail_eq (h : tx.Contains (q.bytes ctx)) : tx.tail = q.tail ctx := by
  rw [h.tail_eq, bytes_length]
  rfl

/-- What joins the pending submessages fits a datagram with them. -/
theorem joins_fits {tail slotBytes : Nat} {payload : List UInt8}
    (joins : placeOf ctx tail payload.length slotBytes = .joins) (type receiver : UInt8) :
    tail + (encodedAs ctx tail type receiver payload slotBytes).length ≤ ctx.recordSizeLimit slotBytes := by
  have control := ctx.control_le
  have padded := le_roundup (submessageHeaderLength + payload.length)
  have length : tail + submessageHeaderLength + payload.length - tail =
      submessageHeaderLength + payload.length := by omega
  have size : (encodedAs ctx tail type receiver payload slotBytes).length =
      roundup (submessageHeaderLength + payload.length) := by
    unfold encodedAs
    rw [joins]
    simp only [Submessage.length, List.length_append, List.length_replicate]
    omega
  rw [size]
  unfold placeOf TxContext.placing at joins
  rw [length] at joins
  have most : (if tail = headerLength then ctx.recordSizeLimit slotBytes else ctx.node.controlMax) ≤
      ctx.recordSizeLimit slotBytes := by
    unfold TxContext.recordSizeLimit
    split <;> omega
  generalize (if tail = headerLength then ctx.recordSizeLimit slotBytes else ctx.node.controlMax) = limit
    at joins most
  by_contra above
  rw [if_neg (by omega)] at joins
  split at joins <;> cases joins

/-- With nothing in front of it a submessage that is taken joins. -/
theorem placeOf_first {size slotBytes : Nat} (taken : takes ctx headerLength size slotBytes = true) :
    placeOf ctx headerLength size slotBytes = .joins := by
  have padded := le_roundup (submessageHeaderLength + size)
  simp only [takes, Bool.and_eq_true, decide_eq_true_eq] at taken
  unfold placeOf TxContext.placing
  have length : headerLength + submessageHeaderLength + size - headerLength =
      submessageHeaderLength + size := by omega
  simp only [length, if_true]
  rw [if_pos (by omega)]

/-- A flush of everything pending that fails. -/
theorem Contains.flush_failed (h : tx.Contains (q.bytes ctx)) (sound : q.Sound) (some : q.pending ≠ [])
    {slotBytes : Nat} (fits : q.tail ctx ≤ ctx.recordSizeLimit slotBytes) (reached : Bool) :
    (tx.flushTx ctx tx.tail slotBytes ⟨reached, false⟩).tx.Contains (q.failed.bytes ctx) := by
  have whole : tx.Contains (q.bytes ctx ++ []) := by simpa using h
  rw [tail_eq h, tail, ← bytes_length] at *
  obtain ⟨left, flushed, contains⟩ := whole.flushTx (bytes_long some) fits ⟨reached, false⟩
  rw [flushed]
  simpa [spoiled_bytes sound some] using contains

theorem after_flush (h : tx.Contains (q.bytes ctx)) (sound : q.Sound) (slotBytes : Nat) (reached : Bool) :
    (tx.attempt ctx (.flush slotBytes reached)).Contains
        ((q.after ctx (.flush slotBytes reached)).bytes ctx) ∧
      (q.after ctx (.flush slotBytes reached)).Sound := by
  simp only [TxBuffer.attempt, after]
  by_cases none : q.pending = []
  · have start : tx.tail = headerLength := by rw [h.tail_eq, bytes_nil none]; rfl
    rw [if_pos none, start, TxBuffer.flushTx_nothing]
    exact ⟨h, sound⟩
  · rw [if_neg none]
    have long : headerLength + submessageHeaderLength ≤ tx.tail := by
      have : submessageHeaderLength ≤ (q.bytes ctx).length := bytes_long none
      rw [h.tail_eq]
      omega
    by_cases fits : ctx.recordSizeLimit slotBytes < q.tail ctx
    · -- a flush over its limit drops what is pending
      rw [if_pos fits]
      rw [← tail_eq h] at fits
      unfold TxBuffer.flushTx
      rw [if_neg (by omega), if_pos fits]
      have front : tx.Contains ([] ++ q.bytes ctx) := h
      exact ⟨front.rollback_front, by simp, by simp⟩
    · rw [if_neg fits]
      exact ⟨Contains.flush_failed h sound none (by omega) reached, sound.failed⟩

/-- The submessage that just joined is flushed with the rest, in vain, and taken out again. -/
theorem Contains.joined_failed {full : TxBuffer} {s : Submessage}
    (h : full.Contains (q.bytes ctx ++ s.frame ctx.order)) (sound : q.Sound) (short : s.length < 65536)
    {slotBytes : Nat} (fits : q.tail ctx + s.length ≤ ctx.recordSizeLimit slotBytes) (reached : Bool) :
    (TxBuffer.settled (q.tail ctx)
      (full.flushTx ctx full.tail slotBytes ⟨reached, false⟩)).tx.Contains (q.bytes ctx) := by
  have whole : full.Contains ((q.bytes ctx ++ s.frame ctx.order) ++ []) := by simpa using h
  have framed := Submessage.frame_length ctx.order s
  have extent : q.tail ctx = headerLength + (q.bytes ctx).length := by rw [bytes_length]; rfl
  have long : submessageHeaderLength ≤ (q.bytes ctx ++ s.frame ctx.order).length := by
    rw [List.length_append, framed, Submessage.length]
    omega
  have within : headerLength + (q.bytes ctx ++ s.frame ctx.order).length ≤ ctx.recordSizeLimit slotBytes := by
    rw [List.length_append, framed]
    omega
  obtain ⟨left, flushed, contains⟩ := whole.flushTx long within ⟨reached, false⟩
  rw [h.tail_eq, flushed]
  simp only [TxBuffer.settled, Bool.false_eq_true, if_false, List.append_nil] at contains ⊢
  rw [extent]
  by_cases none : q.pending = []
  · rw [bytes_nil none]
    have front : left.Contains ([] ++ _) := contains
    exact front.rollback_front
  · rw [spoiled_behind sound none short] at contains
    exact contains.rollback_front

/-- What is pending is flushed in front of a submessage, in vain, and the submessage taken out again. -/
theorem Contains.behind_failed {full : TxBuffer} {back : List UInt8}
    (h : full.Contains (q.bytes ctx ++ back)) (sound : q.Sound) (some : q.pending ≠ [])
    (slotBytes : Nat) (reached : Bool) :
    (TxBuffer.settled (q.tail ctx)
      (full.flushTx ctx (q.tail ctx) slotBytes ⟨reached, false⟩)).tx.Contains
        ((if ctx.recordSizeLimit slotBytes < q.tail ctx then q else q.failed).bytes ctx) := by
  have extent : q.tail ctx = headerLength + (q.bytes ctx).length := by rw [bytes_length]; rfl
  have long : submessageHeaderLength ≤ (q.bytes ctx).length := bytes_long some
  split
  · next above =>
    unfold TxBuffer.flushTx
    rw [if_neg (by omega), if_pos above]
    simp only [TxBuffer.settled, Bool.false_eq_true, if_false, extent]
    exact h.rollback_front
  · next within =>
    have fits : headerLength + (q.bytes ctx).length ≤ ctx.recordSizeLimit slotBytes := by omega
    obtain ⟨left, flushed, contains⟩ := h.flushTx long fits ⟨reached, false⟩
    rw [extent, flushed]
    simp only [TxBuffer.settled, Bool.false_eq_true, if_false] at contains ⊢
    rw [spoiled_bytes sound some] at contains
    have same : (q.bytes ctx).length = (q.failed.bytes ctx).length := by
      rw [bytes_length, bytes_length]
      rfl
    rw [same]
    exact contains.rollback_front

theorem after_submessage (h : tx.Contains (q.bytes ctx)) (sound : q.Sound) (type receiver : UInt8)
    (payload : List UInt8) (isFlush : Bool) (slotBytes : Nat) (reached : Bool) :
    (tx.attempt ctx (.submessage type receiver payload isFlush slotBytes reached)).Contains
        ((q.after ctx (.submessage type receiver payload isFlush slotBytes reached)).bytes ctx) ∧
      (q.after ctx (.submessage type receiver payload isFlush slotBytes reached)).Sound := by
  have start := tail_eq h
  have extent := h.tail_eq
  obtain ⟨refused, left, more, contains, result⟩ | ⟨taken, full, contains, result⟩ :=
    h.sendSubmessage ctx tx.tail type receiver payload isFlush slotBytes ⟨reached, false⟩
  · simp only [TxBuffer.attempt, after]
    rw [result, ← start, refused]
    refine ⟨?_, sound⟩
    rw [extent]
    exact contains.rollback_front
  · have short : (encodedAs ctx tx.tail type receiver payload slotBytes).length < 65536 :=
      TxBuffer.encodedAs_length_lt taken
    simp only [TxBuffer.attempt, after]
    rw [result, ← start, taken]
    simp only [Bool.not_true, Bool.false_eq_true, if_false]
    by_cases joins : placeOf ctx tx.tail payload.length slotBytes = .joins
    · simp only [joins]
      cases isFlush with
      | false =>
        simp only [Bool.false_eq_true, if_false, TxBuffer.settled, if_true]
        exact ⟨by rw [bytes_append sound]; exact contains, sound.append short⟩
      | true =>
        simp only [if_true]
        refine ⟨?_, sound⟩
        have fits := joins_fits joins type receiver
        rw [start] at contains fits short ⊢
        exact Contains.joined_failed contains sound short fits reached
    · -- what is taken behind nothing joins
      have some : q.pending ≠ [] := by
        intro none
        rw [extent, bytes_nil none] at joins taken
        exact joins (placeOf_first taken)
      have flushed := Contains.behind_failed contains sound some slotBytes reached
      rw [← start] at flushed
      cases place : placeOf ctx tx.tail payload.length slotBytes with
      | joins => exact absurd place joins
      | unpadded =>
        simp only
        refine ⟨flushed, ?_⟩
        split
        · exact sound
        · exact sound.failed
      | defers =>
        simp only
        refine ⟨flushed, ?_⟩
        split
        · exact sound
        · exact sound.failed

theorem flushTx_fails {len : Nat} (long : headerLength + submessageHeaderLength ≤ len) (slotBytes : Nat)
    (reached : Bool) : (tx.flushTx ctx len slotBytes ⟨reached, false⟩).ok = false := by
  unfold TxBuffer.flushTx
  rw [if_neg (by omega)]
  split <;> rfl

theorem after_fragmented (h : tx.Contains (q.bytes ctx)) (sound : q.Sound) (type : UInt8)
    (payload : List UInt8) (reached : Bool) :
    (tx.attempt ctx (.fragmented type payload reached)).Contains
        ((q.after ctx (.fragmented type payload reached)).bytes ctx) ∧
      (q.after ctx (.fragmented type payload reached)).Sound := by
  have start := tail_eq h
  have extent := h.tail_eq
  simp only [TxBuffer.attempt, after, TxBuffer.sendFragmented]
  obtain ⟨refused, room⟩ | ⟨full, encoded, opens, writes, contains⟩ := h.encoded ctx type toAll payload
  · rw [refused]
    simp only [← start]
    have above : ctx.txSize ≤ tx.tail + submessageHeaderLength + payload.length := by omega
    rw [if_pos (by simp [above])]
    refine ⟨?_, sound⟩
    have front : tx.Contains (q.bytes ctx ++ []) := by simpa using h
    rw [extent]
    exact front.rollback_front
  · rw [encoded]
    simp only [← start]
    have below : ¬ ctx.txSize ≤ tx.tail + submessageHeaderLength + payload.length := by omega
    have padded := contains.pad (roundup (full.tail - tx.tail) - (full.tail - tx.tail))
    rw [List.append_assoc] at padded
    by_cases none : q.pending = []
    · have empty : ¬ headerLength < tx.tail := by
        rw [extent, bytes_nil none]
        simp
      rw [if_neg empty, if_pos (by simp [none])]
      refine ⟨?_, sound⟩
      have back := padded.rollback_front
      rw [← extent] at back
      exact back
    · have long : submessageHeaderLength ≤ (q.bytes ctx).length := bytes_long none
      have long' : headerLength + submessageHeaderLength ≤ tx.tail := by omega
      have pending : headerLength < tx.tail := by
        simp only [submessageHeaderLength] at long
        omega
      have flushed := Contains.behind_failed padded sound none 0 reached
      rw [← start] at flushed
      have condition : (decide (ctx.txSize ≤ tx.tail + submessageHeaderLength + payload.length) ||
          decide (q.pending = []) || decide (ctx.recordSizeLimit 0 < tx.tail)) =
          decide (ctx.recordSizeLimit 0 < tx.tail) := by simp [below, none]
      rw [if_pos pending, condition]
      simp only [decide_eq_true_eq]
      refine ⟨?_, ?_⟩
      · unfold TxBuffer.settled at flushed
        rw [flushTx_fails long'] at flushed ⊢
        exact flushed
      · split
        · exact sound
        · exact sound.failed

/-- What a failing attempt leaves. -/
theorem after_attempt (h : tx.Contains (q.bytes ctx)) (sound : q.Sound) (a : TxAttempt) :
    (tx.attempt ctx a).Contains ((q.after ctx a).bytes ctx) ∧ (q.after ctx a).Sound := by
  cases a with
  | flush slotBytes reached => exact after_flush h sound slotBytes reached
  | submessage type receiver payload isFlush slotBytes reached =>
    exact after_submessage h sound type receiver payload isFlush slotBytes reached
  | fragmented type payload reached => exact after_fragmented h sound type payload reached

/-- What any number of them leaves. -/
theorem after_attempts (h : tx.Contains (q.bytes ctx)) (sound : q.Sound) (attempts : List TxAttempt) :
    (Run.after (TxBuffer.attempt ctx) tx attempts).Contains
        ((Run.after (after ctx) q attempts).bytes ctx) ∧
      (Run.after (after ctx) q attempts).Sound := by
  induction attempts generalizing tx q with
  | nil => exact ⟨h, sound⟩
  | cons a rest ih =>
    obtain ⟨contains, kept⟩ := after_attempt h sound a
    exact ih contains kept

/-! ## A later flush -/

/-- A receiver that finds a submessage takes its receiver from the second byte. -/
theorem processPacket_second {order : ByteOrder} {id type receiver : UInt8} {rest : List UInt8}
    {source : UInt8} {first : Submessage} {more : List Submessage}
    (read : processPacket (packetHeader order id ++ (type :: receiver :: rest)) =
      some (source, first :: more)) : first.receiver = receiver := by
  have walked : ∃ fuel, walk order fuel (type :: receiver :: rest) = some (first :: more) := by
    cases order with
    | little =>
      simp only [packetHeader, ByteOrder.magic, List.cons_append, List.nil_append, processPacket] at read
      rw [if_neg (by decide), if_neg (by simp), if_pos (by decide), Option.map_eq_some_iff] at read
      obtain ⟨found, walked, same⟩ := read
      cases same
      exact ⟨_, walked⟩
    | big =>
      simp only [packetHeader, ByteOrder.magic, List.cons_append, List.nil_append, processPacket] at read
      rw [if_neg (by decide), if_neg (by simp), if_neg (by decide), if_pos (by decide),
        Option.map_eq_some_iff] at read
      obtain ⟨found, walked, same⟩ := read
      cases same
      exact ⟨_, walked⟩
  obtain ⟨fuel, walked⟩ := walked
  unfold walk at walked
  split at walked
  · simp at walked
  · next heq =>
    cases heq
    dsimp only at walked
    split at walked
    · cases walked
    · obtain ⟨found, -, same⟩ := Option.map_eq_some_iff.mp walked
      cases same
      rfl
  · cases walked

/-- A datagram made from the rewritten header is not read as what was encoded. -/
theorem spoiled_misread (sound : q.Sound) (spoiled : q.spoiled = true) :
    processPacket (TxBuffer.datagramOf ctx (q.bytes ctx)) ≠ some (ctx.id, q.pending) := by
  obtain ⟨s, more, hpending, all⟩ := sound.all spoiled
  have bytes_eq : q.bytes ctx = singlePacket ctx.order ctx.id s ++ Submessage.frames ctx.order more := by
    simp only [bytes, spoiled, hpending]
  unfold TxBuffer.datagramOf
  rw [bytes_eq, spoiled_singlePacket, hpending]
  intro read
  have receiver := processPacket_second read
  rw [all] at receiver
  exact absurd receiver (by decide)

/-- After any failing attempts, what a flush of the pending submessages sends is read as these exactly
when no failed flush has rewritten the first of them. -/
theorem flushed_intact_iff (ctx : TxContext) {tx : TxBuffer} {pending : List Submessage}
    (h : tx.Contains (Submessage.frames ctx.order pending)) (short : ∀ s ∈ pending, s.length < 65536)
    (attempts : List TxAttempt) (slotBytes : Nat)
    (some_pending : (Run.after (after ctx) ⟨pending, false⟩ attempts).pending ≠ [])
    (fits : (Run.after (after ctx) ⟨pending, false⟩ attempts).tail ctx ≤ ctx.recordSizeLimit slotBytes) :
    (((Run.after (TxBuffer.attempt ctx) tx attempts).flushTx ctx
        (Run.after (TxBuffer.attempt ctx) tx attempts).tail slotBytes Sends.fine).datagram.bind
        processPacket =
      some (ctx.id, (Run.after (after ctx) ⟨pending, false⟩ attempts).pending)) ↔
      (Run.after (after ctx) ⟨pending, false⟩ attempts).spoiled = false := by
  have start : tx.Contains (bytes ctx ⟨pending, false⟩) := h
  obtain ⟨contains, sound⟩ := after_attempts start ⟨short, by simp⟩ attempts
  generalize Run.after (TxBuffer.attempt ctx) tx attempts = tx at *
  generalize Run.after (after ctx) ⟨pending, false⟩ attempts = q at *
  have whole : tx.Contains (q.bytes ctx ++ []) := by simpa using contains
  have within : headerLength + (q.bytes ctx).length ≤ ctx.recordSizeLimit slotBytes := by
    rw [bytes_length]
    exact fits
  obtain ⟨left, flushed, -⟩ := whole.flushTx (bytes_long some_pending) within Sends.fine
  rw [contains.tail_eq, flushed]
  simp only [Sends.fine, if_true, Option.bind_some]
  constructor
  · intro read
    by_contra rewritten
    exact spoiled_misread sound (by simpa using rewritten) read
  · intro intact
    have bytes_eq : q.bytes ctx = Submessage.frames ctx.order q.pending := by
      simp only [bytes, intact]
    rw [bytes_eq]
    exact (TxBuffer.datagramOf_frames some_pending sound.short).processPacket sound.short

/-- A link of 548 bytes a datagram, from a little-endian host with context id 5. -/
def smallSender : TxContext where
  node := ⟨548, 4000, smallest_control, smallest_samples, smallest_fragments⟩
  maxBufferLength := 548
  order := .little
  id := 5
  control_le := by decide
  buffer_le := by decide

/-- A HEARTBEAT to everyone. -/
def heartbeat : Submessage := ⟨6, toAll, [1, 2, 3, 4, 5, 6, 7, 8]⟩

/-- An ACKNACK to context 9. -/
def acknack : Submessage := ⟨3, 9, [1, 2, 3, 4]⟩

/-- The buffer of `smallSender` with these pending. -/
def holding (pending : List Submessage) : TxBuffer :=
  ⟨List.replicate headerLength 0 ++ Submessage.frames .little pending,
    headerLength + (Submessage.frames .little pending).length⟩

theorem holding_contains (pending : List Submessage) :
    (holding pending).Contains (Submessage.frames .little pending) :=
  ⟨List.replicate headerLength 0, [], by simp [holding], by simp, rfl⟩

theorem flushed_intact_pair :
    (((Run.after (TxBuffer.attempt smallSender) (holding [heartbeat, acknack])
          [.flush 0 false, .submessage 2 toAll [7] false 0 false, .flush 0 true]).flushTx smallSender
        (Run.after (TxBuffer.attempt smallSender) (holding [heartbeat, acknack])
          [.flush 0 false, .submessage 2 toAll [7] false 0 false, .flush 0 true]).tail 0
        Sends.fine).datagram.bind processPacket =
      some (5, [heartbeat, acknack, ⟨2, toAll, [7, 0, 0, 0]⟩])) := by
  apply (flushed_intact_iff smallSender (holding_contains [heartbeat, acknack]) (by decide)
    [.flush 0 false, .submessage 2 toAll [7] false 0 false, .flush 0 true] 0 (by decide) (by decide)).mpr
  decide

/-- A lone HEARTBEAT whose flush fails: the next one sends it behind a header of its own with the single
form's in the place of the submessage's, and no receiver finds a submessage in it. -/
theorem flush_after_failed_misread :
    (((holding [heartbeat]).attempt smallSender (.flush 0 false)).flushTx smallSender
        ((holding [heartbeat]).attempt smallSender (.flush 0 false)).tail 0 Sends.fine).datagram =
      some [0x4b, 0x54, 14, 5, 0x6b, 14, 5, 6, 1, 2, 3, 4, 5, 6, 7, 8] ∧
    processPacket [0x4b, 0x54, 14, 5, 0x6b, 14, 5, 6, 1, 2, 3, 4, 5, 6, 7, 8] ≠ some (5, [heartbeat]) := by
  decide +kernel

end TxQueue

end Tickle
