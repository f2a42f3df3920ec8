import Tickle.Spans
import Tickle.Tx.Retried
import Tickle.Writer.Held
import Tickle.Writer.Resend

/-! # A late joiner's backlog

A durable Publisher sends a reader it has just matched what it retains: the cache's records by seq_no, and the large ring's
records among them, each before the first of the cache with a higher seq_no. Every retained record has a number here, its place
in all that was ever published, and its seq_no is that number modulo 2^32.
-/

namespace Tickle

open Serial

/-! ## The walk -/

/-- `struct tt_LargeRecord`, as a backlog reads it. -/
structure LargeRecord where
  seqNo : SeqNo
  count : Nat
  retained : Bool
  sent : Bool
  sentNs : Nat
  deriving DecidableEq, Repr

/-- A submessage in tx_buffer: its bytes, and its seq_no when it is one of the publisher's datagrams. -/
structure Batched where
  length : Nat
  seqNo : Option SeqNo
  deriving DecidableEq, Repr

/-- What is batched, and the datagrams handed to the network for the joiner, by their seq_nos. -/
structure Joining where
  batched : List Batched
  handed : List SeqNo
  deriving DecidableEq, Repr

/-- The joiner: what its segment's slots hold, 0 without one, whether the network takes a datagram to it, and the clock as the
record under a seq_no is looked at. -/
structure Joiner where
  slotBytes : Nat
  takes : List SeqNo → Bool
  now : SeqNo → Nat

structure DurablePublisher where
  durable : Bool
  cache : ReliableCache
  /-- `large[]` from `large_head` on. -/
  large : List LargeRecord
  lifespanDurationNs : Nat

namespace Joining

variable (ctx : TxContext) (joiner : Joiner)

/-- `tx_tail` behind these. -/
def tail (batched : List Batched) : Nat := headerLength + (batched.map Batched.length).sum

def carried (batched : List Batched) : List SeqNo := batched.filterMap Batched.seqNo

/-- `flush_tx()` of `front`, with `back` behind it. A failure is rolled back to what was batched before. -/
def flush (s : Joining) (front back : List Batched) : Joining :=
  if tail front < headerLength + submessageHeaderLength then { s with batched := front ++ back }
  else if ctx.recordSizeLimit joiner.slotBytes < tail front then s
  else
    { batched := if joiner.takes (carried front) then back else s.batched
      handed := s.handed ++ carried front }

/-- `encode()` and `end_encode()` of a whole record. One that does not fit behind what is batched stays in its place. -/
def sendWhole (s : Joining) (seqNo : SeqNo) (len : Nat) : Joining :=
  if ctx.txSize ≤ tail s.batched + len then s
  else
    match ctx.placing (tail s.batched) (tail s.batched + len) joiner.slotBytes with
    | .joins => s.flush ctx joiner (s.batched ++ [⟨roundup len, some seqNo⟩]) []
    | .unpadded => s.flush ctx joiner s.batched [⟨len, some seqNo⟩]
    | .defers => s.flush ctx joiner s.batched [⟨roundup len, some seqNo⟩]

/-- `send_fragments()` of a record that was cached whole. -/
def sendFragments (s : Joining) (seqNo : SeqNo) (cdrLen : Nat) : Joining :=
  if cdrLen ≤ ctx.node.fragFirstPayload ∨ ctx.node.maxSampleLength + 3 < cdrLen then s
  else { s with handed := s.handed ++ (List.range (ctx.node.fragCountFor cdrLen)).map (plus seqNo) }

/-- `send_cached_record()`, not addressed. -/
def sendCachedRecord (s : Joining) (len : Nat) : Record → Joining
  | .data seqNo _ =>
    if ctx.recordSizeLimit joiner.slotBytes < headerLength + roundup len then
      s.sendFragments ctx seqNo (len - dataFraming)
    else s.sendWhole ctx joiner seqNo len
  | .fragFirst seqNo _ _ => { s with handed := s.handed ++ [seqNo] }
  | .fragCont seqNo _ _ _ => { s with handed := s.handed ++ [seqNo] }

end Joining

/-- A large record's datagrams, up to one that is not taken. -/
def handUnits (takes : List SeqNo → Bool) : Nat → SeqNo → List SeqNo
  | 0, _ => []
  | n + 1, seqNo => seqNo :: if takes [seqNo] then handUnits takes n (seqNo + 1) else []

/-- `record->retained`, `record->sent`, and not past its lifespan. -/
def LargeRecord.due (record : LargeRecord) (lifespan now : Nat) : Bool :=
  record.retained && record.sent && !(lifespan ≠ 0 && lifespan ≤ now - record.sentNs)

/-- `large_send_backlog_before()`, of the ring from `*next` on: every record there is with no `below`. -/
def largeSendBacklogBefore (joiner : Joiner) (lifespan : Nat) (below : Option SeqNo) :
    List LargeRecord → Joining → List LargeRecord × Joining
  | [], s => ([], s)
  | record :: rest, s =>
    if below.any fun below => 0 ≤ seqDelta record.seqNo below then (record :: rest, s)
    else if record.due lifespan (joiner.now record.seqNo) = false then largeSendBacklogBefore joiner lifespan below rest s
    else
      largeSendBacklogBefore joiner lifespan below rest
        { s with handed := s.handed ++ handUnits joiner.takes record.count record.seqNo }

namespace DurablePublisher

variable (ctx : TxContext) (joiner : Joiner)

/-- One round of the loop of `deliver_durability_backlog()`. -/
def visit (pub : DurablePublisher) (seqNo : SeqNo) (s : List LargeRecord × Joining) : List LargeRecord × Joining :=
  let entry := pub.cache.slot pub.cache.ringDepth seqNo
  if entry.len = 0 ∨ entry.seqNo ≠ seqNo then s
  else if ReliableCache.entryExpired entry (joiner.now seqNo) pub.lifespanDurationNs then s
  else
    let s := largeSendBacklogBefore joiner pub.lifespanDurationNs (some seqNo) s.1 s.2
    (s.1, (pub.cache.arena entry.offset).elim s.2 (s.2.sendCachedRecord ctx joiner entry.len))

def deliverFrom (pub : DurablePublisher) : Nat → SeqNo → List LargeRecord × Joining → List LargeRecord × Joining
  | 0, _, s => s
  | n + 1, seqNo, s =>
    if seqDelta pub.cache.newestSeqNo seqNo < 0 then s
    else pub.deliverFrom n (seqNo + 1) (pub.visit ctx joiner seqNo s)

/-- `deliver_durability_backlog()`, with these submessages batched. -/
def deliverDurabilityBacklog (pub : DurablePublisher) (batched : List Batched) : Joining :=
  if pub.durable = false then ⟨batched, []⟩
  else if pub.cache.ringDepth = 0 then ⟨batched, []⟩
  else
    let s :=
      if pub.cache.retains then
        pub.deliverFrom ctx joiner (steps pub.cache.oldestSeqNo pub.cache.newestSeqNo + 1) pub.cache.oldestSeqNo
          (pub.large, ⟨batched, []⟩)
      else (pub.large, ⟨batched, []⟩)
    (largeSendBacklogBefore joiner pub.lifespanDurationNs none s.1 s.2).2

end DurablePublisher

/-! ## What is due -/

/-- `n` seq_nos from `seqNo` on. -/
def seqNosFrom (seqNo : SeqNo) (n : Nat) : List SeqNo := (List.range n).map (plus seqNo)

/-- The datagrams that a retained record goes as to the joiner. -/
def Held.datagrams (ctx : TxContext) (joiner : Joiner) (held : Held) : Nat :=
  match held.record with
  | some (.data _ cdr) =>
    if ctx.recordSizeLimit joiner.slotBytes < headerLength + roundup held.len then ctx.node.fragCountFor cdr.length else 1
  | _ => 1

/-- The seq_nos that a retained record takes. -/
def Held.extent (node : Context) (held : Held) : Nat :=
  match held.record with
  | some (.data seqNo cdr) => (Record.data seqNo cdr).span node
  | _ => 1

namespace DurablePublisher

variable (ctx : TxContext) (joiner : Joiner)

/-- Not past its lifespan. -/
def fresh (pub : DurablePublisher) (held : Held) : Bool :=
  !ReliableCache.entryExpired (pub.cache.slot pub.cache.ringDepth held.seqNo) (joiner.now held.seqNo)
    pub.lifespanDurationNs

/-- The seq_nos of every datagram that is retained, sent and unexpired: the cache's, then the large ring's. -/
def due (pub : DurablePublisher) : List SeqNo :=
  ((pub.cache.held pub.cache.ringDepth).filter (pub.fresh joiner)).flatMap
      (fun held => seqNosFrom held.seqNo (held.datagrams ctx joiner)) ++
    (pub.large.filter fun record => record.due pub.lifespanDurationNs (joiner.now record.seqNo)).flatMap
      fun record => seqNosFrom record.seqNo record.count

/-- What a publisher retains, each record under its number: numbers are given in the order of publishing, as many as the record
has datagrams, and a DATA is cached padded. -/
structure Published (pub : DurablePublisher) (small : List (Nat × Held)) (large : List (Nat × LargeRecord)) : Prop where
  ranged : pub.cache.Ranged pub.cache.ringDepth
  held : pub.cache.held pub.cache.ringDepth = small.map Prod.snd
  ring : pub.large = large.map Prod.snd
  numbered : ∀ p ∈ small, p.2.seqNo = BitVec.ofNat 32 p.1
  numbered_large : ∀ q ∈ large, q.2.seqNo = BitVec.ofNat 32 q.1
  records : ∀ p ∈ small, ∃ r, p.2.record = some r ∧ r.seqNo = p.2.seqNo ∧ r.length = p.2.len
  padded : ∀ p ∈ small, ∀ seqNo cdr, p.2.record = some (.data seqNo cdr) →
    cdr.length % 4 = 0 ∧ cdr.length ≤ ctx.node.maxSampleLength + 3
  ordered : Spans.Ordered Prod.fst (fun p => p.2.extent ctx.node) small
  ordered_large : Spans.Ordered Prod.fst (fun q => q.2.count) large
  some_ : ∀ q ∈ large, 0 < q.2.count
  apart : ∀ p ∈ small, ∀ q ∈ large, p.1 + p.2.extent ctx.node ≤ q.1 ∨ q.1 + q.2.count ≤ p.1

/-- All that is retained was published within 2^31 datagrams. -/
def Near (small : List (Nat × Held)) (large : List (Nat × LargeRecord)) : Prop :=
  ∃ first, (∀ p ∈ small, first ≤ p.1 ∧ p.1 + p.2.extent ctx.node ≤ first + 2 ^ 31) ∧
    ∀ q ∈ large, first ≤ q.1 ∧ q.1 + q.2.count ≤ first + 2 ^ 31

/-- Every datagram of a large record but its last is taken. -/
def Takes (pub : DurablePublisher) : Prop :=
  ∀ record ∈ pub.large, ∀ i, i + 1 < record.count → joiner.takes [plus record.seqNo i] = true

/-- None of the publisher's own is batched, and what is batched leaves room for any record that goes whole. -/
def Clear (pub : DurablePublisher) (batched : List Batched) : Prop :=
  Joining.carried batched = [] ∧ (batched = [] ∨ ∀ held ∈ pub.cache.held pub.cache.ringDepth, pub.fresh joiner held = true →
    ∀ seqNo cdr, held.record = some (.data seqNo cdr) →
      headerLength + held.len ≤ ctx.recordSizeLimit joiner.slotBytes →
        Joining.tail batched + held.len ≤ ctx.node.controlMax)

end DurablePublisher

/-! ## Numbers and seq_nos -/

theorem seqNosFrom_ofNat (a n : Nat) : seqNosFrom (BitVec.ofNat 32 a) n = (List.range' a n).map (BitVec.ofNat 32) := by
  rw [seqNosFrom, List.range'_eq_map_range, List.map_map]
  apply List.map_congr_left
  intro i _
  simp only [Function.comp_apply, plus]
  exact (BitVec.ofNat_add a i).symm

theorem steps_ofNat {a b : Nat} (le : a ≤ b) (near : b < a + 2 ^ 31) :
    steps (BitVec.ofNat 32 a) (BitVec.ofNat 32 b) = b - a := by
  unfold steps
  rw [BitVec.toNat_sub, BitVec.toNat_ofNat, BitVec.toNat_ofNat]
  omega

/-- Numbers within 2^31 of each other compare as their seq_nos do. -/
theorem seqDelta_ofNat_nonneg {a b : Nat} (near : a < b + 2 ^ 31) (near' : b < a + 2 ^ 31) :
    0 ≤ seqDelta (BitVec.ofNat 32 a) (BitVec.ofNat 32 b) ↔ b ≤ a := by
  rw [seqDelta_nonneg]
  constructor
  · intro h
    by_contra lt
    have back := steps_ofNat (Nat.le_of_not_le lt) near'
    have turn := @steps_swap (BitVec.ofNat 32 a) (BitVec.ofNat 32 b) fun same => by
      rw [same, steps_self] at back
      omega
    omega
  · intro le
    rw [steps_ofNat le near]
    omega

theorem seqDelta_ofNat_pos {a b : Nat} (lt : a < b) (near : b < a + 2 ^ 31) :
    0 < seqDelta (BitVec.ofNat 32 b) (BitVec.ofNat 32 a) := by
  have far := steps_ofNat (Nat.le_of_lt lt) near
  rw [seqDelta_eq_steps (by omega), far]
  omega

/-! ## A record is handed over -/

/-- With nothing refused, all of a large record goes. -/
theorem handUnits_all {takes : List SeqNo → Bool} {n : Nat} {seqNo : SeqNo}
    (taken : ∀ i, i + 1 < n → takes [plus seqNo i] = true) : handUnits takes n seqNo = seqNosFrom seqNo n := by
  induction n generalizing seqNo with
  | zero => rfl
  | succ n ih =>
    have rest := @ih (seqNo + 1) fun i lt => by
      rw [← plus_succ]
      exact taken (i + 1) (by omega)
    have front : seqNosFrom seqNo (n + 1) = seqNo :: seqNosFrom (seqNo + 1) n := by
      simp only [seqNosFrom, List.range_succ_eq_map, List.map_cons, plus_zero, List.map_map, Function.comp_def, plus_succ]
    rw [handUnits, front, rest]
    cases n with
    | zero => simp [seqNosFrom]
    | succ n =>
      have := taken 0 (by omega)
      rw [plus_zero] at this
      rw [if_pos this]

theorem Context.fragCountFor_pos (node : Context) (cdrLen : Nat) : 0 < node.fragCountFor cdrLen := by
  exact Nat.lt_of_lt_of_le Nat.one_pos (Nat.le_add_right 1 _)

theorem Held.extent_pos (node : Context) (held : Held) : 0 < held.extent node := by
  unfold Held.extent
  split
  · simp only [Record.span]
    split
    · exact node.fragCountFor_pos _
    · exact Nat.one_pos
  · exact Nat.one_pos

/-- What goes to the joiner has the seq_nos it was published under. -/
theorem Held.datagrams_le {ctx : TxContext} {joiner : Joiner} {held : Held}
    (padded : ∀ seqNo cdr, held.record = some (.data seqNo cdr) →
      cdr.length % 4 = 0 ∧ held.len = dataFraming + cdr.length) :
    held.datagrams ctx joiner ≤ held.extent ctx.node := by
  have least := held.extent_pos ctx.node
  have limit : ctx.maxBufferLength ≤ ctx.recordSizeLimit joiner.slotBytes := Nat.le_max_left _ _
  have control := ctx.control_le
  unfold Held.datagrams
  split
  · next seqNo cdr found =>
    obtain ⟨aligned, total⟩ := padded seqNo cdr found
    split
    · next cut =>
      have over_ : headerLength + dataFraming + cdr.length > ctx.node.fragWholeLimit := by
        unfold roundup at cut
        simp only [Context.fragWholeLimit, headerLength, dataFraming] at total cut ⊢
        omega
      simp only [Held.extent, found, Record.span]
      rw [if_pos over_]
    · exact least
  · exact least

namespace Joining

variable {ctx : TxContext} {joiner : Joiner} {s : Joining} {seqNo : SeqNo} {len : Nat}

theorem roundup_of_mod {n : Nat} (padded : n % 4 = 0) : roundup n = n := by
  unfold roundup
  omega

/-- A record that fits behind what is batched goes at once, in one datagram. -/
theorem sendWhole_handed (padded : len % 4 = 0) (some_ : 4 ≤ len) (fits : headerLength + len ≤ ctx.recordSizeLimit joiner.slotBytes)
    (short : len ≤ dataFraming + (ctx.node.maxSampleLength + 3)) (own : carried s.batched = [])
    (room : s.batched = [] ∨ tail s.batched + len ≤ ctx.node.controlMax) :
    (s.sendWhole ctx joiner seqNo len).handed = s.handed ++ [seqNo] ∧
      ((s.sendWhole ctx joiner seqNo len).batched = s.batched ∨ (s.sendWhole ctx joiner seqNo len).batched = []) := by
  have control := ctx.control_le
  have least := ctx.node.control_min
  have limit : ctx.maxBufferLength ≤ ctx.recordSizeLimit joiner.slotBytes := Nat.le_max_left _ _
  have start : headerLength ≤ tail s.batched := Nat.le_add_right _ _
  have within : tail s.batched + len ≤ ctx.recordSizeLimit joiner.slotBytes := by
    rcases room with none_ | room
    · rw [none_]
      exact fits
    · omega
  have encodes : ¬ ctx.txSize ≤ tail s.batched + len := by
    unfold TxContext.txSize
    rcases room with none_ | room
    · have : tail s.batched = headerLength := by rw [none_]; rfl
      simp only [headerLength, dataFraming] at this short
      omega
    · omega
  have joins : ctx.placing (tail s.batched) (tail s.batched + len) joiner.slotBytes = .joins := by
    have bound : tail s.batched + len ≤
        if tail s.batched = headerLength then ctx.recordSizeLimit joiner.slotBytes else ctx.node.controlMax := by
      split
      · exact within
      · next started =>
        rcases room with none_ | room
        · exact absurd (by rw [none_]; rfl) started
        · exact room
    unfold TxContext.placing
    simp only [Nat.add_sub_cancel_left, roundup_of_mod padded, Nat.sub_self, Nat.add_zero]
    rw [if_pos bound]
  have length : tail (s.batched ++ [⟨roundup len, some seqNo⟩]) = tail s.batched + len := by
    simp only [tail, List.map_append, List.sum_append, List.map_cons, List.map_nil, List.sum_cons, List.sum_nil,
      roundup_of_mod padded]
    omega
  have carries : carried (s.batched ++ [⟨roundup len, some seqNo⟩]) = [seqNo] := by
    unfold carried at own ⊢
    rw [List.filterMap_append, own]
    rfl
  have much : ¬ tail s.batched + len < headerLength + submessageHeaderLength := by
    simp only [submessageHeaderLength]
    omega
  unfold sendWhole
  rw [if_neg encodes, joins]
  simp only [flush]
  rw [length, if_neg much, if_neg (by omega), carries]
  refine ⟨rfl, ?_⟩
  simp only
  split
  · exact .inr rfl
  · exact .inl rfl

/-- A record goes as its own datagrams, in one piece or in fragments. -/
theorem sendCachedRecord_handed {held : Held} {record : Record} (found : held.record = some record)
    (own : record.seqNo = held.seqNo) (length : record.length = held.len)
    (padded : ∀ seqNo cdr, held.record = some (.data seqNo cdr) →
      cdr.length % 4 = 0 ∧ cdr.length ≤ ctx.node.maxSampleLength + 3)
    (clear : carried s.batched = [])
    (room : ∀ seqNo cdr, held.record = some (.data seqNo cdr) → headerLength + held.len ≤ ctx.recordSizeLimit joiner.slotBytes →
      s.batched = [] ∨ tail s.batched + held.len ≤ ctx.node.controlMax) :
    (s.sendCachedRecord ctx joiner held.len record).handed =
        s.handed ++ seqNosFrom held.seqNo (held.datagrams ctx joiner) ∧
      ((s.sendCachedRecord ctx joiner held.len record).batched = s.batched ∨
        (s.sendCachedRecord ctx joiner held.len record).batched = []) := by
  cases record with
  | fragFirst seqNo count payload =>
    obtain rfl : seqNo = held.seqNo := own
    simp [sendCachedRecord, Held.datagrams, found, seqNosFrom]
  | fragCont seqNo index count payload =>
    obtain rfl : seqNo = held.seqNo := own
    simp [sendCachedRecord, Held.datagrams, found, seqNosFrom]
  | data seqNo cdr =>
    obtain rfl : seqNo = held.seqNo := own
    obtain ⟨aligned, short⟩ := padded _ _ found
    have total : held.len = dataFraming + cdr.length := length.symm
    have aligned' : held.len % 4 = 0 := by
      rw [total]
      simp only [dataFraming]
      omega
    by_cases whole : ctx.recordSizeLimit joiner.slotBytes < headerLength + roundup held.len
    · have limit : ctx.maxBufferLength ≤ ctx.recordSizeLimit joiner.slotBytes := Nat.le_max_left _ _
      have control := ctx.control_le
      have least := ctx.node.control_min
      have cut : ¬ (held.len - dataFraming ≤ ctx.node.fragFirstPayload ∨
          ctx.node.maxSampleLength + 3 < held.len - dataFraming) := by
        rw [roundup_of_mod aligned'] at whole
        simp only [Context.fragFirstPayload, Context.fragContPayload, total, dataFraming, headerLength] at whole ⊢
        omega
      have rest : held.len - dataFraming = cdr.length := by omega
      simp only [sendCachedRecord, Held.datagrams, found]
      rw [if_pos whole, if_pos whole, sendFragments, if_neg cut, rest]
      exact ⟨rfl, .inl rfl⟩
    · have fits := Nat.le_of_not_lt whole
      rw [roundup_of_mod aligned'] at fits
      simp only [sendCachedRecord, Held.datagrams, found]
      rw [if_neg whole, if_neg whole]
      have goes := @sendWhole_handed ctx joiner s held.seqNo held.len aligned' (by rw [total]; simp only [dataFraming]; omega)
        fits (by omega) clear (room _ _ found fits)
      simpa [seqNosFrom] using goes

end Joining

/-- The ring up to the first record that is not before `below`, and the rest of it. -/
theorem largeSendBacklogBefore_eq {joiner : Joiner} {lifespan : Nat} (below : Option SeqNo) {ring : List LargeRecord}
    (taken : ∀ record ∈ ring, ∀ i, i + 1 < record.count → joiner.takes [plus record.seqNo i] = true) (s : Joining) :
    largeSendBacklogBefore joiner lifespan below ring s =
      (ring.dropWhile (fun record => !below.any fun below => 0 ≤ seqDelta record.seqNo below),
        { s with handed := s.handed ++
            ((ring.takeWhile fun record => !below.any fun below => 0 ≤ seqDelta record.seqNo below).filter fun record =>
              record.due lifespan (joiner.now record.seqNo)).flatMap fun record => seqNosFrom record.seqNo record.count }) := by
  induction ring generalizing s with
  | nil => simp [largeSendBacklogBefore]
  | cons record ring ih =>
    have rest := @ih fun r mem => taken r (List.mem_cons_of_mem _ mem)
    have all := handUnits_all (taken record (List.mem_cons_self ..))
    rw [largeSendBacklogBefore]
    by_cases stops : (below.any fun below => 0 ≤ seqDelta record.seqNo below) = true
    · rw [if_pos stops, List.dropWhile_cons_of_neg (by simp [stops]), List.takeWhile_cons_of_neg (by simp [stops])]
      simp
    · rw [if_neg stops, List.dropWhile_cons_of_pos (by simpa using stops), List.takeWhile_cons_of_pos (by simpa using stops)]
      by_cases skip : record.due lifespan (joiner.now record.seqNo) = false
      · rw [if_pos skip, rest, List.filter_cons_of_neg (by simp [skip])]
      · rw [if_neg skip, rest, List.filter_cons_of_pos (by simpa using skip), List.flatMap_cons, all]
        simp [List.append_assoc]

theorem ReliableCache.slot_of_mem_held {c : ReliableCache} {d : Nat} {h : Held} (mem : h ∈ c.held d) :
    c.slotLive d h.seqNo = true ∧ (c.slot d h.seqNo).len = h.len ∧ c.arena (c.slot d h.seqNo).offset = h.record := by
  unfold ReliableCache.held at mem
  split at mem
  · obtain ⟨i, _, found⟩ := mem_heldFrom.mp mem
    unfold heldAt at found
    split at found
    · next live =>
      obtain rfl := Option.some.inj found
      exact ⟨live, rfl, rfl⟩
    · cases found
  · simp at mem

namespace DurablePublisher

variable {ctx : TxContext} {joiner : Joiner} {pub : DurablePublisher}

/-- The loop visits what the cache holds. -/
theorem deliverFrom_eq {n : Nat} {seqNo : SeqNo} (inside : ∀ i < n, 0 ≤ seqDelta pub.cache.newestSeqNo (plus seqNo i))
    (s : List LargeRecord × Joining) :
    pub.deliverFrom ctx joiner n seqNo s =
      (pub.cache.heldFrom pub.cache.ringDepth n seqNo).foldl (fun s held => pub.visit ctx joiner held.seqNo s) s := by
  induction n generalizing seqNo s with
  | zero => rfl
  | succ n ih =>
    have first := inside 0 (by omega)
    rw [plus_zero] at first
    have rest := @ih (seqNo + 1) fun i lt => by
      rw [← plus_succ]
      exact inside (i + 1) (by omega)
    rw [deliverFrom, if_neg (by omega), rest, ReliableCache.heldFrom, List.foldl_append]
    cases found : pub.cache.heldAt pub.cache.ringDepth seqNo with
    | none =>
      have dead := ReliableCache.heldAt_eq_none.mp found
      have skips : (pub.cache.slot pub.cache.ringDepth seqNo).len = 0 ∨
          (pub.cache.slot pub.cache.ringDepth seqNo).seqNo ≠ seqNo := by
        by_contra live
        rw [not_or, not_not] at live
        rw [ReliableCache.slotLive_iff.mpr live] at dead
        cases dead
      have same : pub.visit ctx joiner seqNo s = s := by
        simp only [visit]
        rw [if_pos skips]
      rw [same]
      rfl
    | some held =>
      have same := ReliableCache.heldAt_seqNo found
      simp [same]

theorem visit_held {held : Held} (mem : held ∈ pub.cache.held pub.cache.ringDepth) (s : List LargeRecord × Joining) :
    pub.visit ctx joiner held.seqNo s =
      if pub.fresh joiner held = false then s
      else
        let s := largeSendBacklogBefore joiner pub.lifespanDurationNs (some held.seqNo) s.1 s.2
        (s.1, held.record.elim s.2 (s.2.sendCachedRecord ctx joiner held.len)) := by
  obtain ⟨live, length, record⟩ := ReliableCache.slot_of_mem_held mem
  have lives : ¬ ((pub.cache.slot pub.cache.ringDepth held.seqNo).len = 0 ∨
      (pub.cache.slot pub.cache.ringDepth held.seqNo).seqNo ≠ held.seqNo) := by
    have := ReliableCache.slotLive_iff.mp live
    rw [not_or, not_not]
    exact this
  unfold visit
  simp only
  rw [if_neg lives, length, record]
  simp only [fresh, Bool.not_eq_false']

/-! ## The merge -/

/-- Where a record's numbers start, how many are its own, and how many of its datagrams are due. -/
structure Entry where
  number : Nat
  extent : Nat
  width : Nat

/-- What goes of it. -/
def Entry.seqNos (entry : Entry) : List SeqNo := seqNosFrom (BitVec.ofNat 32 entry.number) entry.width

def smallEntry (ctx : TxContext) (joiner : Joiner) (p : Nat × Held) : Entry :=
  ⟨p.1, p.2.extent ctx.node, p.2.datagrams ctx joiner⟩

def largeEntry (pub : DurablePublisher) (joiner : Joiner) (q : Nat × LargeRecord) : Entry :=
  ⟨q.1, q.2.count, if q.2.due pub.lifespanDurationNs (joiner.now q.2.seqNo) then q.2.count else 0⟩

/-- The cache's fresh records and the large ring's, by their numbers. -/
def merged (ctx : TxContext) (pub : DurablePublisher) (joiner : Joiner) (small : List (Nat × Held))
    (large : List (Nat × LargeRecord)) : List Entry :=
  Spans.interleave Entry.number ((small.filter fun p => pub.fresh joiner p.2).map (smallEntry ctx joiner))
    (large.map (pub.largeEntry joiner))

/-- What the loop needs of a record of the cache. -/
structure Goes (ctx : TxContext) (pub : DurablePublisher) (joiner : Joiner) (batched : List Batched) (p : Nat × Held) : Prop where
  held : p.2 ∈ pub.cache.held pub.cache.ringDepth
  numbered : p.2.seqNo = BitVec.ofNat 32 p.1
  record : ∃ r, p.2.record = some r ∧ r.seqNo = p.2.seqNo ∧ r.length = p.2.len
  padded : ∀ seqNo cdr, p.2.record = some (.data seqNo cdr) → cdr.length % 4 = 0 ∧ cdr.length ≤ ctx.node.maxSampleLength + 3
  room : pub.fresh joiner p.2 = true → ∀ seqNo cdr, p.2.record = some (.data seqNo cdr) →
    headerLength + p.2.len ≤ ctx.recordSizeLimit joiner.slotBytes →
      batched = [] ∨ Joining.tail batched + p.2.len ≤ ctx.node.controlMax

/-- Due records of the ring, as entries. -/
theorem largeEntry_seqNos {ring : List (Nat × LargeRecord)} (numbered : ∀ q ∈ ring, q.2.seqNo = BitVec.ofNat 32 q.1) :
    (ring.map (pub.largeEntry joiner)).flatMap Entry.seqNos =
      ((ring.map Prod.snd).filter fun record => record.due pub.lifespanDurationNs (joiner.now record.seqNo)).flatMap
        fun record => seqNosFrom record.seqNo record.count := by
  induction ring with
  | nil => rfl
  | cons q ring ih =>
    have rest := ih fun q mem => numbered q (List.mem_cons_of_mem _ mem)
    have own := numbered q (List.mem_cons_self ..)
    rw [List.map_cons, List.flatMap_cons, rest, List.map_cons]
    by_cases due : q.2.due pub.lifespanDurationNs (joiner.now q.2.seqNo) = true
    · rw [List.filter_cons_of_pos (by simpa using due), List.flatMap_cons]
      simp only [Entry.seqNos, largeEntry]
      rw [if_pos due, ← own]
    · rw [List.filter_cons_of_neg (by simpa using due)]
      simp [Entry.seqNos, largeEntry, due, seqNosFrom]

/-- The rest of the ring, when the cache has been walked. -/
theorem rest_handed {ring : List (Nat × LargeRecord)} (numbered : ∀ q ∈ ring, q.2.seqNo = BitVec.ofNat 32 q.1)
    (taken : ∀ record ∈ ring.map Prod.snd, ∀ i, i + 1 < record.count → joiner.takes [plus record.seqNo i] = true) (s : Joining) :
    (largeSendBacklogBefore joiner pub.lifespanDurationNs none (ring.map Prod.snd) s).2.handed =
      s.handed ++ (ring.map (pub.largeEntry joiner)).flatMap Entry.seqNos := by
  rw [largeSendBacklogBefore_eq none taken, largeEntry_seqNos numbered]
  have all : ∀ row : List LargeRecord, row.takeWhile (fun _ => true) = row := fun row => by simp
  simp only [Option.any_none, Bool.not_false, all]

/-- What is before a record of the cache goes first, and stays in the ring no longer. -/
theorem before_handed {ring : List (Nat × LargeRecord)} {below : SeqNo} {bound : Nat}
    (numbered : ∀ q ∈ ring, q.2.seqNo = BitVec.ofNat 32 q.1)
    (taken : ∀ record ∈ ring.map Prod.snd, ∀ i, i + 1 < record.count → joiner.takes [plus record.seqNo i] = true)
    (compare : ∀ q ∈ ring, 0 ≤ seqDelta q.2.seqNo below ↔ bound ≤ q.1) (s : Joining) :
    largeSendBacklogBefore joiner pub.lifespanDurationNs (some below) (ring.map Prod.snd) s =
      ((ring.dropWhile fun q => q.1 < bound).map Prod.snd,
        { s with handed := s.handed ++
            ((ring.takeWhile fun q => q.1 < bound).map (pub.largeEntry joiner)).flatMap Entry.seqNos }) := by
  have early : ∀ q ∈ ring, (!(some below).any fun below => decide (0 ≤ seqDelta q.2.seqNo below)) = decide (q.1 < bound) := by
    intro q mem
    have := compare q mem
    rw [Option.any_some, ← decide_not, decide_eq_decide]
    omega
  have taking : (ring.map Prod.snd).takeWhile
      (fun record => !(some below).any fun below => decide (0 ≤ seqDelta record.seqNo below)) =
        (ring.takeWhile fun q => q.1 < bound).map Prod.snd := by
    rw [List.takeWhile_map]
    congr 1
    exact (Spans.cut_congr early).1
  have dropping : (ring.map Prod.snd).dropWhile
      (fun record => !(some below).any fun below => decide (0 ≤ seqDelta record.seqNo below)) =
        (ring.dropWhile fun q => q.1 < bound).map Prod.snd := by
    rw [List.dropWhile_map]
    congr 1
    exact (Spans.cut_congr early).2
  rw [largeSendBacklogBefore_eq (some below) taken, taking, dropping,
    largeEntry_seqNos fun q mem => numbered q ((List.takeWhile_sublist _).subset mem)]

theorem merged_stale {p : Nat × Held} (stale : pub.fresh joiner p.2 = false) (rows : List (Nat × Held))
    (ring : List (Nat × LargeRecord)) : pub.merged ctx joiner (p :: rows) ring = pub.merged ctx joiner rows ring := by
  unfold merged
  rw [List.filter_cons_of_neg (by simp [stale])]

/-- The merge takes the ring's records before this one, then this one, then the rest. -/
theorem merged_fresh {p : Nat × Held} (fresh : pub.fresh joiner p.2 = true) (rows : List (Nat × Held))
    (ring : List (Nat × LargeRecord)) :
    pub.merged ctx joiner (p :: rows) ring =
      (ring.takeWhile fun q => q.1 < p.1).map (pub.largeEntry joiner) ++ smallEntry ctx joiner p ::
        pub.merged ctx joiner rows (ring.dropWhile fun q => q.1 < p.1) := by
  unfold merged
  rw [List.filter_cons_of_pos (by simpa using fresh), List.map_cons, Spans.interleave, List.takeWhile_map, List.dropWhile_map]
  rfl

/-- The walk hands over the merge, whatever it starts with. -/
theorem walk_handed {batched : List Batched} {rows : List (Nat × Held)} {ring : List (Nat × LargeRecord)}
    (goes : ∀ p ∈ rows, Goes ctx pub joiner batched p) (own : Joining.carried batched = [])
    (numbered : ∀ q ∈ ring, q.2.seqNo = BitVec.ofNat 32 q.1)
    (taken : ∀ record ∈ ring.map Prod.snd, ∀ i, i + 1 < record.count → joiner.takes [plus record.seqNo i] = true)
    (compare : ∀ p ∈ rows, ∀ q ∈ ring, 0 ≤ seqDelta q.2.seqNo p.2.seqNo ↔ p.1 ≤ q.1) (s : Joining)
    (ready : s.batched = batched ∨ s.batched = []) (s' : List LargeRecord × Joining)
    (walked : s' = (rows.map Prod.snd).foldl (fun s held => pub.visit ctx joiner held.seqNo s) (ring.map Prod.snd, s)) :
    (largeSendBacklogBefore joiner pub.lifespanDurationNs none s'.1 s'.2).2.handed =
      s.handed ++ (pub.merged ctx joiner rows ring).flatMap Entry.seqNos := by
  induction rows generalizing ring s with
  | nil =>
    rw [walked]
    exact rest_handed numbered taken s
  | cons p rows ih =>
    have more := fun p mem => goes p (List.mem_cons_of_mem _ mem)
    have first := goes p (List.mem_cons_self ..)
    rw [List.map_cons, List.foldl_cons, visit_held first.held] at walked
    by_cases stale : pub.fresh joiner p.2 = false
    · rw [if_pos stale] at walked
      rw [merged_stale stale]
      exact ih more numbered taken (fun p mem => compare p (List.mem_cons_of_mem _ mem)) s ready walked
    · have fresh : pub.fresh joiner p.2 = true := by simpa using stale
      rw [if_neg stale, before_handed numbered taken (compare p (List.mem_cons_self ..))] at walked
      obtain ⟨record, found, same, length⟩ := first.record
      simp only [found, Option.elim_some] at walked
      generalize since : ({ s with handed := s.handed ++ _ } : Joining) = sent at walked
      have before : sent.batched = s.batched := by rw [← since]
      have clear : Joining.carried sent.batched = [] := by
        rw [before]
        rcases ready with h | h
        · rw [h, own]
        · rw [h]
          rfl
      have room : ∀ seqNo cdr, p.2.record = some (.data seqNo cdr) →
          headerLength + p.2.len ≤ ctx.recordSizeLimit joiner.slotBytes →
            sent.batched = [] ∨ Joining.tail sent.batched + p.2.len ≤ ctx.node.controlMax := by
        intro seqNo cdr isData fits
        rw [before]
        rcases ready with h | h
        · rw [h]
          exact first.room fresh seqNo cdr isData fits
        · exact .inl h
      obtain ⟨handed, left⟩ := Joining.sendCachedRecord_handed found same length first.padded clear room
      have dropped : ∀ q ∈ ring.dropWhile (fun q => q.1 < p.1), q ∈ ring := fun q mem => (List.dropWhile_sublist _).subset mem
      have ready' : (sent.sendCachedRecord ctx joiner p.2.len record).batched = batched ∨
          (sent.sendCachedRecord ctx joiner p.2.len record).batched = [] := by
        rw [before] at left
        rcases left with h | h
        · rw [h]
          exact ready
        · exact .inr h
      rw [ih more (fun q mem => numbered q (dropped q mem)) (fun record mem => taken record (List.map_subset _ dropped mem))
        (fun p mem q mem' => compare p (List.mem_cons_of_mem _ mem) q (dropped q mem')) _ ready' walked, handed, ← since]
      rw [merged_fresh fresh, List.flatMap_append, List.flatMap_cons]
      simp only [List.append_assoc, Entry.seqNos, smallEntry, first.numbered]

/-- Every due datagram once, in strictly increasing serial order. -/
def Delivered (ctx : TxContext) (joiner : Joiner) (pub : DurablePublisher) (batched : List Batched) : Prop :=
  (pub.deliverDurabilityBacklog ctx joiner batched).handed.Pairwise (fun a b => 0 < seqDelta b a) ∧
    (pub.deliverDurabilityBacklog ctx joiner batched).handed.Perm (pub.due ctx joiner)

variable {small : List (Nat × Held)} {large : List (Nat × LargeRecord)} {batched : List Batched}

theorem Published.goes (published : Published ctx pub small large) (clear : pub.Clear ctx joiner batched) :
    ∀ p ∈ small, Goes ctx pub joiner batched p := by
  intro p mem
  have held : p.2 ∈ pub.cache.held pub.cache.ringDepth := by
    rw [published.held]
    exact List.mem_map_of_mem mem
  refine ⟨held, published.numbered p mem, published.records p mem, published.padded p mem, ?_⟩
  intro fresh seqNo cdr isData fits
  rcases clear.2 with none_ | room
  · exact .inl none_
  · exact .inr (room p.2 held fresh seqNo cdr isData fits)

/-- The loop, over all that the cache holds. -/
theorem walk_eq (ranged : pub.cache.Ranged pub.cache.ringDepth) (s : List LargeRecord × Joining) :
    (if pub.cache.retains then
      pub.deliverFrom ctx joiner (steps pub.cache.oldestSeqNo pub.cache.newestSeqNo + 1) pub.cache.oldestSeqNo s
    else s) =
      (pub.cache.held pub.cache.ringDepth).foldl (fun s held => pub.visit ctx joiner held.seqNo s) s := by
  by_cases retains : pub.cache.retains = true
  · have within := ranged.within retains
    have few := ranged.depth_lt
    rw [if_pos retains, ReliableCache.held, if_pos retains, deliverFrom_eq]
    intro i lt
    rw [seqDelta_nonneg]
    have far : steps pub.cache.oldestSeqNo (plus pub.cache.oldestSeqNo i) = i := steps_plus _ (by omega)
    have split := @steps_split pub.cache.oldestSeqNo (plus pub.cache.oldestSeqNo i) pub.cache.newestSeqNo (by omega)
    omega
  · rw [if_neg retains, ReliableCache.held, if_neg retains]
    rfl

theorem handed_eq (published : Published ctx pub small large) (on : pub.durable = true) (near : Near ctx small large)
    (takes : pub.Takes joiner) (clear : pub.Clear ctx joiner batched) :
    (pub.deliverDurabilityBacklog ctx joiner batched).handed = (pub.merged ctx joiner small large).flatMap Entry.seqNos := by
  obtain ⟨first, low, high⟩ := near
  have some_ := published.ranged.depth_pos
  have compare : ∀ p ∈ small, ∀ q ∈ large, 0 ≤ seqDelta q.2.seqNo p.2.seqNo ↔ p.1 ≤ q.1 := by
    intro p mem q mem'
    have inside := low p mem
    have inside' := high q mem'
    have count := published.some_ q mem'
    have own := p.2.extent_pos ctx.node
    rw [published.numbered p mem, published.numbered_large q mem']
    exact seqDelta_ofNat_nonneg (by omega) (by omega)
  unfold deliverDurabilityBacklog
  rw [if_neg (by simp [on]), if_neg (by omega)]
  simp only
  rw [walk_eq published.ranged, published.held, published.ring]
  have walked := @walk_handed ctx joiner pub batched small large (published.goes clear) clear.1 published.numbered_large
    (by rw [← published.ring]; exact takes) compare ⟨batched, []⟩ (.inl rfl) _ rfl
  simpa using walked

theorem Published.merged_ordered (published : Published ctx pub small large) :
    Spans.Ordered Entry.number Entry.extent (pub.merged ctx joiner small large) := by
  refine Spans.Ordered.interleave ?_ ?_ ?_ ?_
  · exact List.pairwise_map.mpr (List.Pairwise.sublist List.filter_sublist published.ordered)
  · exact List.pairwise_map.mpr published.ordered_large
  · intro e mem
    obtain ⟨q, inRing, rfl⟩ := List.mem_map.mp mem
    exact published.some_ q inRing
  · intro e mem e' mem'
    obtain ⟨p, inCache, rfl⟩ := List.mem_map.mp mem
    obtain ⟨q, inRing, rfl⟩ := List.mem_map.mp mem'
    exact published.apart p (List.mem_filter.mp inCache).1 q inRing

/-- Of each record no more goes than is its own, and all of it lies within 2^31 of the first. -/
theorem Published.merged_within (published : Published ctx pub small large) {e : Entry}
    (mem : e ∈ pub.merged ctx joiner small large) :
    e.width ≤ e.extent ∧ ((∃ p ∈ small, e.number = p.1 ∧ e.extent = p.2.extent ctx.node) ∨
      ∃ q ∈ large, e.number = q.1 ∧ e.extent = q.2.count) := by
  rcases List.mem_append.mp ((Spans.interleave_perm _ _).subset mem) with mem | mem
  · obtain ⟨p, inCache, rfl⟩ := List.mem_map.mp mem
    have mem := (List.mem_filter.mp inCache).1
    refine ⟨Held.datagrams_le ?_, .inl ⟨p, mem, rfl, rfl⟩⟩
    intro seqNo cdr found
    obtain ⟨record, same, _, length⟩ := published.records p mem
    obtain rfl : Record.data seqNo cdr = record := Option.some.inj (found.symm.trans same)
    exact ⟨(published.padded p mem seqNo cdr found).1, length.symm⟩
  · obtain ⟨q, inRing, rfl⟩ := List.mem_map.mp mem
    refine ⟨?_, .inr ⟨q, inRing, rfl, rfl⟩⟩
    simp only [largeEntry]
    split
    · exact Nat.le_refl _
    · exact Nat.zero_le _

/-- The merge has what is due, record by record. -/
theorem Published.merged_perm (published : Published ctx pub small large) :
    ((pub.merged ctx joiner small large).flatMap Entry.seqNos).Perm (pub.due ctx joiner) := by
  have both := (@Spans.interleave_perm _ Entry.number
    ((small.filter fun p => pub.fresh joiner p.2).map (smallEntry ctx joiner))
    (large.map (pub.largeEntry joiner))).flatMap_right Entry.seqNos
  have cached : ((small.filter fun p => pub.fresh joiner p.2).map (smallEntry ctx joiner)).flatMap Entry.seqNos =
      ((pub.cache.held pub.cache.ringDepth).filter (pub.fresh joiner)).flatMap
        fun held => seqNosFrom held.seqNo (held.datagrams ctx joiner) := by
    rw [published.held, List.filter_map, List.flatMap_map, List.flatMap_map]
    refine List.flatMap_congr fun p mem => ?_
    simp only [Entry.seqNos, smallEntry, published.numbered p (List.mem_filter.mp mem).1]
  rw [List.flatMap_append, cached, largeEntry_seqNos published.numbered_large, ← published.ring] at both
  exact both

theorem eight_few : 8 < 65536 := by decide

/-- A cache with one sample of 8 bytes in it. -/
def oneSample (seqNo : SeqNo) : ReliableCache := (ReliableCache.init 8 4096 eight_few).cacheReliableSample seqNo [1, 2, 3, 4, 5, 6, 7, 8] 0

/-- A publisher with the sample, and behind it a large record of two datagrams. -/
def sampleThenLarge (number : Nat) : DurablePublisher :=
  ⟨true, oneSample (BitVec.ofNat 32 number), [⟨BitVec.ofNat 32 (number + 1), 2, true, true, 0⟩], 0⟩

/-- The only thing its cache holds. -/
def heldSample (seqNo : SeqNo) : Held := ⟨seqNo, 0, 28, some (.data seqNo [1, 2, 3, 4, 5, 6, 7, 8])⟩

/-- To a reader over UDP, all of whose datagrams are taken. -/
def udpJoiner : Joiner := ⟨0, fun _ => true, fun _ => 0⟩

/-- Under its number, and the two datagrams of the large record under theirs. -/
theorem published_sampleThenLarge {number : Nat} (depth : (oneSample (BitVec.ofNat 32 number)).ringDepth = 8)
    (ranged : (oneSample (BitVec.ofNat 32 number)).Ranged 8)
    (held : (oneSample (BitVec.ofNat 32 number)).held 8 = [heldSample (BitVec.ofNat 32 number)]) :
    Published TxQueue.smallSender (sampleThenLarge number) [(number, heldSample (BitVec.ofNat 32 number))]
      [(number + 1, ⟨BitVec.ofNat 32 (number + 1), 2, true, true, 0⟩)] where
  ranged := by
    rw [← depth] at ranged
    exact ranged
  held := by
    rw [← depth] at held
    exact held
  ring := rfl
  numbered := by simp [heldSample]
  numbered_large := by simp
  records := by simp [heldSample, Record.seqNo, Record.length, dataFraming]
  padded := by
    intro p mem seqNo cdr found
    obtain rfl := List.mem_singleton.mp mem
    obtain ⟨_, rfl⟩ : seqNo = _ ∧ cdr = _ := by simpa [heldSample, eq_comm] using found
    exact ⟨rfl, by decide⟩
  ordered := List.pairwise_singleton _ _
  ordered_large := List.pairwise_singleton _ _
  some_ := by simp
  apart := by
    intro p mem q mem'
    obtain rfl := List.mem_singleton.mp mem
    obtain rfl := List.mem_singleton.mp mem'
    exact .inl (Nat.le_refl _)

theorem near_sampleThenLarge (number : Nat) :
    Near TxQueue.smallSender [(number, heldSample (BitVec.ofNat 32 number))]
      [(number + 1, ⟨BitVec.ofNat 32 (number + 1), 2, true, true, 0⟩)] := by
  have extent : (heldSample (BitVec.ofNat 32 number)).extent TxQueue.smallSender.node = 1 := rfl
  refine ⟨number, ?_, ?_⟩
  · intro p mem
    obtain rfl := List.mem_singleton.mp mem
    simp only [extent]
    omega
  · intro q mem
    obtain rfl := List.mem_singleton.mp mem
    simp only
    omega

theorem takes_udpJoiner (pub : DurablePublisher) : pub.Takes udpJoiner := fun _ _ _ _ => rfl

theorem last_ranged : (oneSample (BitVec.ofNat 32 (2 ^ 32 - 1))).Ranged 8 := by
  constructor <;> decide +kernel

theorem first_ranged : (oneSample (BitVec.ofNat 32 1)).Ranged 8 := by
  constructor <;> decide +kernel

/-- Two large records that are 2^31 apart. -/
def farApart : DurablePublisher :=
  ⟨true, ReliableCache.init 8 4096 eight_few, [⟨1, 2, true, true, 0⟩, ⟨BitVec.ofNat 32 (2 ^ 31 + 100), 2, true, true, 0⟩], 0⟩

end DurablePublisher

end Tickle
