import Tickle.Run
import Tickle.Tx.Large
import Tickle.Writer.Record

/-! # The large send cursor

A Publisher's large records stand in a ring, oldest first, and go one after another: the cursor stands at the oldest that has not
gone, and a send that stops goes on from the scheduler. A sample published meanwhile waits behind the send, without seq_nos, until
nothing before it is left or a small sample is published. The caller's sample is read only within its publish.
-/

namespace Tickle

open Serial

/-! ## The Publisher -/

/-- `limit` is `large_ring_limit()`, and `retained` what the ring itself holds, `tt_LARGE_RETAINED`. -/
structure LargeConfig where
  maxSampleLength : Nat
  controlMaxLength : Nat
  maxFragments : Nat
  retained : Nat
  limit : Nat
  reliable : Bool
  framed : largeFramingMax < controlMaxLength
  first_le : controlMaxLength - fragFramingLength - fragFirstLHeader ≤ maxSampleLength
  limit_pos : 0 < limit
  limit_le : limit ≤ retained

/-- What surrounds the send, call after call: the network, the destinations of a sample to matched readers (every peer is on some
link), and how many large records `keep_last_bound_across_kinds()` would take from beside the small ones. -/
structure Surroundings where
  net : Net
  dests : Nat → List Dest
  spill : Nat → Nat
  dests_some : ∀ call, dests call ≠ []

/-- The large part of `struct tt_Publisher`. `cursor` is the seq_no of the record the cursor stands at, while it is active; `dests`
are its destinations. `source` is `large_source_buffer`. The records dropped from the ring and those that could not be finished are
history. -/
structure LargePublisher where
  ring : List LargeTx
  pending : Option LargeTx
  cursor : Option SeqNo
  dests : List Dest
  nextDest : Nat
  nextIndex : Nat
  scheduled : Bool
  source : Option Nat
  matched : Bool
  seqNo : SeqNo
  calls : Nat
  dropped : List LargeTx
  unfinished : List LargeTx

/-- A sample as it is published: its codec, the buffer acquired for it with what lies in it, whether that is a chunk of the region,
and whether a Subscriber of this context takes the sample. -/
structure LargeSample where
  codec : Codec
  buffer : Nat
  fill : Nat → UInt8
  chunk : Bool
  locally : Bool

namespace LargeTx

/-- Whether `seqNo` is one of the record's. -/
def holds (record : LargeTx) (seqNo : SeqNo) : Bool := steps record.seqNo seqNo < record.count

/-- `f` of the first record that `p` takes, in its place. -/
def atFirst (p : LargeTx → Bool) (f : LargeTx → LargeTx) : List LargeTx → List LargeTx
  | [] => []
  | record :: rest => if p record then f record :: rest else record :: atFirst p f rest

end LargeTx

namespace LargePublisher

open LargeTx (atFirst)

variable (config : LargeConfig) (around : Surroundings)

def start (seqNo : SeqNo) : LargePublisher :=
  { ring := [], pending := none, cursor := none, dests := [], nextDest := 0, nextIndex := 0, scheduled := false, source := none
    matched := false, seqNo := seqNo, calls := 0, dropped := [], unfinished := [] }

/-- `large_cursor_stop()`. -/
def cursorStop (pub : LargePublisher) : LargePublisher := { pub with cursor := none, scheduled := false }

/-- `large_drop_oldest()`. -/
def dropOldest (pub : LargePublisher) : LargePublisher :=
  match pub.ring with
  | [] => pub
  | record :: rest =>
    let pub := if record.sent = false ∧ pub.cursor = some record.seqNo then pub.cursorStop else pub
    { pub with ring := rest, dropped := pub.dropped ++ [record] }

def oldestSent (pub : LargePublisher) : Bool := pub.ring.head?.any LargeTx.sent

/-- The oldest records that have gone out, while the ring holds `bound` or more, up to so many. -/
def trim (bound : Nat) : Nat → LargePublisher → LargePublisher
  | 0, pub => pub
  | n + 1, pub => if bound ≤ pub.ring.length ∧ pub.oldestSent then trim bound n pub.dropOldest else pub

/-- `keep_last_bound_across_kinds()`, of the large records. -/
def keepLastBoundAcrossKinds (pub : LargePublisher) : LargePublisher :=
  { pub with calls := pub.calls + 1 }.trim 0 (around.spill pub.calls)

/-- `large_commit()`. -/
def largeCommit (pub : LargePublisher) (sample : LargeTx) : LargePublisher :=
  let pub := (pub.trim config.limit pub.ring.length).keepLastBoundAcrossKinds around
  let pub := if config.retained ≤ pub.ring.length then pub.dropOldest else pub
  { pub with
    ring := pub.ring ++ [{ sample with seqNo := pub.seqNo + 1, retained := config.reliable, sent := false }]
    seqNo := plus pub.seqNo sample.count }

/-- `large_commit_pending()`, when a sample waits. -/
def largeCommitPending (pub : LargePublisher) : LargePublisher :=
  match pub.pending with
  | some sample => { pub with pending := none }.largeCommit config around sample
  | none => pub

/-- `large_next_unsent()`. -/
def largeNextUnsent (pub : LargePublisher) : Option LargeTx := pub.ring.find? fun record => !record.sent

/-- `large_find()`. -/
def largeFind (pub : LargePublisher) (seqNo : SeqNo) : Option LargeTx := pub.ring.find? fun record => record.holds seqNo

/-- `large_cursor_next()`, with `large_cursor_destinations()`. -/
def largeCursorNext (pub : LargePublisher) : LargePublisher × Bool :=
  let pub := if pub.largeNextUnsent.isNone then pub.largeCommitPending config around else pub
  match pub.largeNextUnsent with
  | some next =>
    let dests := if pub.matched then around.dests pub.calls else []
    ({ pub with
      ring := atFirst (fun record => !record.sent) (fun record => { record with dests := dests }) pub.ring
      cursor := some next.seqNo, dests := dests, nextDest := 0, nextIndex := 0, calls := pub.calls + 1 }, true)
  | none => (pub, false)

/-- `large_record_sent()`, of the record the cursor's seq_no found. -/
def largeRecordSent (pub : LargePublisher) (seqNo : SeqNo) (record : LargeTx) : LargePublisher :=
  let pub := { pub with
    cursor := none, ring := atFirst (fun record => record.holds seqNo) (fun record => { record with sent := true }) pub.ring }
  if record.retained = false then pub.dropOldest
  else (pub.trim (config.limit + 1) pub.ring.length).keepLastBoundAcrossKinds around

/-- `large_drop_unfinished()`, of the newest record. -/
def largeDropUnfinished (pub : LargePublisher) (record : LargeTx) : LargePublisher :=
  { pub.cursorStop with source := none, ring := pub.ring.dropLast, unfinished := pub.unfinished ++ [record] }

/-- `large_pump()`. -/
def largePump : Nat → LargePublisher → LargePublisher
  | 0, pub => pub
  | fuel + 1, pub =>
    let next := if pub.cursor.isSome then (pub, true) else pub.largeCursorNext config around
    let pub := next.1
    match next.2, pub.cursor with
    | true, some seqNo =>
      match pub.largeFind seqNo with
      | none => largePump fuel { pub with cursor := none }
      | some record =>
        let sent := Sending.sendSome around.net pub.source (pub.dests.drop pub.nextDest)
          ⟨record, pub.nextDest, pub.nextIndex, pub.calls⟩
        let pub := { pub with
          ring := atFirst (fun record => record.holds seqNo) (fun _ => sent.1.record) pub.ring
          nextDest := sent.1.nextDest, nextIndex := sent.1.nextIndex, calls := sent.1.calls }
        match sent.2 with
        | .stopped => { pub with scheduled := true }
        | .failed => largePump fuel (pub.largeDropUnfinished sent.1.record)
        | .done => largePump fuel (pub.largeRecordSent config around seqNo sent.1.record)
    | _, _ => pub

/-- What the loop turns at most: once for each record that has not gone, for the sample that waits, and to find nothing left. -/
def turns (pub : LargePublisher) : Nat := pub.ring.length + 2

/-! ## Publishing -/

/-- A large sample in its buffer, encoded whole or its first fragment; none when it could not be. -/
def encode (sample : LargeSample) (interleaves : Bool) : Option LargeTx :=
  let cdr := sample.codec.cdr
  let send : LargeSend := ⟨config.controlMaxLength, roundup cdr.length, config.framed⟩
  let empty := (List.range send.cdrLen).map sample.fill
  let record : LargeTx :=
    { id := sample.buffer, seqNo := 0, send := send, buffer := empty, encoded := 0, retained := false, sent := false
      chunk := sample.chunk, codec := sample.codec, dests := [], handed := [] }
  if interleaves ∧ sample.codec.range 0 send.largeFirstPayload then
    some { record with
      buffer := overwrite empty 0 (cdr.take send.largeFirstPayload), encoded := send.largeFirstPayload }
  else if sample.codec.whole then
    some { record with
      buffer := overwrite (overwrite empty 0 cdr) cdr.length (List.replicate (send.cdrLen - cdr.length) 0)
      encoded := send.cdrLen }
  else none

/-- `publish_large()`, admitted and with a buffer acquired. -/
def publishLarge (pub : LargePublisher) (sample : LargeSample) : LargePublisher :=
  let sendingNow := pub.cursor.isNone && pub.largeNextUnsent.isNone
  match encode config sample (sendingNow && pub.matched && !sample.locally) with
  | none => pub
  | some record =>
    if config.maxFragments < record.count then pub
    else if sendingNow = false then { pub with pending := some record }
    else
      let pub := pub.largeCommit config around record
      let pub := { pub with source := if record.encoded < record.send.cdrLen then some record.id else pub.source }
      { pub.largePump config around pub.turns with source := none }

inductive Event
  /-- A sample above `tt_MAX_SAMPLE_LENGTH`. -/
  | large (sample : LargeSample)
  /-- A small sample, and its seq_nos. -/
  | small (units : Nat)
  /-- `large_send_resume()`, from the scheduler. -/
  | resume
  /-- Acknowledged by every reader, or in the way of a newer one: up to so many of the oldest records. -/
  | release (records : Nat)
  | peers (matched : Bool)

def step (pub : LargePublisher) : Event → LargePublisher
  | .large sample =>
    if config.maxSampleLength < sample.codec.cdr.length then pub.publishLarge config around sample else pub
  | .small units =>
    let pub := pub.largeCommitPending config around
    { pub with seqNo := plus pub.seqNo units }
  | .resume =>
    if pub.scheduled then { pub with scheduled := false }.largePump config around pub.turns else pub
  | .release records => pub.trim 0 records
  | .peers matched => { pub with matched := matched }

end LargePublisher

/-! ## What stands in the ring -/

namespace LargeTx

variable {record record' : LargeTx}

/-- Every destination has every unit, in order, once. -/
def Complete (record : LargeTx) : Prop :=
  ∀ dest, unitsTo dest record.handed = if dest < record.dests.length then List.range record.count else []

/-- The destinations before one have every unit, that one the first few, and the others none. -/
def Partial (record : LargeTx) : Prop :=
  ∃ nextDest nextIndex, nextIndex ≤ record.count ∧ Covers record.count nextDest nextIndex record.handed

/-- A record that has gone. -/
structure Gone (record : LargeTx) : Prop where
  sent : record.sent = true
  faithful : record.Faithful
  whole : record.encoded = record.send.cdrLen
  complete : record.Complete

/-- A record of which nothing has gone. -/
structure Fresh (record : LargeTx) : Prop where
  faithful : record.Faithful
  handed : record.handed = []

theorem covers_nil (count : Nat) : Covers count 0 0 [] := by
  intro dest
  rw [if_neg (Nat.not_lt_zero dest)]
  split
  · rfl
  · rfl

theorem Fresh.partial_ (fresh : record.Fresh) : record.Partial :=
  ⟨0, 0, Nat.zero_le _, by rw [fresh.handed]; exact covers_nil _⟩

theorem Complete.partial_ (complete : record.Complete) : record.Partial := by
  refine ⟨record.dests.length, 0, Nat.zero_le _, fun dest => ?_⟩
  rw [complete dest]
  by_cases before : dest < record.dests.length
  · rw [if_pos before, if_pos before]
  · rw [if_neg before, if_neg before]
    split
    · rfl
    · rfl

theorem complete_of_covers (covers : Covers record.count record.dests.length 0 record.handed) : record.Complete := by
  intro dest
  rw [covers dest]
  split
  · rfl
  · split
    · rfl
    · rfl

theorem holds_self (record : LargeTx) : record.holds record.seqNo = true := by
  rw [holds, steps_self, decide_eq_true_eq]
  exact LargeSend.count_pos

theorem Same.holds (same : Same record record') (seqNo : SeqNo) : record'.holds seqNo = record.holds seqNo := by
  rw [LargeTx.holds, LargeTx.holds, count, count, same.seqNo, same.send]

theorem atFirst_append {p : LargeTx → Bool} {front back : List LargeTx} (f : LargeTx → LargeTx)
    (none_ : ∀ q ∈ front, p q = false) (own : p record = true) :
    atFirst p f (front ++ record :: back) = front ++ f record :: back := by
  induction front with
  | nil => rw [List.nil_append, atFirst, if_pos own, List.nil_append]
  | cons q front ih =>
    rw [List.cons_append, atFirst, if_neg (by simp [none_ q]), ih fun r mem => none_ r (List.mem_cons_of_mem _ mem)]
    rfl

theorem find_append {p : LargeTx → Bool} {front back : List LargeTx} (none_ : ∀ q ∈ front, p q = false) (own : p record = true) :
    (front ++ record :: back).find? p = some record := by
  rw [List.find?_append, List.find?_eq_none.mpr (by simpa using none_), Option.none_or, List.find?_cons_of_pos own]

end LargeTx

namespace LargePublisher

variable {config : LargeConfig} {around : Surroundings} {pub pub' : LargePublisher} {done rest : List LargeTx}

/-- The send of `record`, from where the cursor stands. -/
def sending (pub : LargePublisher) (record : LargeTx) : Sending := ⟨record, pub.nextDest, pub.nextIndex, pub.calls⟩

/-- Nothing of what waits has gone, but of the record the cursor stands at: it is encoded, and the cursor stands behind what went
of it. -/
def Begun (pub : LargePublisher) (rest : List LargeTx) : Prop :=
  (pub.cursor = none ∧ ∀ record ∈ rest, record.handed = []) ∨
  ∃ record more, rest = record :: more ∧ pub.cursor = some record.seqNo ∧ record.dests = pub.dests ∧
    pub.nextDest < pub.dests.length ∧ (pub.sending record).Good none ∧ ∀ later ∈ more, later.handed = []

/-- What was dropped from the ring, and what could not be finished. -/
structure Past (pub : LargePublisher) : Prop where
  dropped : ∀ record ∈ pub.dropped, record.Faithful ∧ record.Partial ∧ (record.sent = true → record.Complete)
  unfinished : ∀ record ∈ pub.unfinished, record.Faithful ∧ record.Partial ∧ record.codec.whole = false

/-- The ring: the records that have gone, and then those that have not. -/
structure Lined (pub : LargePublisher) (done rest : List LargeTx) : Prop where
  ring : pub.ring = done ++ rest
  gone : ∀ record ∈ done, record.Gone
  unsent : ∀ record ∈ rest, record.sent = false
  faithful : ∀ record ∈ rest, record.Faithful
  begun : pub.Begun rest
  apart : ∀ record ∈ rest, ∀ older ∈ done, older.holds record.seqNo = false
  spread : rest.Pairwise fun older record => older.holds record.seqNo = false
  pending : ∀ record, pub.pending = some record → record.Fresh ∧ record.encoded = record.send.cdrLen
  past : pub.Past

/-- No record of the ring has the seq_no that is next. -/
def Apart (pub : LargePublisher) : Prop := ∀ record ∈ pub.ring, record.holds (pub.seqNo + 1) = false

instance Apart.decidable (pub : LargePublisher) : Decidable pub.Apart :=
  inferInstanceAs (Decidable (∀ record ∈ pub.ring, record.holds (pub.seqNo + 1) = false))

/-- The oldest records go, each of which has gone out. -/
structure Sheds (pub pub' : LargePublisher) : Prop where
  ring : ∀ record ∈ pub'.ring, record ∈ pub.ring
  dropped : ∀ record ∈ pub'.dropped, record ∈ pub.dropped ∨ record.sent = true
  kept : ∀ record ∈ pub.dropped, record ∈ pub'.dropped
  pending : pub'.pending = pub.pending
  cursor : pub'.cursor = pub.cursor
  scheduled : pub'.scheduled = pub.scheduled
  source : pub'.source = pub.source
  matched : pub'.matched = pub.matched
  seqNo : pub'.seqNo = pub.seqNo

theorem Sheds.refl (pub : LargePublisher) : Sheds pub pub :=
  ⟨fun _ h => h, fun _ h => .inl h, fun _ h => h, rfl, rfl, rfl, rfl, rfl, rfl⟩

theorem Sheds.trans {pub'' : LargePublisher} (h : Sheds pub pub') (h' : Sheds pub' pub'') : Sheds pub pub'' := by
  refine ⟨fun r mem => h.ring r (h'.ring r mem), fun r mem => ?_, fun r mem => h'.kept r (h.kept r mem), h'.pending.trans h.pending,
    h'.cursor.trans h.cursor, h'.scheduled.trans h.scheduled, h'.source.trans h.source, h'.matched.trans h.matched,
    h'.seqNo.trans h.seqNo⟩
  rcases h'.dropped r mem with mem | sent
  · exact h.dropped r mem
  · exact .inr sent

theorem Sheds.apart (h : Sheds pub pub') (apart : pub.Apart) : pub'.Apart := by
  intro record mem
  rw [h.seqNo]
  exact apart record (h.ring record mem)

/-- A record that has gone leaves the ring. -/
theorem Lined.dropOldest_done {record : LargeTx} (lined : pub.Lined (record :: done) rest) :
    pub.dropOldest.Lined done rest ∧ Sheds pub pub.dropOldest := by
  have gone := lined.gone record (List.mem_cons_self ..)
  have eq : pub.dropOldest = { pub with ring := done ++ rest, dropped := pub.dropped ++ [record] } := by
    unfold dropOldest
    rw [lined.ring]
    dsimp only [List.cons_append]
    rw [if_neg (by rw [gone.sent]; nofun)]
  rw [eq]
  constructor
  · refine ⟨rfl, fun r mem => lined.gone r (List.mem_cons_of_mem _ mem), lined.unsent, lined.faithful, lined.begun,
      fun r mem q older => lined.apart r mem q (List.mem_cons_of_mem _ older), lined.spread, lined.pending, ?_, lined.past.unfinished⟩
    intro r mem
    rcases List.mem_append.mp mem with mem | mem
    · exact lined.past.dropped r mem
    · rw [List.mem_singleton.mp mem]
      exact ⟨gone.faithful, gone.complete.partial_, fun _ => gone.complete⟩
  · refine ⟨fun r mem => ?_, fun r mem => ?_, fun r mem => List.mem_append_left _ mem, rfl, rfl, rfl, rfl, rfl, rfl⟩
    · rw [lined.ring]
      exact List.mem_cons_of_mem _ mem
    · rcases List.mem_append.mp mem with mem | mem
      · exact .inl mem
      · rw [List.mem_singleton.mp mem]
        exact .inr gone.sent

theorem Lined.trim (lined : pub.Lined done rest) (bound n : Nat) :
    ∃ done', (pub.trim bound n).Lined done' rest ∧ Sheds pub (pub.trim bound n) := by
  induction n generalizing pub done with
  | zero => exact ⟨done, lined, .refl _⟩
  | succ n ih =>
    rw [LargePublisher.trim]
    split
    · next more =>
      cases done with
      | nil =>
        have sent := more.2
        rw [oldestSent, lined.ring, List.nil_append] at sent
        cases rest with
        | nil => cases sent
        | cons record rest =>
          rw [List.head?_cons, Option.any_some, lined.unsent record (List.mem_cons_self ..)] at sent
          cases sent
      | cons record done =>
        obtain ⟨lined', sheds⟩ := lined.dropOldest_done
        obtain ⟨done', lined'', sheds'⟩ := ih lined'
        exact ⟨done', lined'', sheds.trans sheds'⟩
    · exact ⟨done, lined, .refl _⟩

theorem Lined.calls (lined : pub.Lined done rest) (calls : Nat) : { pub with calls := calls }.Lined done rest := by
  refine ⟨lined.ring, lined.gone, lined.unsent, lined.faithful, ?_, lined.apart, lined.spread, lined.pending,
    lined.past.dropped, lined.past.unfinished⟩
  rcases lined.begun with idle | ⟨record, more, split, cursor, dests, left, good, fresh⟩
  · exact .inl idle
  · exact .inr ⟨record, more, split, cursor, dests, left, ⟨good.faithful, good.ready, good.covers, good.within, good.reached⟩, fresh⟩

theorem Lined.keepLast (lined : pub.Lined done rest) :
    ∃ done', (pub.keepLastBoundAcrossKinds around).Lined done' rest ∧ Sheds pub (pub.keepLastBoundAcrossKinds around) := by
  obtain ⟨done', lined', sheds⟩ := (lined.calls (pub.calls + 1)).trim 0 (around.spill pub.calls)
  exact ⟨done', lined', sheds.ring, sheds.dropped, sheds.kept, sheds.pending, sheds.cursor, sheds.scheduled, sheds.source,
    sheds.matched, sheds.seqNo⟩

/-- The ring is full of records that have not gone: the oldest goes, and the send of it stops. -/
theorem Lined.dropOldest_rest {record : LargeTx} (lined : pub.Lined [] (record :: rest)) :
    pub.dropOldest.Lined [] rest ∧ pub.dropOldest.cursor = none ∧ record ∈ pub.dropOldest.dropped ∧
      (∀ q ∈ pub.dropOldest.ring, q ∈ pub.ring) ∧ (∀ q ∈ pub.dropped, q ∈ pub.dropOldest.dropped) ∧
      pub.dropOldest.pending = pub.pending ∧ pub.dropOldest.source = pub.source ∧ pub.dropOldest.matched = pub.matched ∧
      pub.dropOldest.seqNo = pub.seqNo := by
  have unsent := lined.unsent record (List.mem_cons_self ..)
  have part : record.Partial ∧ (∀ later ∈ rest, later.handed = []) ∧
      (pub.cursor = none ∨ pub.cursor = some record.seqNo) := by
    rcases lined.begun with ⟨idle, fresh⟩ | ⟨first, more, split, cursor, _, _, good, fresh⟩
    · have own := fresh record (List.mem_cons_self ..)
      exact ⟨LargeTx.Fresh.partial_ ⟨lined.faithful record (List.mem_cons_self ..), own⟩,
        fun q mem => fresh q (List.mem_cons_of_mem _ mem), .inl idle⟩
    · obtain ⟨rfl, rfl⟩ := List.cons.inj split
      exact ⟨⟨_, _, good.within, good.covers⟩, fresh, .inr cursor⟩
  obtain ⟨part, fresh, cursor⟩ := part
  have eq : ∃ scheduled, pub.dropOldest =
      { pub with ring := rest, dropped := pub.dropped ++ [record], cursor := none, scheduled := scheduled } := by
    unfold dropOldest
    rw [lined.ring]
    dsimp only [List.nil_append]
    by_cases own : pub.cursor = some record.seqNo
    · rw [if_pos ⟨unsent, own⟩]
      exact ⟨false, rfl⟩
    · rw [if_neg (fun h => own h.2)]
      have idle := cursor.resolve_right own
      refine ⟨pub.scheduled, ?_⟩
      rw [← idle]
  obtain ⟨scheduled, eq⟩ := eq
  rw [eq]
  refine ⟨⟨rfl, nofun, fun q mem => lined.unsent q (List.mem_cons_of_mem _ mem),
    fun q mem => lined.faithful q (List.mem_cons_of_mem _ mem), .inl ⟨rfl, fresh⟩, nofun, (List.pairwise_cons.mp lined.spread).2,
    lined.pending, ?_, lined.past.unfinished⟩, rfl, List.mem_append_right _ (List.mem_singleton.mpr rfl), fun q mem => ?_,
    fun q mem => List.mem_append_left _ mem, rfl, rfl, rfl, rfl⟩
  · intro q mem
    rcases List.mem_append.mp mem with mem | mem
    · exact lined.past.dropped q mem
    · rw [List.mem_singleton.mp mem]
      refine ⟨lined.faithful record (List.mem_cons_self ..), part, ?_⟩
      rw [unsent]
      nofun
  · rw [lined.ring]
    exact List.mem_cons_of_mem _ mem

/-- The sample with the seq_nos it is committed with. -/
def committed (config : LargeConfig) (seqNo : SeqNo) (sample : LargeTx) : LargeTx :=
  { sample with seqNo := seqNo + 1, retained := config.reliable, sent := false }

theorem Lined.append {sample : LargeTx} (lined : pub.Lined done rest) (apart : pub.Apart) (fresh : sample.Fresh) (seqNo : SeqNo) :
    { pub with ring := pub.ring ++ [committed config pub.seqNo sample], seqNo := seqNo }.Lined done
      (rest ++ [committed config pub.seqNo sample]) := by
  have old : ∀ {q}, q ∈ done ∨ q ∈ rest → q.holds (committed config pub.seqNo sample).seqNo = false := by
    intro q mem
    exact apart q (by rw [lined.ring]; exact List.mem_append.mpr mem)
  refine ⟨?_, lined.gone, ?_, ?_, ?_, ?_, ?_, lined.pending, lined.past.dropped, lined.past.unfinished⟩
  · dsimp only
    rw [lined.ring, List.append_assoc]
  · intro q mem
    rcases List.mem_append.mp mem with mem | mem
    · exact lined.unsent q mem
    · rw [List.mem_singleton.mp mem]
      rfl
  · intro q mem
    rcases List.mem_append.mp mem with mem | mem
    · exact lined.faithful q mem
    · rw [List.mem_singleton.mp mem]
      exact ⟨fresh.faithful.size, fresh.faithful.length, fresh.faithful.within, fresh.faithful.same, fresh.faithful.payloads⟩
  · rcases lined.begun with ⟨idle, none_⟩ | ⟨first, more, split, cursor, dests, left, good, none_⟩
    · refine .inl ⟨idle, fun q mem => ?_⟩
      rcases List.mem_append.mp mem with mem | mem
      · exact none_ q mem
      · rw [List.mem_singleton.mp mem]
        exact fresh.handed
    · refine .inr ⟨first, more ++ [committed config pub.seqNo sample], by rw [split]; rfl, cursor, dests, left, good, fun q mem => ?_⟩
      rcases List.mem_append.mp mem with mem | mem
      · exact none_ q mem
      · rw [List.mem_singleton.mp mem]
        exact fresh.handed
  · intro q mem older behind
    rcases List.mem_append.mp mem with mem | mem
    · exact lined.apart q mem older behind
    · rw [List.mem_singleton.mp mem]
      exact old (.inl behind)
  · refine List.pairwise_append.mpr ⟨lined.spread, List.pairwise_singleton _ _, fun older mem q new => ?_⟩
    rw [List.mem_singleton.mp new]
    exact old (.inr mem)

/-- What a commit leaves: the sample behind the others, but for an oldest one that a full ring pushed out unsent. -/
structure Commits (config : LargeConfig) (pub pub' : LargePublisher) (rest rest' : List LargeTx) (sample : LargeTx) : Prop where
  pending : pub'.pending = pub.pending
  source : pub'.source = pub.source
  matched : pub'.matched = pub.matched
  kept : ∀ record ∈ pub.dropped, record ∈ pub'.dropped
  how : (rest' = rest ++ [committed config pub.seqNo sample] ∧ pub'.cursor = pub.cursor ∧ pub'.scheduled = pub.scheduled ∧
      ∀ record ∈ pub'.dropped, record ∈ pub.dropped ∨ record.sent = true) ∨
    (∃ record more, rest = record :: more ∧ rest' = more ++ [committed config pub.seqNo sample] ∧ pub'.cursor = none ∧
      record ∈ pub'.dropped ∧ config.retained ≤ rest.length)

theorem Lined.commit {sample : LargeTx} (lined : pub.Lined done rest) (apart : pub.Apart) (fresh : sample.Fresh) :
    ∃ done' rest', (pub.largeCommit config around sample).Lined done' rest' ∧
      Commits config pub (pub.largeCommit config around sample) rest rest' sample := by
  unfold largeCommit
  dsimp only
  obtain ⟨done₁, lined₁, sheds₁⟩ := lined.trim config.limit pub.ring.length
  obtain ⟨done₂, lined₂, sheds₂⟩ := @Lined.keepLast around _ _ _ lined₁
  have sheds := sheds₁.trans sheds₂
  have apart₂ := sheds.apart apart
  generalize (pub.trim config.limit pub.ring.length).keepLastBoundAcrossKinds around = pub₂ at *
  -- nothing that waits is dropped, or the ring was full of it
  have appended : ∀ {pub₃ : LargePublisher} {done₃ : List LargeTx}, pub₃.Lined done₃ rest → Sheds pub₂ pub₃ →
      ∃ done' rest', { pub₃ with
          ring := pub₃.ring ++ [{ sample with seqNo := pub₃.seqNo + 1, retained := config.reliable, sent := false }]
          seqNo := plus pub₃.seqNo sample.count }.Lined done' rest' ∧
        Commits config pub { pub₃ with
          ring := pub₃.ring ++ [{ sample with seqNo := pub₃.seqNo + 1, retained := config.reliable, sent := false }]
          seqNo := plus pub₃.seqNo sample.count } rest rest' sample := by
    intro pub₃ done₃ lined₃ sheds₃
    have all := sheds.trans sheds₃
    refine ⟨done₃, _, @Lined.append config pub₃ done₃ rest sample lined₃ (all.apart apart) fresh _, all.pending, all.source,
      all.matched, all.kept, .inl ⟨?_, all.cursor, all.scheduled, all.dropped⟩⟩
    rw [all.seqNo]
  split
  · next full =>
    cases done₂ with
    | cons record done₂ =>
      obtain ⟨lined₃, sheds₃⟩ := lined₂.dropOldest_done
      exact appended lined₃ sheds₃
    | nil =>
      cases rest with
      | nil =>
        have same : pub₂.dropOldest = pub₂ := by
          unfold dropOldest
          rw [lined₂.ring]
          rfl
        rw [same]
        exact appended lined₂ (.refl _)
      | cons record rest =>
        obtain ⟨lined₃, cursor, dropped, ring, kept, pending, source, matched, seqNo⟩ := lined₂.dropOldest_rest
        have apart₃ : pub₂.dropOldest.Apart := by
          intro q mem
          rw [seqNo]
          exact apart₂ q (ring q mem)
        refine ⟨[], _, @Lined.append config pub₂.dropOldest [] rest sample lined₃ apart₃ fresh _, pending.trans sheds.pending,
          source.trans sheds.source, matched.trans sheds.matched, fun q mem => kept q (sheds.kept q mem),
          .inr ⟨record, rest, rfl, ?_, cursor, dropped, ?_⟩⟩
        · rw [seqNo, sheds.seqNo]
        · rwa [lined₂.ring, List.nil_append] at full
  · exact appended lined₂ (.refl _)

/-! ## The pump -/

/-- Every record that waits is encoded, but for one whose publish is on. -/
def Encodes (pub : LargePublisher) (rest : List LargeTx) : Prop :=
  ∀ record ∈ rest, record.encoded = record.send.cdrLen ∨
    rest = [record] ∧ pub.source = some record.id ∧ pub.matched = true ∧ pub.cursor = none

/-- The cursor stands at a record. -/
structure Aimed (pub : LargePublisher) (done : List LargeTx) (record : LargeTx) (more : List LargeTx) : Prop where
  ring : pub.ring = done ++ record :: more
  gone : ∀ older ∈ done, older.Gone
  unsent : record.sent = false
  later : ∀ q ∈ more, q.sent = false ∧ q.Faithful ∧ q.handed = [] ∧ q.encoded = q.send.cdrLen
  cursor : pub.cursor = some record.seqNo
  dests : record.dests = pub.dests
  good : (pub.sending record).Good pub.source
  needs : record.encoded = record.send.cdrLen ∨ more = [] ∧ pub.nextDest < pub.dests.length
  within : pub.nextDest ≤ pub.dests.length
  idle : pub.nextDest = pub.dests.length → pub.nextIndex = 0
  apart : ∀ q ∈ record :: more, ∀ older ∈ done, older.holds q.seqNo = false
  spread : (record :: more).Pairwise fun older q => older.holds q.seqNo = false
  pending : ∀ q, pub.pending = some q → q.Fresh ∧ q.encoded = q.send.cdrLen
  past : pub.Past

theorem Sending.Good.any {s : Sending} {source : Option Nat} (good : s.Good none) : s.Good source :=
  ⟨good.faithful, .inr (good.ready.resolve_left nofun), good.covers, good.within, good.reached⟩

/-- The cursor of a send that stopped. -/
theorem Lined.aimed {seqNo : SeqNo} (lined : pub.Lined done rest) (encodes : pub.Encodes rest) (cursor : pub.cursor = some seqNo) :
    ∃ record more, rest = record :: more ∧ pub.Aimed done record more := by
  rcases lined.begun with ⟨idle, _⟩ | ⟨record, more, rfl, own, dests, left, good, fresh⟩
  · rw [cursor] at idle
    cases idle
  have whole : ∀ q ∈ record :: more, q.encoded = q.send.cdrLen := by
    intro q mem
    rcases encodes q mem with whole | ⟨_, _, _, idle⟩
    · exact whole
    · rw [cursor] at idle
      cases idle
  exact ⟨record, more, rfl, lined.ring, lined.gone, lined.unsent record (List.mem_cons_self ..),
    fun q mem => ⟨lined.unsent q (List.mem_cons_of_mem _ mem), lined.faithful q (List.mem_cons_of_mem _ mem), fresh q mem,
      whole q (List.mem_cons_of_mem _ mem)⟩,
    own, dests, Sending.Good.any good, .inl (whole record (List.mem_cons_self ..)), Nat.le_of_lt left,
    fun all => absurd all (Nat.ne_of_lt left), lined.apart, lined.spread, lined.pending, lined.past⟩

/-- The cursor put at the oldest record that has not gone. -/
def aim (around : Surroundings) (pub : LargePublisher) (done : List LargeTx) (record : LargeTx) (more : List LargeTx) :
    LargePublisher :=
  let dests := if pub.matched then around.dests pub.calls else []
  { pub with
    ring := done ++ { record with dests := dests } :: more
    cursor := some record.seqNo, dests := dests, nextDest := 0, nextIndex := 0, calls := pub.calls + 1 }

theorem Lined.aim {record : LargeTx} {more : List LargeTx} (lined : pub.Lined done (record :: more))
    (encodes : pub.Encodes (record :: more)) (idle : pub.cursor = none) :
    (pub.aim around done record more).Aimed done
      { record with dests := if pub.matched then around.dests pub.calls else [] } more := by
  have fresh : ∀ q ∈ record :: more, q.handed = [] := by
    rcases lined.begun with ⟨_, fresh⟩ | ⟨_, _, _, cursor, _⟩
    · exact fresh
    · rw [idle] at cursor
      cases cursor
  have faithful := lined.faithful record (List.mem_cons_self ..)
  have ready : record.Ready pub.source := by
    rcases encodes record (List.mem_cons_self ..) with whole | ⟨_, source, _⟩
    · exact .inr whole
    · exact .inl source
  refine ⟨rfl, lined.gone, lined.unsent record (List.mem_cons_self ..), ?_, rfl, rfl, ?_, ?_, Nat.zero_le _, fun _ => rfl, ?_, ?_,
    lined.pending, lined.past.dropped, lined.past.unfinished⟩
  · intro q mem
    refine ⟨lined.unsent q (List.mem_cons_of_mem _ mem), lined.faithful q (List.mem_cons_of_mem _ mem),
      fresh q (List.mem_cons_of_mem _ mem), ?_⟩
    rcases encodes q (List.mem_cons_of_mem _ mem) with whole | ⟨alone, _⟩
    · exact whole
    · obtain ⟨_, rfl⟩ := List.cons.inj alone
      cases mem
  · refine ⟨⟨faithful.size, faithful.length, faithful.within, faithful.same, faithful.payloads⟩, ready, ?_, Nat.zero_le _, nofun⟩
    change Covers record.count 0 0 record.handed
    rw [fresh record (List.mem_cons_self ..)]
    exact LargeTx.covers_nil _
  · rcases encodes record (List.mem_cons_self ..) with whole | ⟨alone, _, matched, _⟩
    · exact .inl whole
    · refine .inr ⟨(List.cons.inj alone).2, ?_⟩
      change 0 < (if pub.matched then around.dests pub.calls else []).length
      rw [if_pos matched]
      exact List.length_pos_iff.mpr (around.dests_some _)
  · intro q mem older behind
    rcases List.mem_cons.mp mem with rfl | mem
    · exact lined.apart record (List.mem_cons_self ..) older behind
    · exact lined.apart q (List.mem_cons_of_mem _ mem) older behind
  · have spread := List.pairwise_cons.mp lined.spread
    exact List.pairwise_cons.mpr ⟨spread.1, spread.2⟩

theorem Lined.nextUnsent_cons {record : LargeTx} {more : List LargeTx} (lined : pub.Lined done (record :: more)) :
    pub.largeNextUnsent = some record := by
  rw [largeNextUnsent, lined.ring]
  exact LargeTx.find_append (fun q mem => by simp [(lined.gone q mem).sent]) (by
    rw [lined.unsent record (List.mem_cons_self ..)]
    rfl)

theorem Lined.nextUnsent_nil (lined : pub.Lined done []) : pub.largeNextUnsent = none := by
  rw [largeNextUnsent, lined.ring, List.append_nil, List.find?_eq_none]
  intro q mem
  simp [(lined.gone q mem).sent]

theorem Lined.cursorNext_cons {record : LargeTx} {more : List LargeTx} (lined : pub.Lined done (record :: more)) :
    pub.largeCursorNext config around = (pub.aim around done record more, true) := by
  unfold largeCursorNext
  rw [lined.nextUnsent_cons]
  dsimp only [Option.isNone_some]
  rw [if_neg nofun, lined.nextUnsent_cons]
  dsimp only
  rw [lined.ring, LargeTx.atFirst_append _ (fun q mem => by simp [(lined.gone q mem).sent]) (by
    rw [lined.unsent record (List.mem_cons_self ..)]
    rfl)]
  rfl

theorem Lined.cursorNext_none (lined : pub.Lined done []) (none_ : pub.pending = none) :
    pub.largeCursorNext config around = (pub, false) := by
  unfold largeCursorNext
  rw [lined.nextUnsent_nil]
  dsimp only [Option.isNone_none]
  rw [if_pos rfl, largeCommitPending, none_]
  dsimp only
  rw [lined.nextUnsent_nil]

/-- The sample that waits is committed, and the cursor stands at it. -/
theorem Lined.cursorNext_pending {sample : LargeTx} (lined : pub.Lined done []) (waits : pub.pending = some sample)
    (apart : pub.Apart) :
    ∃ done' pub', pub'.Lined done' [committed config pub.seqNo sample] ∧
      Commits config { pub with pending := none } pub' [] [committed config pub.seqNo sample] sample ∧
      pub.largeCursorNext config around = (pub'.aim around done' (committed config pub.seqNo sample) [], true) := by
  have bare : { pub with pending := none }.Lined done [] :=
    ⟨lined.ring, lined.gone, lined.unsent, lined.faithful, lined.begun, lined.apart, lined.spread, nofun, lined.past.dropped,
      lined.past.unfinished⟩
  obtain ⟨done', rest', lined', commits⟩ := @Lined.commit config around _ _ _ sample bare apart (lined.pending sample waits).1
  have alone : rest' = [committed config pub.seqNo sample] := by
    rcases commits.how with ⟨split, _⟩ | ⟨_, _, split, _⟩
    · rw [split]
      rfl
    · cases split
  rw [alone] at lined' commits
  refine ⟨done', _, lined', commits, ?_⟩
  unfold largeCursorNext
  rw [lined.nextUnsent_nil]
  dsimp only [Option.isNone_none]
  rw [if_pos rfl, largeCommitPending, waits]
  have next := @Lined.cursorNext_cons config around _ _ _ _ lined'
  unfold largeCursorNext at next
  rw [lined'.nextUnsent_cons] at next
  dsimp only [Option.isNone_some] at next
  rw [if_neg nofun] at next
  dsimp only
  exact next

/-- What a turn of the pump keeps. -/
structure Turned (pub pub' : LargePublisher) : Prop where
  pending : pub'.pending = pub.pending
  apart : pub.Apart → pub'.Apart
  dropped : ∀ record ∈ pub'.dropped, record ∈ pub.dropped ∨ record.sent = true
  kept : ∀ record ∈ pub.dropped, record ∈ pub'.dropped

theorem Turned.trans {pub'' : LargePublisher} (h : Turned pub pub') (h' : Turned pub' pub'') : Turned pub pub'' := by
  refine ⟨h'.pending.trans h.pending, fun apart => h'.apart (h.apart apart), fun r mem => ?_, fun r mem => h'.kept r (h.kept r mem)⟩
  rcases h'.dropped r mem with mem | sent
  · exact h.dropped r mem
  · exact .inr sent

theorem Sheds.turned (h : Sheds pub pub') : Turned pub pub' := ⟨h.pending, h.apart, h.dropped, h.kept⟩

theorem Aimed.find {record : LargeTx} {more : List LargeTx} (aimed : pub.Aimed done record more) :
    pub.largeFind record.seqNo = some record := by
  rw [largeFind, aimed.ring]
  exact LargeTx.find_append (aimed.apart record (List.mem_cons_self ..)) record.holds_self

/-- The record as the send leaves it, and the cursor over it. -/
def sent (pub : LargePublisher) (done more : List LargeTx) (left : Sending) : LargePublisher :=
  { pub with
    ring := done ++ left.record :: more
    nextDest := left.nextDest, nextIndex := left.nextIndex, calls := left.calls }

theorem Aimed.atFirst {record : LargeTx} {more : List LargeTx} (aimed : pub.Aimed done record more) (f : LargeTx → LargeTx)
    {record' : LargeTx} (same : LargeTx.Same record record') :
    LargeTx.atFirst (fun r => r.holds record.seqNo) f (done ++ record' :: more) = done ++ f record' :: more :=
  LargeTx.atFirst_append f (aimed.apart record (List.mem_cons_self ..)) (by rw [same.holds]; exact record.holds_self)

theorem Aimed.pump_eq {record : LargeTx} {more : List LargeTx} (aimed : pub.Aimed done record more) (fuel : Nat)
    {left : Sending × Went}
    (sends : (pub.sending record).sendSome around.net pub.source (pub.dests.drop pub.nextDest) = left) :
    (left.2 = .stopped → pub.largePump config around (fuel + 1) = { pub.sent done more left.1 with scheduled := true }) ∧
    (left.2 = .failed → pub.largePump config around (fuel + 1) =
      ((pub.sent done more left.1).largeDropUnfinished left.1.record).largePump config around fuel) ∧
    (left.2 = .done → pub.largePump config around (fuel + 1) =
      ((pub.sent done more left.1).largeRecordSent config around record.seqNo left.1.record).largePump config around fuel) := by
  rw [largePump]
  dsimp only
  rw [if_pos (by rw [aimed.cursor]; rfl)]
  unfold sent
  dsimp only
  rw [aimed.cursor]
  dsimp only
  rw [aimed.find]
  dsimp only
  unfold sending at sends
  rw [sends, aimed.ring, aimed.atFirst _ (.refl _)]
  refine ⟨?_, ?_, ?_⟩
  · intro stopped
    rw [stopped]
  · intro failed
    rw [failed]
  · intro done_
    rw [done_]

section Turn

variable {record : LargeTx} {more : List LargeTx} {left : Sending × Went}

theorem Aimed.passes (aimed : pub.Aimed done record more)
    (sends : (pub.sending record).sendSome around.net pub.source (pub.dests.drop pub.nextDest) = left) :
    Sending.Passes pub.source (pub.sending record) (pub.dests.drop pub.nextDest) left := by
  rw [← sends]
  exact Sending.sendSome_passes _ aimed.good

theorem Aimed.sent_apart (aimed : pub.Aimed done record more) (same : LargeTx.Same record left.1.record) :
    (pub.Apart → (pub.sent done more left.1).Apart) := by
  intro apart q mem
  have ring := aimed.ring
  rcases List.mem_append.mp mem with mem | mem
  · exact apart q (by rw [ring]; exact List.mem_append_left _ mem)
  rcases List.mem_cons.mp mem with rfl | mem
  · rw [same.holds]
    exact apart record (by rw [ring]; exact List.mem_append_right _ (List.mem_cons_self ..))
  · exact apart q (by rw [ring]; exact List.mem_append_right _ (List.mem_cons_of_mem _ mem))

/-- The send stopped: the cursor stands where it did. -/
theorem Aimed.stopped (aimed : pub.Aimed done record more)
    (sends : (pub.sending record).sendSome around.net pub.source (pub.dests.drop pub.nextDest) = left) (stopped : left.2 = .stopped) :
    { pub.sent done more left.1 with scheduled := true }.Lined done (left.1.record :: more) ∧
      (∀ q ∈ left.1.record :: more, q.encoded = q.send.cdrLen) ∧
      Turned pub { pub.sent done more left.1 with scheduled := true } := by
  have passes := aimed.passes sends
  have same : LargeTx.Same record left.1.record := passes.same
  obtain ⟨whole, short⟩ := passes.stopped stopped
  change left.1.record.encoded = record.send.cdrLen at whole
  rw [← same.send] at whole
  have good := passes.good
  rw [List.length_drop] at short
  change left.1.nextDest < pub.nextDest + _ at short
  refine ⟨⟨rfl, aimed.gone, ?_, ?_, .inr ⟨left.1.record, more, rfl, ?_, ?_, ?_, ?_, fun q mem => (aimed.later q mem).2.2.1⟩, ?_, ?_,
    aimed.pending, aimed.past.dropped, aimed.past.unfinished⟩, ?_, rfl, aimed.sent_apart same, fun _ mem => .inl mem, fun _ mem => mem⟩
  · intro q mem
    rcases List.mem_cons.mp mem with rfl | mem
    · rw [same.sent]
      exact aimed.unsent
    · exact (aimed.later q mem).1
  · intro q mem
    rcases List.mem_cons.mp mem with rfl | mem
    · exact good.faithful
    · exact (aimed.later q mem).2.1
  · change pub.cursor = _
    rw [aimed.cursor, same.seqNo]
  · rw [same.dests]
    exact aimed.dests
  · have := aimed.within
    change left.1.nextDest < pub.dests.length
    omega
  · exact ⟨good.faithful, .inr whole, good.covers, good.within, good.reached⟩
  · intro q mem older behind
    rcases List.mem_cons.mp mem with rfl | mem
    · rw [same.seqNo]
      exact aimed.apart record (List.mem_cons_self ..) older behind
    · exact aimed.apart q (List.mem_cons_of_mem _ mem) older behind
  · have spread := List.pairwise_cons.mp aimed.spread
    refine List.pairwise_cons.mpr ⟨fun q mem => ?_, spread.2⟩
    rw [same.holds]
    exact spread.1 q mem
  · intro q mem
    rcases List.mem_cons.mp mem with rfl | mem
    · exact whole
    · exact (aimed.later q mem).2.2.2

/-- The sample could not be finished: the record, the newest, is gone. -/
theorem Aimed.failed (aimed : pub.Aimed done record more)
    (sends : (pub.sending record).sendSome around.net pub.source (pub.dests.drop pub.nextDest) = left) (failed : left.2 = .failed) :
    more = [] ∧ ((pub.sent done more left.1).largeDropUnfinished left.1.record).Lined done [] ∧
      Turned pub ((pub.sent done more left.1).largeDropUnfinished left.1.record) := by
  have passes := aimed.passes sends
  have same : LargeTx.Same record left.1.record := passes.same
  have fails : record.Fails := passes.failed failed
  obtain ⟨rfl, _⟩ := aimed.needs.resolve_left fails.2
  have ring : ((pub.sent done [] left.1).largeDropUnfinished left.1.record).ring = done := List.dropLast_concat
  refine ⟨rfl, ⟨by rw [ring, List.append_nil], aimed.gone, nofun, nofun, .inl ⟨rfl, nofun⟩, nofun, .nil, aimed.pending,
    aimed.past.dropped, ?_⟩, rfl, fun apart q mem => ?_, fun _ mem => .inl mem, fun _ mem => mem⟩
  · intro q mem
    rcases List.mem_append.mp mem with mem | mem
    · exact aimed.past.unfinished q mem
    · rw [List.mem_singleton.mp mem]
      exact ⟨passes.good.faithful, ⟨_, _, passes.good.within, passes.good.covers⟩, by rw [same.codec]; exact fails.1⟩
  · rw [ring] at mem
    exact apart q (by rw [aimed.ring]; exact List.mem_append_left _ mem)

/-- Every destination has the record: it has gone, and the records the ring keeps no longer with it. -/
theorem Aimed.done_ (aimed : pub.Aimed done record more)
    (sends : (pub.sending record).sendSome around.net pub.source (pub.dests.drop pub.nextDest) = left) (all : left.2 = .done) :
    ∃ done', ((pub.sent done more left.1).largeRecordSent config around record.seqNo left.1.record).Lined done' more ∧
      ((pub.sent done more left.1).largeRecordSent config around record.seqNo left.1.record).cursor = none ∧
      Turned pub ((pub.sent done more left.1).largeRecordSent config around record.seqNo left.1.record) := by
  have passes := aimed.passes sends
  have same : LargeTx.Same record left.1.record := passes.same
  have good := passes.good
  obtain ⟨reached, some_, none_⟩ := passes.done all
  rw [List.length_drop] at reached
  change left.1.nextDest = pub.nextDest + _ at reached
  have total : left.1.nextDest = left.1.record.dests.length := by
    have := aimed.within
    rw [same.dests, aimed.dests]
    omega
  -- with no destination left nothing went, and the record was encoded whole
  have last : left.1.nextIndex = 0 ∧ left.1.record.encoded = left.1.record.send.cdrLen := by
    rw [same.send]
    by_cases more_ : pub.dests.drop pub.nextDest = []
    · obtain ⟨index, unchanged⟩ := none_ more_
      have past := List.drop_eq_nil_iff.mp more_
      have end_ : pub.nextDest = pub.dests.length := Nat.le_antisymm aimed.within past
      refine ⟨index.trans (aimed.idle end_), ?_⟩
      rw [unchanged]
      exact aimed.needs.resolve_right fun h => by omega
    · exact some_ more_
  have gone : LargeTx.Gone { left.1.record with sent := true } := by
    refine ⟨rfl, ⟨good.faithful.size, good.faithful.length, good.faithful.within, good.faithful.same, good.faithful.payloads⟩,
      last.2, LargeTx.complete_of_covers ?_⟩
    have covers := good.covers
    rw [last.1, total] at covers
    exact covers
  have holds : ∀ seqNo, ({ left.1.record with sent := true } : LargeTx).holds seqNo = record.holds seqNo := same.holds
  unfold largeRecordSent
  dsimp only [sent]
  rw [aimed.atFirst _ same]
  have spread := List.pairwise_cons.mp aimed.spread
  have lined : LargePublisher.Lined
      { pub with
        ring := done ++ { left.1.record with sent := true } :: more, cursor := none
        nextDest := left.1.nextDest, nextIndex := left.1.nextIndex, calls := left.1.calls }
      (done ++ [{ left.1.record with sent := true }]) more := by
    refine ⟨by simp, ?_, fun q mem => (aimed.later q mem).1, fun q mem => (aimed.later q mem).2.1,
      .inl ⟨rfl, fun q mem => (aimed.later q mem).2.2.1⟩, ?_, spread.2, aimed.pending, aimed.past.dropped, aimed.past.unfinished⟩
    · intro q mem
      rcases List.mem_append.mp mem with mem | mem
      · exact aimed.gone q mem
      · rw [List.mem_singleton.mp mem]
        exact gone
    · intro q mem older behind
      rcases List.mem_append.mp behind with behind | behind
      · exact aimed.apart q (List.mem_cons_of_mem _ mem) older behind
      · rw [List.mem_singleton.mp behind, holds]
        exact spread.1 q mem
  have turned : Turned pub
      { pub with
        ring := done ++ { left.1.record with sent := true } :: more, cursor := none
        nextDest := left.1.nextDest, nextIndex := left.1.nextIndex, calls := left.1.calls } := by
    refine ⟨rfl, fun apart q mem => ?_, fun _ mem => .inl mem, fun _ mem => mem⟩
    have earlier := aimed.sent_apart same apart
    rcases List.mem_append.mp mem with mem | mem
    · exact earlier q (List.mem_append_left _ mem)
    rcases List.mem_cons.mp mem with rfl | mem
    · rw [holds, ← same.holds]
      exact earlier _ (List.mem_append_right _ (List.mem_cons_self ..))
    · exact earlier q (List.mem_append_right _ (List.mem_cons_of_mem _ mem))
  split
  · obtain ⟨first, done', split⟩ := List.exists_cons_of_ne_nil
      (l := done ++ [({ left.1.record with sent := true } : LargeTx)]) (by simp)
    rw [split] at lined
    obtain ⟨lined', sheds⟩ := lined.dropOldest_done
    exact ⟨done', lined', sheds.cursor, turned.trans sheds.turned⟩
  · obtain ⟨done₁, lined₁, sheds₁⟩ := lined.trim (config.limit + 1) (done ++ { left.1.record with sent := true } :: more).length
    obtain ⟨done₂, lined₂, sheds₂⟩ := @Lined.keepLast around _ _ _ lined₁
    have sheds := sheds₁.trans sheds₂
    exact ⟨done₂, lined₂, sheds.cursor, turned.trans sheds.turned⟩

end Turn

/-- What the pump leaves: a send that stopped and goes on from the scheduler, or nothing left to send. -/
def Pumped (pub pub' : LargePublisher) : Prop :=
  ∃ done rest, pub'.Lined done rest ∧ (∀ record ∈ rest, record.encoded = record.send.cdrLen) ∧
    (pub'.cursor ≠ none ∧ pub'.scheduled = true ∨ pub'.cursor = none ∧ rest = [] ∧ pub'.pending = none) ∧
    (∀ record ∈ pub'.dropped, record ∈ pub.dropped ∨ record.sent = true) ∧ ∀ record ∈ pub.dropped, record ∈ pub'.dropped

theorem Pumped.behind {pub'' : LargePublisher} (dropped : ∀ record ∈ pub'.dropped, record ∈ pub.dropped ∨ record.sent = true)
    (kept : ∀ record ∈ pub.dropped, record ∈ pub'.dropped) (h : Pumped pub' pub'') : Pumped pub pub'' := by
  obtain ⟨done, rest, lined, whole, how, dropped', kept'⟩ := h
  refine ⟨done, rest, lined, whole, how, fun record mem => ?_, fun record mem => kept' record (kept record mem)⟩
  rcases dropped' record mem with mem | sent
  · exact dropped record mem
  · exact .inr sent

/-- A turn of the pump, and what the turns behind it leave. -/
theorem Aimed.pump {record : LargeTx} {more : List LargeTx} {fuel : Nat} (aimed : pub.Aimed done record more)
    (turns : ∀ {pub' : LargePublisher} {done' : List LargeTx}, pub'.Lined done' more → pub'.Encodes more → Turned pub pub' →
      Pumped pub' (pub'.largePump config around fuel)) :
    Pumped pub (pub.largePump config around (fuel + 1)) := by
  generalize sends : (pub.sending record).sendSome around.net pub.source (pub.dests.drop pub.nextDest) = left
  obtain ⟨stopped, failed, all⟩ := @Aimed.pump_eq config around _ _ _ _ aimed fuel _ sends
  have encodes : ∀ pub' : LargePublisher, pub'.Encodes more := fun _ q mem => .inl (aimed.later q mem).2.2.2
  cases went : left.2 with
  | stopped =>
    rw [stopped went]
    obtain ⟨lined, whole, turned⟩ := aimed.stopped sends went
    refine ⟨_, _, lined, whole, .inl ⟨?_, rfl⟩, turned.dropped, turned.kept⟩
    change pub.cursor ≠ none
    rw [aimed.cursor]
    nofun
  | failed =>
    rw [failed went]
    obtain ⟨rfl, lined, turned⟩ := aimed.failed sends went
    exact (turns lined (encodes _) turned).behind turned.dropped turned.kept
  | done =>
    rw [all went]
    obtain ⟨done', lined, _, turned⟩ := @Aimed.done_ config around _ _ _ _ _ aimed sends went
    exact (turns lined (encodes _) turned).behind turned.dropped turned.kept

theorem largePump_next {fuel : Nat} (idle : pub.cursor = none) (next : pub.largeCursorNext config around = (pub', true))
    (cursor : pub'.cursor ≠ none) : pub.largePump config around (fuel + 1) = pub'.largePump config around (fuel + 1) := by
  obtain ⟨seqNo, own⟩ := Option.ne_none_iff_exists'.mp cursor
  rw [largePump, largePump]
  dsimp only
  rw [idle, own]
  dsimp only [Option.isSome_none, Option.isSome_some]
  rw [if_neg nofun, if_pos rfl, next]

theorem largePump_idle {fuel : Nat} (idle : pub.cursor = none) (next : pub.largeCursorNext config around = (pub, false)) :
    pub.largePump config around (fuel + 1) = pub := by
  rw [largePump]
  dsimp only
  rw [idle]
  dsimp only [Option.isSome_none]
  rw [if_neg nofun, next]

theorem Lined.pump {fuel : Nat} (lined : pub.Lined done rest) (encodes : pub.Encodes rest) (apart : pub.pending ≠ none → pub.Apart)
    (enough : rest.length + pub.pending.toList.length < fuel) : Pumped pub (pub.largePump config around fuel) := by
  induction fuel generalizing pub done rest with
  | zero => exact absurd enough (Nat.not_lt_zero _)
  | succ fuel ih =>
    cases cursor : pub.cursor with
    | some seqNo =>
      obtain ⟨record, more, rfl, aimed⟩ := lined.aimed encodes cursor
      refine aimed.pump fun lined' encodes' turned => ih lined' encodes' ?_ ?_
      · rw [turned.pending]
        exact fun waits => turned.apart (apart waits)
      · rw [turned.pending]
        rw [List.length_cons] at enough
        omega
    | none =>
      cases rest with
      | cons record more =>
        rw [largePump_next cursor lined.cursorNext_cons nofun]
        refine Pumped.behind (fun _ mem => .inl mem) (fun _ mem => mem)
          ((lined.aim encodes cursor).pump fun lined' encodes' turned => ih lined' encodes' ?_ ?_)
        · rw [turned.pending]
          intro waits
          refine turned.apart fun q mem => ?_
          have earlier := apart waits
          rcases List.mem_append.mp mem with mem | mem
          · exact earlier q (by rw [lined.ring]; exact List.mem_append_left _ mem)
          rcases List.mem_cons.mp mem with rfl | mem
          · exact earlier record (by rw [lined.ring]; exact List.mem_append_right _ (List.mem_cons_self ..))
          · exact earlier q (by rw [lined.ring]; exact List.mem_append_right _ (List.mem_cons_of_mem _ mem))
        · rw [turned.pending]
          rw [List.length_cons] at enough
          change more.length + pub.pending.toList.length < fuel
          omega
      | nil =>
        cases waits : pub.pending with
        | none =>
          rw [largePump_idle cursor (lined.cursorNext_none waits)]
          exact ⟨done, [], lined, nofun, .inr ⟨cursor, rfl, waits⟩, fun _ mem => .inl mem, fun _ mem => mem⟩
        | some sample =>
          obtain ⟨done', pub', lined', commits, next⟩ :=
            @Lined.cursorNext_pending config around _ _ _ lined waits (apart (by rw [waits]; nofun))
          rw [largePump_next cursor next nofun]
          have none_ : pub'.pending = none := commits.pending
          have idle : pub'.cursor = none ∧ ∀ record ∈ pub'.dropped, record ∈ pub.dropped ∨ record.sent = true := by
            rcases commits.how with ⟨_, same, _, dropped⟩ | ⟨_, _, split, _⟩
            · exact ⟨same.trans cursor, dropped⟩
            · cases split
          have whole : pub'.Encodes [committed config pub.seqNo sample] := by
            intro q mem
            rw [List.mem_singleton.mp mem]
            exact .inl (lined.pending sample waits).2
          refine Pumped.behind (fun record mem => idle.2 record mem) commits.kept
            ((lined'.aim whole idle.1).pump fun lined'' encodes' turned => ih lined'' encodes' ?_ ?_)
          · rw [turned.pending]
            change pub'.pending ≠ none → _
            rw [none_]
            exact fun absurd_ => absurd rfl absurd_
          · rw [turned.pending]
            change 0 + pub'.pending.toList.length < fuel
            rw [none_]
            rw [waits] at enough
            simp only [List.length_nil, Option.toList_some, List.length_singleton] at enough
            simp only [Option.toList_none, List.length_nil]
            omega

/-! ## From publish to publish -/

theorem roundup_ge (n : Nat) : n ≤ roundup n := by
  unfold roundup
  omega

/-- What a sample is committed as: nothing of it has gone, and it is encoded, unless the send is to encode it. -/
theorem encode_spec {sample : LargeSample} {interleaves : Bool} {record : LargeTx}
    (large : config.maxSampleLength < sample.codec.cdr.length) (encoded : encode config sample interleaves = some record) :
    record.Fresh ∧ (record.encoded = record.send.cdrLen ∨ interleaves = true) := by
  have padded := roundup_ge sample.codec.cdr.length
  unfold encode at encoded
  dsimp only at encoded
  generalize hsend : (⟨config.controlMaxLength, roundup sample.codec.cdr.length, config.framed⟩ : LargeSend) = send at encoded
  have cdrLen : send.cdrLen = roundup sample.codec.cdr.length := by rw [← hsend]
  rw [← cdrLen] at encoded padded
  have first : send.largeFirstPayload < sample.codec.cdr.length := by
    rw [← hsend]
    exact Nat.lt_of_le_of_lt config.first_le large
  have empty : ((List.range send.cdrLen).map sample.fill).length = send.cdrLen := by rw [List.length_map, List.length_range]
  split at encoded
  · next interleaved =>
    cases encoded
    have taken : (sample.codec.cdr.take send.largeFirstPayload).length = send.largeFirstPayload := by
      rw [List.length_take]
      omega
    refine ⟨⟨⟨by dsimp only; omega, ?_, by dsimp only; omega, ?_, fun _ mem => absurd mem List.not_mem_nil⟩, rfl⟩, .inr interleaved.1⟩
    · dsimp only
      rw [overwrite_length_of_le (by omega), empty]
    · have upTo := @overwrite_take ((List.range send.cdrLen).map sample.fill) (sample.codec.cdr.take send.largeFirstPayload) 0
        (Nat.zero_le _)
      rw [taken, Nat.zero_add, List.take_zero, List.nil_append] at upTo
      rw [upTo, LargeTx.image, List.take_append_of_le_length (by dsimp only; omega)]
  · split at encoded
    · cases encoded
      have zeros : (List.replicate (send.cdrLen - sample.codec.cdr.length) (0 : UInt8)).length =
          send.cdrLen - sample.codec.cdr.length := List.length_replicate
      have written : (overwrite ((List.range send.cdrLen).map sample.fill) 0 sample.codec.cdr).length = send.cdrLen := by
        rw [overwrite_length_of_le (by omega), empty]
      refine ⟨⟨⟨by dsimp only; omega, ?_, Nat.le_refl _, ?_, fun _ mem => absurd mem List.not_mem_nil⟩, rfl⟩, .inl rfl⟩
      · dsimp only
        rw [overwrite_length_of_le (by omega), written]
      · have upTo := @overwrite_take ((List.range send.cdrLen).map sample.fill) sample.codec.cdr 0 (Nat.zero_le _)
        rw [Nat.zero_add, List.take_zero, List.nil_append] at upTo
        have all := @overwrite_take (overwrite ((List.range send.cdrLen).map sample.fill) 0 sample.codec.cdr)
          (List.replicate (send.cdrLen - sample.codec.cdr.length) 0) sample.codec.cdr.length (by omega)
        rw [zeros, Nat.add_sub_cancel' (by omega), upTo] at all
        rw [all, LargeTx.image, List.take_of_length_le]
        dsimp only
        rw [List.length_append, zeros]
        omega
    · cases encoded

/-- A send that goes on from the scheduler, or nothing left to send; or a record that a full ring pushed out before it went. -/
def Settled (pub : LargePublisher) (rest : List LargeTx) : Prop :=
  pub.cursor ≠ none ∧ pub.scheduled = true ∨ pub.cursor = none ∧ rest = [] ∧ pub.pending = none ∨
    rest ≠ [] ∧ ∃ record ∈ pub.dropped, record.sent = false

/-- Nothing has left the ring that had not gone. -/
def Spares (pub pub' : LargePublisher) : Prop := ∀ record ∈ pub'.dropped, record ∈ pub.dropped ∨ record.sent = true

/-- What every event leaves. -/
def Steady (pub : LargePublisher) : Prop :=
  ∃ done rest, pub.Lined done rest ∧ (∀ record ∈ rest, record.encoded = record.send.cdrLen) ∧ pub.Settled rest

theorem Pumped.steady (h : Pumped pub pub') : pub'.Steady := by
  obtain ⟨done, rest, lined, whole, how, _⟩ := h
  refine ⟨done, rest, lined, whole, ?_⟩
  rcases how with stopped | idle
  · exact .inl stopped
  · exact .inr (.inl idle)

theorem Pumped.spares (h : Pumped pub pub') : Spares pub pub' := by
  obtain ⟨_, _, _, _, _, dropped, _⟩ := h
  exact dropped

theorem Lined.waits (lined : pub.Lined done rest) (settled : pub.Settled rest) (none_ : rest = []) :
    pub.cursor = none ∧ pub.pending = none := by
  rcases settled with ⟨going, _⟩ | ⟨idle, _, waits⟩ | ⟨some_, _⟩
  · rcases lined.begun with ⟨idle, _⟩ | ⟨_, _, split, _⟩
    · exact absurd idle going
    · rw [none_] at split
      cases split
  · exact ⟨idle, waits⟩
  · exact absurd none_ some_

theorem Steady.large {sample : LargeSample} (steady : pub.Steady) (apart : pub.Apart)
    (large : config.maxSampleLength < sample.codec.cdr.length) :
    (pub.publishLarge config around sample).Steady ∧ Spares pub (pub.publishLarge config around sample) := by
  obtain ⟨done, rest, lined, whole, settled⟩ := steady
  unfold publishLarge
  dsimp only
  generalize hnow : (pub.cursor.isNone && pub.largeNextUnsent.isNone) = sendingNow
  cases encoded : encode config sample (sendingNow && pub.matched && !sample.locally) with
  | none => exact ⟨⟨done, rest, lined, whole, settled⟩, fun _ mem => .inl mem⟩
  | some record =>
    obtain ⟨fresh, ready⟩ := encode_spec large encoded
    dsimp only
    split
    · exact ⟨⟨done, rest, lined, whole, settled⟩, fun _ mem => .inl mem⟩
    cases sendingNow with
    | false =>
      rw [if_pos rfl]
      have all := ready.resolve_right nofun
      refine ⟨⟨done, rest, ⟨lined.ring, lined.gone, lined.unsent, lined.faithful, lined.begun, lined.apart, lined.spread, ?_,
        lined.past.dropped, lined.past.unfinished⟩, whole, ?_⟩, fun _ mem => .inl mem⟩
      · intro q own
        cases own
        exact ⟨fresh, all⟩
      · rcases settled with stopped | ⟨idle, rfl, _⟩ | pushed
        · exact .inl stopped
        · rw [idle, lined.nextUnsent_nil] at hnow
          cases hnow
        · exact .inr (.inr pushed)
    | true =>
      rw [if_neg nofun]
      have unsent : pub.largeNextUnsent = none := by
        rw [Bool.and_eq_true] at hnow
        exact Option.isNone_iff_eq_none.mp hnow.2
      have none_ : rest = [] := by
        cases rest with
        | nil => rfl
        | cons first more =>
          rw [lined.nextUnsent_cons] at unsent
          cases unsent
      subst none_
      obtain ⟨idle, waits⟩ := lined.waits settled rfl
      obtain ⟨done', rest', lined', commits⟩ := @Lined.commit config around _ _ _ record lined apart fresh
      have alone : rest' = [committed config pub.seqNo record] ∧ (pub.largeCommit config around record).cursor = none ∧
          Spares pub (pub.largeCommit config around record) := by
        rcases commits.how with ⟨split, cursor, _, spares⟩ | ⟨_, _, split, _⟩
        · exact ⟨split, cursor.trans idle, spares⟩
        · cases split
      obtain ⟨rfl, cursor, spares⟩ := alone
      generalize pub.largeCommit config around record = pub₁ at *
      have sourced : ∀ source, { pub₁ with source := source }.Lined done' [committed config pub.seqNo record] := fun _ =>
        ⟨lined'.ring, lined'.gone, lined'.unsent, lined'.faithful, lined'.begun, lined'.apart, lined'.spread, lined'.pending,
          lined'.past.dropped, lined'.past.unfinished⟩
      have pending : pub₁.pending = none := commits.pending.trans waits
      have encodes : { pub₁ with source := if record.encoded < record.send.cdrLen then some record.id else pub₁.source }.Encodes
          [committed config pub.seqNo record] := by
        intro q mem
        rw [List.mem_singleton.mp mem]
        by_cases all : record.encoded = record.send.cdrLen
        · exact .inl all
        · have short := Nat.lt_of_le_of_ne fresh.faithful.within all
          have interleaves := ready.resolve_left all
          rw [Bool.true_and, Bool.and_eq_true] at interleaves
          exact .inr ⟨rfl, if_pos short, commits.matched.trans interleaves.1, cursor⟩
      have room : [committed config pub.seqNo record].length + pub₁.pending.toList.length < pub₁.turns := by
        rw [pending, turns]
        simp only [List.length_singleton, Option.toList_none, List.length_nil]
        omega
      have pumped := @Lined.pump config around
        { pub₁ with source := if record.encoded < record.send.cdrLen then some record.id else pub₁.source } done' _ pub₁.turns
        (sourced _) encodes (fun waits => absurd pending waits) room
      obtain ⟨done₂, rest₂, lined₂, whole₂, settled₂⟩ := pumped.steady
      refine ⟨⟨done₂, rest₂, ⟨lined₂.ring, lined₂.gone, lined₂.unsent, lined₂.faithful, lined₂.begun, lined₂.apart, lined₂.spread,
        lined₂.pending, lined₂.past.dropped, lined₂.past.unfinished⟩, whole₂, settled₂⟩, fun q mem => ?_⟩
      rcases pumped.spares q mem with mem | sent
      · exact spares q mem
      · exact .inr sent

theorem Lined.seqNo (lined : pub.Lined done rest) (seqNo : SeqNo) : { pub with seqNo := seqNo }.Lined done rest :=
  ⟨lined.ring, lined.gone, lined.unsent, lined.faithful, lined.begun, lined.apart, lined.spread, lined.pending,
    lined.past.dropped, lined.past.unfinished⟩

/-- A small sample takes the waiting one into a ring full of records that have not gone. -/
def Full (config : LargeConfig) (pub : LargePublisher) : Event → Prop
  | .small _ => pub.pending.isSome ∧ config.retained ≤ (pub.ring.filter fun record => !record.sent).length
  | _ => False

instance Full.decidable (config : LargeConfig) (pub : LargePublisher) (event : Event) : Decidable (Full config pub event) :=
  match event with
  | .small _ => inferInstanceAs (Decidable (_ ∧ _))
  | .large _ => isFalse id
  | .resume => isFalse id
  | .release _ => isFalse id
  | .peers _ => isFalse id

theorem Lined.unsent_eq (lined : pub.Lined done rest) : (pub.ring.filter fun record => !record.sent) = rest := by
  rw [lined.ring, List.filter_append, List.filter_eq_nil_iff.mpr fun q mem => by simp [(lined.gone q mem).sent], List.nil_append,
    List.filter_eq_self.mpr fun q mem => by simp [lined.unsent q mem]]

theorem Steady.small (steady : pub.Steady) (apart : pub.Apart) (units : Nat) :
    (pub.step config around (.small units)).Steady ∧
      (¬ Full config pub (.small units) → Spares pub (pub.step config around (.small units))) := by
  obtain ⟨done, rest, lined, whole, settled⟩ := steady
  have unsent_eq := lined.unsent_eq
  unfold step largeCommitPending
  dsimp only
  cases waits : pub.pending with
  | none => exact ⟨⟨done, rest, lined.seqNo _, whole, settled⟩, fun _ _ mem => .inl mem⟩
  | some sample =>
    dsimp only
    have bare : { pub with pending := none }.Lined done rest :=
      ⟨lined.ring, lined.gone, lined.unsent, lined.faithful, lined.begun, lined.apart, lined.spread, nofun, lined.past.dropped,
        lined.past.unfinished⟩
    obtain ⟨fresh, encoded⟩ := lined.pending sample waits
    obtain ⟨done', rest', lined', commits⟩ := @Lined.commit config around _ _ _ sample bare apart fresh
    have sample_whole : (committed config pub.seqNo sample).encoded = (committed config pub.seqNo sample).send.cdrLen := encoded
    refine ⟨⟨done', rest', lined'.seqNo _, ?_, ?_⟩, fun room => ?_⟩
    · intro q mem
      have mem : q ∈ rest ∨ q = committed config pub.seqNo sample := by
        rcases commits.how with ⟨rfl, _⟩ | ⟨_, more, rfl, rfl, _⟩
        · exact (List.mem_append.mp mem).imp_right List.mem_singleton.mp
        · exact (List.mem_append.mp mem).imp (List.mem_cons_of_mem _) List.mem_singleton.mp
      rcases mem with mem | rfl
      · exact whole q mem
      · exact sample_whole
    · rcases commits.how with ⟨rfl, cursor, scheduled, _⟩ | ⟨record, more, rfl, rfl, cursor, dropped, _⟩
      · rcases settled with ⟨going, later⟩ | ⟨_, _, none_⟩ | ⟨_, pushed, mem, unsent⟩
        · exact .inl ⟨by rw [← cursor] at going; exact going, scheduled.trans later⟩
        · rw [waits] at none_
          cases none_
        · exact .inr (.inr ⟨by simp, pushed, commits.kept pushed mem, unsent⟩)
      · exact .inr (.inr ⟨by simp, record, dropped, lined.unsent record (List.mem_cons_self ..)⟩)
    · rcases commits.how with ⟨_, _, _, spares⟩ | ⟨_, _, _, _, _, _, full⟩
      · exact spares
      · refine absurd ⟨?_, ?_⟩ room
        · rw [waits]
          rfl
        · rw [unsent_eq]
          exact full

theorem Steady.resume (steady : pub.Steady) (apart : pub.Apart) :
    (pub.step config around .resume).Steady ∧ Spares pub (pub.step config around .resume) := by
  obtain ⟨done, rest, lined, whole, settled⟩ := steady
  unfold step
  dsimp only
  split
  · have length : pub.ring.length = done.length + rest.length := by rw [lined.ring, List.length_append]
    have one : pub.pending.toList.length ≤ 1 := by
      cases pub.pending with
      | none => exact Nat.zero_le _
      | some _ => exact Nat.le_refl _
    have pumped := @Lined.pump config around { pub with scheduled := false } done rest pub.turns
      ⟨lined.ring, lined.gone, lined.unsent, lined.faithful, lined.begun, lined.apart, lined.spread, lined.pending,
        lined.past.dropped, lined.past.unfinished⟩ (fun q mem => .inl (whole q mem)) (fun _ => apart) (by
        unfold turns
        dsimp only
        omega)
    exact ⟨pumped.steady, pumped.spares⟩
  · exact ⟨⟨done, rest, lined, whole, settled⟩, fun _ mem => .inl mem⟩

theorem Steady.release (steady : pub.Steady) (records : Nat) :
    (pub.step config around (.release records)).Steady ∧ Spares pub (pub.step config around (.release records)) := by
  obtain ⟨done, rest, lined, whole, settled⟩ := steady
  obtain ⟨done', lined', sheds⟩ := lined.trim 0 records
  refine ⟨⟨done', rest, lined', whole, ?_⟩, sheds.dropped⟩
  rcases settled with ⟨going, later⟩ | ⟨idle, none_, waits⟩ | ⟨some_, pushed, mem, unsent⟩
  · exact .inl ⟨by rw [← sheds.cursor] at going; exact going, sheds.scheduled.trans later⟩
  · exact .inr (.inl ⟨sheds.cursor.trans idle, none_, sheds.pending.trans waits⟩)
  · exact .inr (.inr ⟨some_, pushed, sheds.kept pushed mem, unsent⟩)

theorem Steady.step {event : Event} (steady : pub.Steady) (apart : pub.Apart) :
    (pub.step config around event).Steady ∧ (¬ Full config pub event → Spares pub (pub.step config around event)) := by
  cases event with
  | large sample =>
    unfold LargePublisher.step
    dsimp only
    split
    · next large =>
      obtain ⟨steady', spares⟩ := @Steady.large config around _ _ steady apart large
      exact ⟨steady', fun _ => spares⟩
    · exact ⟨steady, fun _ _ mem => .inl mem⟩
  | small units => exact steady.small apart units
  | resume =>
    obtain ⟨steady', spares⟩ := @Steady.resume config around _ steady apart
    exact ⟨steady', fun _ => spares⟩
  | release records =>
    obtain ⟨steady', spares⟩ := @Steady.release config around _ steady records
    exact ⟨steady', fun _ => spares⟩
  | peers matched =>
    obtain ⟨done, rest, lined, whole, settled⟩ := steady
    exact ⟨⟨done, rest, ⟨lined.ring, lined.gone, lined.unsent, lined.faithful, lined.begun, lined.apart, lined.spread, lined.pending,
      lined.past.dropped, lined.past.unfinished⟩, whole, settled⟩, fun _ _ mem => .inl mem⟩

/-! ## Every run -/

/-- What holds of the large samples between any two events. -/
structure Covered (pub : LargePublisher) : Prop where
  sent : ∀ record ∈ pub.ring ++ pub.dropped, record.sent = true → record.Complete
  going : ∀ record ∈ pub.ring ++ pub.dropped ++ pub.unfinished, record.Partial
  payloads : ∀ record ∈ pub.ring ++ pub.dropped ++ pub.unfinished, ∀ h ∈ record.handed, h.payload =
    (record.image.drop (record.send.largeOffset h.first)).take
      (record.endOf (h.first + h.units - 1) - record.send.largeOffset h.first)
  encoded : ∀ record ∈ pub.ring ++ pub.pending.toList, record.encoded = record.send.cdrLen ∧ record.buffer = record.image
  unfinished : ∀ record ∈ pub.unfinished, record.codec.whole = false
  goes : pub.cursor ≠ none ∧ pub.scheduled = true ∨ (∀ record ∈ pub.ring, record.sent = true) ∧ pub.pending = none ∨
    ∃ record ∈ pub.dropped, record.sent = false

theorem Begun.partial_ (lined : pub.Lined done rest) : ∀ record ∈ rest, record.Partial := by
  intro record mem
  have faithful := lined.faithful record mem
  rcases lined.begun with ⟨_, fresh⟩ | ⟨first, more, rfl, _, _, _, good, fresh⟩
  · exact LargeTx.Fresh.partial_ ⟨faithful, fresh record mem⟩
  · rcases List.mem_cons.mp mem with rfl | mem
    · exact ⟨_, _, good.within, good.covers⟩
    · exact LargeTx.Fresh.partial_ ⟨faithful, fresh record mem⟩

theorem LargeTx.Faithful.buffer_eq {record : LargeTx} (faithful : record.Faithful) (whole : record.encoded = record.send.cdrLen) :
    record.buffer = record.image := by
  have same := faithful.same
  rwa [whole, List.take_of_length_le (Nat.le_of_eq faithful.length),
    List.take_of_length_le (Nat.le_of_eq (LargeTx.image_length faithful.size))] at same

theorem Steady.covered (steady : pub.Steady) : pub.Covered := by
  obtain ⟨done, rest, lined, whole, settled⟩ := steady
  have ring : ∀ {record}, record ∈ pub.ring → record ∈ done ∨ record ∈ rest := by
    intro record mem
    rw [lined.ring] at mem
    exact List.mem_append.mp mem
  have each : ∀ record ∈ pub.ring ++ pub.dropped ++ pub.unfinished, record.Faithful ∧ record.Partial := by
    intro record mem
    rcases List.mem_append.mp mem with mem | mem
    · rcases List.mem_append.mp mem with mem | mem
      · rcases ring mem with mem | mem
        · exact ⟨(lined.gone record mem).faithful, (lined.gone record mem).complete.partial_⟩
        · exact ⟨lined.faithful record mem, Begun.partial_ lined record mem⟩
      · exact ⟨(lined.past.dropped record mem).1, (lined.past.dropped record mem).2.1⟩
    · exact ⟨(lined.past.unfinished record mem).1, (lined.past.unfinished record mem).2.1⟩
  refine ⟨?_, fun record mem => (each record mem).2, fun record mem => (each record mem).1.payloads, ?_,
    fun record mem => (lined.past.unfinished record mem).2.2, ?_⟩
  · intro record mem sent
    rcases List.mem_append.mp mem with mem | mem
    · rcases ring mem with mem | mem
      · exact (lined.gone record mem).complete
      · rw [lined.unsent record mem] at sent
        cases sent
    · exact (lined.past.dropped record mem).2.2 sent
  · intro record mem
    rcases List.mem_append.mp mem with mem | mem
    · rcases ring mem with mem | mem
      · have gone := lined.gone record mem
        exact ⟨gone.whole, LargeTx.Faithful.buffer_eq gone.faithful gone.whole⟩
      · exact ⟨whole record mem, LargeTx.Faithful.buffer_eq (lined.faithful record mem) (whole record mem)⟩
    · obtain ⟨fresh, all⟩ := lined.pending record (Option.mem_toList.mp mem)
      exact ⟨all, LargeTx.Faithful.buffer_eq fresh.faithful all⟩
  · rcases settled with stopped | ⟨_, rfl, waits⟩ | ⟨_, pushed⟩
    · exact .inl stopped
    · refine .inr (.inl ⟨fun record mem => ?_, waits⟩)
      exact (lined.gone record ((ring mem).resolve_right nofun)).sent
    · exact .inr (.inr pushed)

theorem start_steady (seqNo : SeqNo) : (start seqNo).Steady :=
  ⟨[], [], ⟨rfl, nofun, nofun, nofun, .inl ⟨rfl, nofun⟩, nofun, .nil, nofun, nofun, nofun⟩, nofun, .inr (.inl ⟨rfl, rfl, rfl⟩)⟩

/-- **Every unit to every destination, once.** Whatever goes of each call, wherever the sends stop and whenever they go on: each
destination has a record's units in order, each once, all of them once the record has gone, and its bytes as they were encoded;
and between any two events every record of the ring, and the sample that waits, is encoded whole. A record is left behind unfinished
only when its sample cannot be encoded, or by a small sample published while the ring is full of records that wait. -/
theorem cursor_covers_once (config : LargeConfig) (around : Surroundings) (seqNo : SeqNo) (events : List Event)
    (apart : Run.Sound (step config around) (fun pub _ => pub.Apart) (start seqNo) events) :
    (Run.after (step config around) (start seqNo) events).Covered ∧
      (Run.Sound (step config around) (fun pub event => pub.Apart ∧ ¬ Full config pub event) (start seqNo) events →
        ∀ record ∈ (Run.after (step config around) (start seqNo) events).dropped, record.Complete) := by
  have kept : ∀ pub event, Steady pub → pub.Apart → (pub.step config around event).Steady :=
    fun _ _ steady apart => (steady.step apart).1
  have covered := (Run.keeps kept (start_steady seqNo) apart).covered
  refine ⟨covered, fun room record mem => ?_⟩
  -- what the ring let go had gone
  have spared : ∀ pub event, (Steady pub ∧ ∀ record ∈ pub.dropped, record.sent = true) → pub.Apart ∧ ¬ Full config pub event →
      (pub.step config around event).Steady ∧ ∀ record ∈ (pub.step config around event).dropped, record.sent = true := by
    intro pub event now ok
    obtain ⟨steady, spares⟩ := @Steady.step config around pub event now.1 ok.1
    refine ⟨steady, fun record mem => ?_⟩
    rcases spares ok.2 record mem with mem | sent
    · exact now.2 record mem
    · exact sent
  have sent := (Run.keeps spared ⟨start_steady seqNo, nofun⟩ room).2 record mem
  exact covered.sent record (List.mem_append_right _ mem) sent

/-! ## A run -/

theorem tinyFramed : largeFramingMax < 34 := by decide

theorem tinyFirst : 34 - fragFramingLength - fragFirstLHeader ≤ 8 := by decide

theorem tinyLimit : 0 < 2 ∧ 2 ≤ 16 := by decide

/-- Units of 8 and 14 bytes, and a ring of 16. -/
def tinyConfig : LargeConfig := ⟨8, 34, 16, 16, 2, true, tinyFramed, tinyFirst, tinyLimit.1, tinyLimit.2⟩

def haltingFit (call want : Nat) : Nat := if call % 5 = 3 then 0 else want

def haltingSent (call batch : Nat) : Option Nat := some (if call % 3 = 1 then batch - 1 else batch)

theorem haltingFit_le (call want : Nat) : haltingFit call want ≤ want := by
  unfold haltingFit
  split <;> omega

theorem haltingSent_le (call batch k : Nat) (goes : haltingSent call batch = some k) : k ≤ batch := by
  cases goes
  split <;> omega

/-- The pacing grants nothing now and then, and now and then a datagram stays behind. -/
def haltingNet : Net := ⟨haltingFit, haltingSent, fun _ => false, haltingFit_le, haltingSent_le⟩

theorem twoDests_some : [(⟨2, false, false, false⟩ : Dest), ⟨0, false, true, false⟩] ≠ [] := List.cons_ne_nil _ _

/-- In runs of 2 to one destination, and unit by unit to another. -/
def halting : Surroundings :=
  ⟨haltingNet, fun _ => [⟨2, false, false, false⟩, ⟨0, false, true, false⟩], fun _ => 0, fun _ => twoDests_some⟩

/-- 50 bytes, in 5 units. -/
def tinySample (byte : UInt8) (buffer : Nat) : LargeSample :=
  ⟨⟨List.replicate 50 byte, fun _ _ => true, true⟩, buffer, fun _ => 255, false, false⟩

def haltingRun : List Event :=
  [.peers true, .large (tinySample 1 100), .large (tinySample 2 101), .small 1, .resume, .resume, .resume, .resume, .resume]

theorem haltingRun_sound :
    Run.Sound (step tinyConfig halting) (fun pub event => pub.Apart ∧ ¬ Full tinyConfig pub event) (start 0) haltingRun := by
  decide +kernel

/-- Stopped again and again, the first sample has gone to both of its destinations. -/
theorem cursor_covers_halting :
    ((Run.after (step tinyConfig halting) (start 0) haltingRun).ring.map fun record =>
      (record.seqNo, record.sent, unitsTo 0 record.handed, unitsTo 1 record.handed)) =
        [(1, true, [0, 1, 2, 3, 4], [0, 1, 2, 3, 4]), (6, false, [0, 1, 2, 3], [])] ∧
    (Run.after (step tinyConfig halting) (start 0) haltingRun).Covered ∧
    ∀ record ∈ (Run.after (step tinyConfig halting) (start 0) haltingRun).dropped, record.Complete := by
  have apart : Run.Sound (step tinyConfig halting) (fun pub _ => pub.Apart) (start 0) haltingRun :=
    haltingRun_sound.imp fun _ _ ok => ok.1
  obtain ⟨covered, complete⟩ := cursor_covers_once tinyConfig halting 0 haltingRun apart
  exact ⟨by decide +kernel, covered, complete haltingRun_sound⟩

def blockedFit (call want : Nat) : Nat := if call < 3 then min 1 want else 0

theorem blockedFit_le (call want : Nat) : blockedFit call want ≤ want := by
  unfold blockedFit
  split <;> omega

/-- One unit goes, and then nothing for long. -/
def blocked : Surroundings :=
  ⟨⟨blockedFit, fun _ batch => some batch, fun _ => false, blockedFit_le, fun _ _ _ goes => Nat.le_of_eq (Option.some.inj goes).symm⟩,
    fun _ => [⟨0, false, true, false⟩], fun _ => 0, fun _ => List.cons_ne_nil _ _⟩

/-- A sample whose first fragment is encoded, and of which no more can be. -/
def brokenSample : LargeSample :=
  ⟨⟨List.replicate 50 7, fun offset _ => offset = 0, false⟩, 100, fun _ => 255, false, false⟩

/-- A large sample that is stopped, and then large and small samples by turns. -/
def byTurns : List Event :=
  [.peers true, .large (tinySample 1 100)] ++ (List.range 16).flatMap fun k => [.large (tinySample 2 (101 + k)), .small 1]

/-- Of a sample of 5 units one has gone, and no more will: a full ring pushed its record out, or its sample could not be encoded. -/
theorem cursor_leaves_behind :
    (∃ record ∈ (Run.after (step tinyConfig blocked) (start 0) byTurns).dropped,
      record.sent = false ∧ record.dests.length = 1 ∧ record.count = 5 ∧ unitsTo 0 record.handed = [0]) ∧
    ∃ record ∈ (Run.after (step tinyConfig blocked) (start 0) [.peers true, .large brokenSample]).unfinished,
      record.sent = false ∧ record.dests.length = 1 ∧ record.count = 5 ∧ unitsTo 0 record.handed = [0] := by
  decide +kernel

end LargePublisher

end Tickle
