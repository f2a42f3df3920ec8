import Tickle.Tx.Retried

/-! # What every datagram carries

The buffer over a run: submessages encoded one behind another, flushed by themselves or by those that no
longer fit, samples that go in fragments, and publishes that go back to where they began. A datagram
carries the submessages that were put in since the last, each at a multiple of 4 and each with its own
bytes (`sent_carries`), as long as three things stay out of the way: a failed flush that rewrites a lone
submessage, a submessage that is kept without its padding, and a publish that goes back past what has
been sent meanwhile.
-/

namespace Tickle

open TxBuffer (Contains Carries takes placeOf encodedAs lone)

/-- `begin` is where a publish takes `old_tx_tail`. What fails in it goes back there (`toMark`), elsewhere
to where it started itself. -/
inductive TxEvent where
  | begin
  | submessage (type receiver : UInt8) (payload : List UInt8) (isFlush : Bool) (slotBytes : Nat)
      (sends : Sends) (toMark : Bool)
  | fragmented (type : UInt8) (payload : List UInt8) (sends : Sends) (toMark : Bool)
  | flush (slotBytes : Nat) (sends : Sends)
  | rollback
  deriving DecidableEq, Repr

structure TxSender where
  tx : TxBuffer
  mark : Nat
  sent : List (List UInt8)
  deriving DecidableEq, Repr

namespace TxSender

def create (ctx : TxContext) : TxSender := ⟨TxBuffer.create ctx, headerLength, []⟩

def settle (s : TxSender) (result : TxResult) : TxSender :=
  { s with tx := result.tx, sent := s.sent ++ result.datagram.toList }

def oldTail (s : TxSender) (toMark : Bool) : Nat := if toMark then s.mark else s.tx.tail

def step (ctx : TxContext) (s : TxSender) : TxEvent → TxSender
  | .begin => { s with mark := s.tx.tail }
  | .submessage type receiver payload isFlush slotBytes sends toMark =>
    s.settle
      (s.tx.sendSubmessage ctx (s.oldTail toMark) type receiver payload isFlush slotBytes sends)
  | .fragmented type payload sends toMark =>
    s.settle (s.tx.sendFragmented ctx (s.oldTail toMark) type payload sends)
  | .flush slotBytes sends => s.settle (s.tx.flushTx ctx s.tx.tail slotBytes sends)
  | .rollback => { s with tx := s.tx.rollback s.mark }

end TxSender

/-- What has been encoded: the submessages not sent, those of them where the publish began, whether any
have left since, and the submessages of each datagram. -/
structure Batch where
  pending : List Submessage
  mark : List Submessage
  left : Bool
  sent : List (List Submessage)
  deriving DecidableEq, Repr

/-- `tx_tail` behind these submessages. -/
def TxContext.tailOf (ctx : TxContext) (submessages : List Submessage) : Nat :=
  headerLength + (Submessage.frames ctx.order submessages).length

namespace Batch

variable {ctx : TxContext} {b : Batch} {s : TxSender}

def create : Batch := ⟨[], [], false, []⟩

/-- A flush of `front`, with `back` encoded behind it. -/
def flush (b : Batch) (ctx : TxContext) (front back : List Submessage) (slotBytes : Nat) (sends : Sends) :
    Batch × Bool :=
  if front = [] then ({ b with pending := back }, true)
  else if ctx.recordSizeLimit slotBytes < ctx.tailOf front then
    ({ b with pending := [], left := true }, false)
  else
    ({ b with pending := if sends.ok then back else front ++ back, left := b.left || sends.ok,
              sent := b.sent ++ if sends.reached then [front] else [] }, sends.ok)

/-- A submessage encoded behind what is pending. -/
def place (b : Batch) (ctx : TxContext) (type receiver : UInt8) (payload : List UInt8) (isFlush : Bool)
    (slotBytes : Nat) (sends : Sends) : Batch × Bool :=
  let tail := ctx.tailOf b.pending
  let submessage := encodedAs ctx tail type receiver payload slotBytes
  if !takes ctx tail payload.length slotBytes then (b, false)
  else
    match placeOf ctx tail payload.length slotBytes with
    | .joins =>
      if isFlush then b.flush ctx (b.pending ++ [submessage]) [] slotBytes sends
      else ({ b with pending := b.pending ++ [submessage] }, true)
    | _ => b.flush ctx b.pending [submessage] slotBytes sends

/-- What a failure goes back to. -/
def target (b : Batch) (toMark : Bool) : List Submessage := if toMark then b.mark else b.pending

def settled (b : Batch) (target : List Submessage) (result : Batch × Bool) : Batch :=
  if result.2 then result.1 else { b with pending := target, sent := result.1.sent }

def after (ctx : TxContext) (b : Batch) : TxEvent → Batch
  | .begin => { b with mark := b.pending, left := false }
  | .submessage type receiver payload isFlush slotBytes sends toMark =>
    b.settled (b.target toMark) (b.place ctx type receiver payload isFlush slotBytes sends)
  | .fragmented _ payload sends toMark =>
    if ctx.txSize ≤ ctx.tailOf b.pending + submessageHeaderLength + payload.length then
      { b with pending := b.target toMark }
    else b.settled b.pending (b.flush ctx b.pending [] 0 sends)
  | .flush slotBytes sends => (b.flush ctx b.pending [] slotBytes sends).1
  | .rollback => { b with pending := b.mark }

/-! ## What stays out of the way -/

/-- A failed flush that rewrites the pending submessage. -/
def spoils (b : Batch) (ctx : TxContext) (slotBytes : Nat) (sends : Sends) : Bool :=
  lone b.pending && !sends.ok && ctx.tailOf b.pending ≤ ctx.recordSizeLimit slotBytes

/-- What is gone back to is still there. -/
def restores (b : Batch) (toMark : Bool) : Bool := !toMark || !b.left || b.mark = []

/-- A submessage does not stay without its padding, a flush does not rewrite a lone submessage that
stays, and nothing goes back past what has left. -/
def Clear (ctx : TxContext) (b : Batch) : TxEvent → Prop
  | .begin => True
  | .submessage type receiver payload isFlush slotBytes sends toMark =>
    (takes ctx (ctx.tailOf b.pending) payload.length slotBytes = true →
      placeOf ctx (ctx.tailOf b.pending) payload.length slotBytes ≠ .unpadded ∧
      (placeOf ctx (ctx.tailOf b.pending) payload.length slotBytes = .defers →
        b.spoils ctx slotBytes sends = false)) ∧
    ((b.place ctx type receiver payload isFlush slotBytes sends).2 = false → b.restores toMark = true)
  | .fragmented _ payload sends toMark =>
    b.spoils ctx 0 sends = false ∧
    (ctx.txSize ≤ ctx.tailOf b.pending + submessageHeaderLength + payload.length →
      b.restores toMark = true)
  | .flush slotBytes sends => b.spoils ctx slotBytes sends = false
  | .rollback => b.restores true = true

instance : ∀ event, Decidable (Clear ctx b event)
  | .begin => inferInstanceAs (Decidable True)
  | .submessage .. => inferInstanceAs (Decidable (_ ∧ _))
  | .fragmented .. => inferInstanceAs (Decidable (_ ∧ _))
  | .flush .. => inferInstanceAs (Decidable (_ = _))
  | .rollback => inferInstanceAs (Decidable (_ = _))

/-! ## The buffer follows -/

/-- The buffer starts with `c`, whatever its tail. -/
def Begins (tx : TxBuffer) (c : List UInt8) : Prop :=
  ∃ header stale, tx.bytes = header ++ (c ++ stale) ∧ header.length = headerLength

theorem begins_of_contains {tx : TxBuffer} {c : List UInt8} (h : tx.Contains c) : Begins tx c := by
  obtain ⟨header, stale, bytes, size, -⟩ := h
  exact ⟨header, stale, bytes, size⟩

theorem Begins.front {tx : TxBuffer} {front back : List UInt8} (h : Begins tx (front ++ back)) :
    Begins tx front := by
  obtain ⟨header, stale, bytes, size⟩ := h
  exact ⟨header, back ++ stale, by simpa using bytes, size⟩

theorem Begins.rollback {tx : TxBuffer} {c : List UInt8} (h : Begins tx c) {tail : Nat}
    (there : tail = headerLength + c.length) : (tx.rollback tail).Contains c := by
  obtain ⟨header, stale, bytes, size⟩ := h
  exact ⟨header, stale, bytes, size, there⟩

theorem Begins.nothing {tx : TxBuffer} {c : List UInt8} (h : Begins tx c) : Begins tx [] :=
  Begins.front (by simpa using h)

/-- A submessage as every datagram has it. -/
def Padded (s : Submessage) : Prop := s.length < 65536 ∧ s.length % 4 = 0

/-- What a datagram carries. -/
def Delivers (ctx : TxContext) (datagram : List UInt8) (submessages : List Submessage) : Prop :=
  Carries ctx datagram submessages ∧ ∀ s ∈ submessages, Padded s

/-- The buffer holds what has been encoded, and has sent it. -/
structure Follows (ctx : TxContext) (s : TxSender) (b : Batch) : Prop where
  contains : s.tx.Contains (Submessage.frames ctx.order b.pending)
  mark : s.mark = ctx.tailOf b.mark
  kept : b.left = false → b.mark <+: b.pending
  padded : ∀ x ∈ b.pending, Padded x
  mark_padded : ∀ x ∈ b.mark, Padded x
  sent : List.Forall₂ (Delivers ctx) s.sent b.sent

theorem Follows.tail (h : Follows ctx s b) : s.tx.tail = ctx.tailOf b.pending := h.contains.tail_eq

theorem spoiled_front {front : List Submessage} (padded : ∀ x ∈ front, Padded x) (some : front ≠ [])
    (intact : lone front = false) :
    TxBuffer.spoiled ctx (Submessage.frames ctx.order front) = Submessage.frames ctx.order front :=
  TxBuffer.spoiled_frames (fun x mem => (padded x mem).1) intact some

theorem delivers_front {front : List Submessage} (padded : ∀ x ∈ front, Padded x) (nonempty : front ≠ [])
    (reached : Bool) :
    List.Forall₂ (Delivers ctx)
      (if reached then some (TxBuffer.datagramOf ctx (Submessage.frames ctx.order front)) else none).toList
      (if reached then [front] else []) := by
  cases reached with
  | false => exact .nil
  | true =>
    have carries : Carries ctx (TxBuffer.datagramOf ctx (Submessage.frames ctx.order front)) front :=
      TxBuffer.datagramOf_frames nonempty fun x mem => (padded x mem).1
    exact .cons ⟨carries, padded⟩ .nil

/-- What a flush of `front` leaves and sends. -/
theorem flush_follows (b : Batch) {tx : TxBuffer} {front : List Submessage} {rest : List UInt8}
    (h : tx.Contains (Submessage.frames ctx.order front ++ rest)) (padded : ∀ x ∈ front, Padded x)
    (back : List Submessage) (slotBytes : Nat) (sends : Sends) :
    ∃ left datagram more,
      tx.flushTx ctx (ctx.tailOf front) slotBytes sends =
        ⟨left, datagram, (b.flush ctx front back slotBytes sends).2⟩ ∧
      (b.flush ctx front back slotBytes sends).1.sent = b.sent ++ more ∧
      List.Forall₂ (Delivers ctx) datagram.toList more ∧
      ((b.flush ctx front back slotBytes sends).2 = true → left.Contains rest) ∧
      ((b.flush ctx front back slotBytes sends).2 = false →
        (left.tail = headerLength ∧ (b.flush ctx front back slotBytes sends).1.pending = [] ∨
          left.tail = tx.tail ∧ (b.flush ctx front back slotBytes sends).1.pending = front ++ back) ∧
        Begins left [] ∧
        ((lone front && !sends.ok && ctx.tailOf front ≤ ctx.recordSizeLimit slotBytes) = false →
          Begins left (Submessage.frames ctx.order front ++ rest))) := by
  have begins := begins_of_contains h
  unfold flush
  by_cases none : front = []
  · subst none
    rw [if_pos rfl]
    exact ⟨tx, .none, [], TxBuffer.flushTx_nothing sends slotBytes, by simp, .nil, fun _ => h, by simp⟩
  · rw [if_neg none]
    have long := TxBuffer.frames_long none ctx.order
    by_cases above : ctx.recordSizeLimit slotBytes < ctx.tailOf front
    · rw [if_pos above]
      have refused : tx.flushTx ctx (ctx.tailOf front) slotBytes sends =
          ⟨{ tx with tail := headerLength }, .none, false⟩ := by
        unfold TxBuffer.flushTx
        rw [if_neg (by unfold TxContext.tailOf; omega), if_pos above]
      exact ⟨{ tx with tail := headerLength }, .none, [], refused, by simp, .nil, by simp,
        fun _ => ⟨.inl ⟨rfl, rfl⟩, begins.nothing, fun _ => begins⟩⟩
    · rw [if_neg above]
      obtain ⟨left, flushed, contains⟩ := h.flushTx long (not_lt.mp above) sends
      refine ⟨left, _, _, flushed, rfl, delivers_front padded none sends.reached, ?_, ?_⟩
      · intro ok
        have ok' : sends.ok = true := ok
        simpa [ok'] using contains
      · intro failed
        have failed' : sends.ok = false := failed
        have same : (TxBuffer.spoiled ctx (Submessage.frames ctx.order front)).length = _ :=
          TxBuffer.spoiled_length long
        rw [failed'] at contains
        refine ⟨.inr ⟨?_, by simp [failed']⟩, (begins_of_contains contains).nothing, ?_⟩
        · rw [contains.tail_eq, h.tail_eq]
          simp [same]
        · intro intact
          have not_lone : lone front = false := by simpa [failed', not_lt.mp above] using intact
          rw [spoiled_front padded none not_lone] at contains
          exact begins_of_contains contains

theorem contains_of_begins {tx : TxBuffer} {submessages : List Submessage}
    (h : Begins tx (Submessage.frames ctx.order submessages)) (tail : tx.tail = ctx.tailOf submessages) :
    tx.Contains (Submessage.frames ctx.order submessages) := by
  obtain ⟨header, stale, bytes, size⟩ := h
  exact ⟨header, stale, bytes, size, tail⟩

/-- A flush takes the front away, drops everything, or leaves everything. -/
theorem flush_cases (b : Batch) (ctx : TxContext) (front back : List Submessage) (slotBytes : Nat)
    (sends : Sends) :
    ((b.flush ctx front back slotBytes sends).2 = true ∧
      (b.flush ctx front back slotBytes sends).1.pending = back ∧
      (front = [] ∨ (b.flush ctx front back slotBytes sends).1.left = true)) ∨
    ((b.flush ctx front back slotBytes sends).2 = false ∧
      (b.flush ctx front back slotBytes sends).1.pending = [] ∧
      (b.flush ctx front back slotBytes sends).1.left = true) ∨
    ((b.flush ctx front back slotBytes sends).2 = false ∧
      (b.flush ctx front back slotBytes sends).1.pending = front ++ back ∧
      (b.flush ctx front back slotBytes sends).1.left = b.left) := by
  unfold flush
  by_cases none : front = []
  · rw [if_pos none]
    exact .inl ⟨rfl, rfl, .inl none⟩
  · rw [if_neg none]
    split
    · exact .inr (.inl ⟨rfl, rfl, rfl⟩)
    · cases hok : sends.ok with
      | true => exact .inl ⟨rfl, rfl, .inr (by simp)⟩
      | false => exact .inr (.inr ⟨rfl, rfl, by simp⟩)

theorem flush_mark (b : Batch) (ctx : TxContext) (front back : List Submessage) (slotBytes : Nat)
    (sends : Sends) : (b.flush ctx front back slotBytes sends).1.mark = b.mark := by
  unfold flush
  split
  · rfl
  · split <;> rfl

theorem flush_left (b : Batch) (ctx : TxContext) (front back : List Submessage) (slotBytes : Nat)
    (sends : Sends) (stays : (b.flush ctx front back slotBytes sends).1.left = false) :
    b.left = false := by
  unfold flush at stays
  split at stays
  · exact stays
  · split at stays
    · cases stays
    · exact (Bool.or_eq_false_iff.mp stays).1

/-- The flush's own result is followed. -/
theorem Follows.flushed (h : Follows ctx s b) {tx : TxBuffer} {front back : List Submessage}
    (contains : tx.Contains (Submessage.frames ctx.order (front ++ back)))
    (padded : ∀ x ∈ front ++ back, Padded x) (kept : b.left = false → b.mark <+: front)
    {slotBytes : Nat} {sends : Sends}
    (intact : (b.flush ctx front back slotBytes sends).2 = true ∨
      (lone front && !sends.ok && ctx.tailOf front ≤ ctx.recordSizeLimit slotBytes) = false) :
    Follows ctx (s.settle (tx.flushTx ctx (ctx.tailOf front) slotBytes sends))
      (b.flush ctx front back slotBytes sends).1 := by
  have padded_front : ∀ x ∈ front, Padded x := fun x mem => padded x (List.mem_append_left back mem)
  have padded_back : ∀ x ∈ back, Padded x := fun x mem => padded x (List.mem_append_right front mem)
  have extent := contains.tail_eq
  rw [Submessage.frames_append] at contains
  obtain ⟨left, datagram, more, flushed, sent, delivers, moved, stayed⟩ :=
    flush_follows b contains padded_front back slotBytes sends
  rw [flushed]
  have same_mark := flush_mark b ctx front back slotBytes sends
  have sent_delivers : List.Forall₂ (Delivers ctx) (s.sent ++ datagram.toList)
      (b.flush ctx front back slotBytes sends).1.sent := by
    rw [sent]
    exact List.rel_append h.sent delivers
  refine ⟨?_, by rw [same_mark]; exact h.mark, ?_, ?_, by rw [same_mark]; exact h.mark_padded,
    sent_delivers⟩
  · obtain ⟨ok, pending, -⟩ | ⟨failed, -⟩ | ⟨failed, -⟩ := flush_cases b ctx front back slotBytes sends
    · rw [pending]
      exact moved ok
    all_goals
      obtain ⟨⟨tail, pending⟩ | ⟨tail, pending⟩, nothing, whole⟩ := stayed failed
      · rw [pending]
        exact contains_of_begins nothing tail
      · have begins := whole (intact.resolve_left (by simp [failed]))
        rw [← Submessage.frames_append] at begins
        rw [pending]
        exact contains_of_begins begins (tail.trans extent)
  · intro stays
    have before := kept (flush_left b ctx front back slotBytes sends stays)
    rw [same_mark]
    obtain ⟨-, pending, none | gone⟩ | ⟨-, -, gone⟩ | ⟨-, pending, -⟩ :=
      flush_cases b ctx front back slotBytes sends
    · rw [none, List.prefix_nil] at before
      rw [before]
      exact List.nil_prefix
    · rw [gone] at stays
      cases stays
    · rw [gone] at stays
      cases stays
    · rw [pending]
      exact before.trans (List.prefix_append front back)
  · intro x mem
    obtain ⟨-, pending, -⟩ | ⟨-, pending, -⟩ | ⟨-, pending, -⟩ :=
      flush_cases b ctx front back slotBytes sends
    · rw [pending] at mem
      exact padded_back x mem
    · rw [pending] at mem
      cases mem
    · rw [pending] at mem
      exact padded x mem

/-- A failure that goes back is followed. -/
theorem Follows.back (h : Follows ctx s b) {toMark : Bool} (restores : b.restores toMark = true)
    {tx : TxBuffer} (begins : Begins tx (Submessage.frames ctx.order b.pending))
    {datagram : Option (List UInt8)} {more : List (List Submessage)}
    (delivers : List.Forall₂ (Delivers ctx) datagram.toList more) :
    Follows ctx (s.settle ⟨tx.rollback (s.oldTail toMark), datagram, false⟩)
      { b with pending := b.target toMark, sent := b.sent ++ more } := by
  cases toMark with
  | false =>
    have there : s.oldTail false = ctx.tailOf b.pending := h.tail
    exact ⟨begins.rollback there, h.mark, h.kept, h.padded, h.mark_padded, List.rel_append h.sent delivers⟩
  | true =>
    have there : s.oldTail true = ctx.tailOf b.mark := h.mark
    have front : Begins tx (Submessage.frames ctx.order b.mark) := by
      by_cases none : b.mark = []
      · rw [none]
        exact begins.nothing
      · have stays : b.left = false := by simpa [Batch.restores, none] using restores
        obtain ⟨rest, split⟩ := h.kept stays
        rw [← split, Submessage.frames_append] at begins
        exact begins.front
    exact ⟨front.rollback there, h.mark, fun _ => List.prefix_rfl, h.mark_padded, h.mark_padded,
      List.rel_append h.sent delivers⟩

/-! ## A run -/

theorem encodedAs_padded {tx : TxBuffer} {payload : List UInt8} {slotBytes : Nat}
    (taken : takes ctx tx.tail payload.length slotBytes = true)
    (place : placeOf ctx tx.tail payload.length slotBytes ≠ .unpadded) (type receiver : UInt8) :
    Padded (encodedAs ctx tx.tail type receiver payload slotBytes) := by
  refine ⟨TxBuffer.encodedAs_length_lt taken, ?_⟩
  have most := le_roundup (submessageHeaderLength + payload.length)
  unfold encodedAs
  split
  · next unpadded => exact absurd unpadded place
  · simp only [Submessage.length, List.length_append, List.length_replicate]
    unfold roundup at most ⊢
    omega

theorem lone_append {pending : List Submessage} (some : pending ≠ []) (s : Submessage) :
    lone (pending ++ [s]) = false := by
  cases pending with
  | nil => exact absurd rfl some
  | cons first more =>
    cases more with
    | nil => rfl
    | cons next rest => rfl

theorem settled_false {target : List Submessage} {result : Batch × Bool} (failed : result.2 = false) :
    b.settled target result = { b with pending := target, sent := result.1.sent } := by
  simp [settled, failed]

theorem settled_true {target : List Submessage} {result : Batch × Bool} (ok : result.2 = true) :
    b.settled target result = result.1 := by
  simp [settled, ok]

/-- A flush that a submessage made, which goes back if it fails. -/
theorem Follows.flush_or_back (h : Follows ctx s b) {tx : TxBuffer} {front back : List Submessage}
    (contains : tx.Contains (Submessage.frames ctx.order (front ++ back)))
    (padded : ∀ x ∈ front ++ back, Padded x) (extends_pending : b.pending <+: front)
    {slotBytes : Nat} {sends : Sends} {toMark : Bool}
    (restores : (b.flush ctx front back slotBytes sends).2 = false → b.restores toMark = true)
    (intact : b.pending ≠ [] →
      (lone front && !sends.ok && ctx.tailOf front ≤ ctx.recordSizeLimit slotBytes) = false) :
    Follows ctx
      (s.settle (TxBuffer.settled (s.oldTail toMark) (tx.flushTx ctx (ctx.tailOf front) slotBytes sends)))
      (b.settled (b.target toMark) (b.flush ctx front back slotBytes sends)) := by
  have padded_front : ∀ x ∈ front, Padded x := fun x mem => padded x (List.mem_append_left back mem)
  cases hok : (b.flush ctx front back slotBytes sends).2 with
  | true =>
    have followed := h.flushed contains padded (fun stays => (h.kept stays).trans extends_pending)
      (.inl hok)
    obtain ⟨left, datagram, more, flushed, -⟩ :=
      flush_follows b (by rw [← Submessage.frames_append]; exact contains) padded_front back slotBytes sends
    rw [settled_true hok]
    rw [flushed, hok] at followed ⊢
    exact followed
  | false =>
    obtain ⟨left, datagram, more, flushed, sent, delivers, -, stayed⟩ :=
      flush_follows b (by rw [← Submessage.frames_append]; exact contains) padded_front back slotBytes sends
    obtain ⟨-, nothing, whole⟩ := stayed hok
    have begins : Begins left (Submessage.frames ctx.order b.pending) := by
      by_cases none : b.pending = []
      · rw [none]
        exact nothing
      · obtain ⟨rest, split⟩ := extends_pending
        have front_begins := whole (intact none)
        rw [← split, Submessage.frames_append, List.append_assoc] at front_begins
        exact front_begins.front
    rw [settled_false hok, sent, flushed, hok]
    exact h.back (restores hok) begins delivers

theorem Follows.submessage (h : Follows ctx s b) {type receiver : UInt8} {payload : List UInt8}
    {isFlush : Bool} {slotBytes : Nat} {sends : Sends} {toMark : Bool}
    (clear : Clear ctx b (.submessage type receiver payload isFlush slotBytes sends toMark)) :
    Follows ctx (s.step ctx (.submessage type receiver payload isFlush slotBytes sends toMark))
      (b.after ctx (.submessage type receiver payload isFlush slotBytes sends toMark)) := by
  obtain ⟨placed, restores⟩ := clear
  have tail := h.tail
  simp only [TxSender.step, after]
  obtain ⟨refused, left, more, contains, result⟩ | ⟨taken, full, contains, result⟩ :=
    h.contains.sendSubmessage ctx (s.oldTail toMark) type receiver payload isFlush slotBytes sends
  · rw [result]
    have stays : b.place ctx type receiver payload isFlush slotBytes sends = (b, false) := by
      rw [tail] at refused
      simp [place, refused]
    rw [stays] at restores ⊢
    have followed : Follows ctx (s.settle ⟨left.rollback (s.oldTail toMark), none, false⟩)
        { b with pending := b.target toMark, sent := b.sent ++ [] } :=
      h.back (restores rfl) (begins_of_contains contains).front .nil
    simpa [settled] using followed
  · rw [result]
    obtain ⟨padding, deferred⟩ := placed (by rw [← tail]; exact taken)
    have padded : Padded (encodedAs ctx s.tx.tail type receiver payload slotBytes) :=
      encodedAs_padded taken (by rw [tail]; exact padding) type receiver
    rw [← Submessage.frames_singleton, ← Submessage.frames_append] at contains
    rw [tail] at taken contains padded ⊢
    have all_padded : ∀ x ∈ b.pending ++
        [encodedAs ctx (ctx.tailOf b.pending) type receiver payload slotBytes], Padded x := by
      intro x mem
      obtain before | rfl := List.mem_append.mp mem |>.imp_right List.mem_singleton.mp
      · exact h.padded x before
      · exact padded
    unfold place at restores ⊢
    simp only [taken, Bool.not_true, Bool.false_eq_true, if_false] at restores ⊢
    cases hplace : placeOf ctx (ctx.tailOf b.pending) payload.length slotBytes with
    | unpadded => exact absurd hplace padding
    | joins =>
      simp only [hplace] at restores ⊢
      cases isFlush with
      | false =>
        simp only [Bool.false_eq_true, if_false, TxBuffer.settled, settled, if_true]
        exact ⟨contains, h.mark, fun stays => (h.kept stays).trans (List.prefix_append _ _), all_padded,
          h.mark_padded, by simpa [TxSender.settle] using h.sent⟩
      | true =>
        simp only [if_true] at restores ⊢
        rw [contains.tail_eq]
        apply h.flush_or_back (by simpa using contains) (by simpa using all_padded)
          (List.prefix_append _ _) restores
        intro some
        rw [lone_append some]
        rfl
    | defers =>
      simp only [hplace] at restores ⊢
      exact h.flush_or_back contains all_padded List.prefix_rfl restores (fun _ => deferred hplace)

theorem Follows.fragmented (h : Follows ctx s b) {type : UInt8} {payload : List UInt8} {sends : Sends}
    {toMark : Bool} (clear : Clear ctx b (.fragmented type payload sends toMark)) :
    Follows ctx (s.step ctx (.fragmented type payload sends toMark))
      (b.after ctx (.fragmented type payload sends toMark)) := by
  obtain ⟨intact, restores⟩ := clear
  have tail := h.tail
  simp only [TxSender.step, after, TxBuffer.sendFragmented]
  obtain ⟨refused, room⟩ | ⟨full, encoded, opens, writes, contains⟩ :=
    h.contains.encoded ctx type toAll payload
  · rw [refused]
    have above : ctx.txSize ≤ ctx.tailOf b.pending + submessageHeaderLength + payload.length := by omega
    rw [if_pos above]
    have followed : Follows ctx (s.settle ⟨s.tx.rollback (s.oldTail toMark), none, false⟩)
        { b with pending := b.target toMark, sent := b.sent ++ [] } :=
      h.back (restores above) (begins_of_contains h.contains) .nil
    simpa using followed
  · rw [encoded, if_neg (by omega)]
    have padded := contains.pad (roundup (full.tail - s.tx.tail) - (full.tail - s.tx.tail))
    rw [List.append_assoc] at padded
    obtain ⟨left, datagram, more, flushed, sent, delivers, moved, stayed⟩ :=
      flush_follows b padded h.padded [] 0 sends
    by_cases none : b.pending = []
    · have empty : ¬ headerLength < s.tx.tail := by
        rw [tail, none]
        simp [TxContext.tailOf, Submessage.frames]
      have followed : Follows ctx
          (s.settle ⟨TxBuffer.rollback ⟨overwrite full.bytes full.tail (List.replicate
            (roundup (full.tail - s.tx.tail) - (full.tail - s.tx.tail)) 0), full.tail +
              (roundup (full.tail - s.tx.tail) - (full.tail - s.tx.tail))⟩ (s.oldTail false), .none, false⟩)
          { b with pending := b.target false, sent := b.sent ++ [] } :=
        h.back rfl (begins_of_contains padded).front .nil
      simpa [empty, settled, flush, none, target, TxSender.settle, TxSender.oldTail] using followed
    · have some : headerLength < s.tx.tail := by
        have := TxBuffer.frames_long none ctx.order
        rw [tail, TxContext.tailOf]
        simp only [submessageHeaderLength] at this
        omega
      rw [← tail] at flushed
      simp only [some, if_true, flushed]
      cases hok : (b.flush ctx b.pending [] 0 sends).2 with
      | true =>
        obtain ⟨-, pending, gone⟩ | ⟨failed, -⟩ | ⟨failed, -⟩ := flush_cases b ctx b.pending [] 0 sends
        · rw [settled_true hok]
          have begins := (begins_of_contains (moved hok)).nothing
          refine ⟨?_, ?_, ?_, ?_, ?_, ?_⟩
          · rw [pending]
            exact begins.rollback rfl
          · rw [flush_mark]
            exact h.mark
          · intro stays
            rw [gone.resolve_left none] at stays
            cases stays
          · simp [pending]
          · rw [flush_mark]
            exact h.mark_padded
          · rw [sent]
            exact List.rel_append h.sent delivers
        · rw [hok] at failed
          cases failed
        · rw [hok] at failed
          cases failed
      | false =>
        obtain ⟨-, -, whole⟩ := stayed hok
        rw [settled_false hok, sent]
        have followed : Follows ctx (s.settle ⟨left.rollback (s.oldTail false), datagram, false⟩)
            { b with pending := b.target false, sent := b.sent ++ more } :=
          h.back rfl (whole intact).front delivers
        exact followed

theorem Follows.step (h : Follows ctx s b) {event : TxEvent} (clear : Clear ctx b event) :
    Follows ctx (s.step ctx event) (b.after ctx event) := by
  cases event with
  | begin => exact ⟨h.contains, h.tail, fun _ => List.prefix_rfl, h.padded, h.padded, h.sent⟩
  | submessage type receiver payload isFlush slotBytes sends toMark => exact h.submessage clear
  | fragmented type payload sends toMark => exact h.fragmented clear
  | flush slotBytes sends =>
    have whole : s.tx.Contains (Submessage.frames ctx.order (b.pending ++ [])) := by
      simpa using h.contains
    have followed := h.flushed whole (by simpa using h.padded) h.kept (.inr clear)
    rw [← h.tail] at followed
    exact followed
  | rollback =>
    have followed : Follows ctx (s.settle ⟨s.tx.rollback (s.oldTail true), none, false⟩)
        { b with pending := b.target true, sent := b.sent ++ [] } :=
      h.back clear (begins_of_contains h.contains) .nil
    simpa [TxSender.settle, TxSender.step, TxSender.oldTail, after, target] using followed

theorem Follows.run (h : Follows ctx s b) {events : List TxEvent}
    (clear : Run.Sound (after ctx) (Clear ctx) b events) :
    Follows ctx (Run.after (TxSender.step ctx) s events) (Run.after (after ctx) b events) := by
  induction events generalizing s b with
  | nil => exact h
  | cons event rest ih => exact ih (h.step clear.1) clear.2

theorem create_follows (ctx : TxContext) : Follows ctx (TxSender.create ctx) create where
  contains := TxBuffer.create_contains ctx
  mark := rfl
  kept := fun _ => List.prefix_rfl
  padded := by simp [create]
  mark_padded := by simp [create]
  sent := .nil

theorem tailOf_padded {submessages : List Submessage} (padded : ∀ x ∈ submessages, Padded x) :
    ctx.tailOf submessages % 4 = 0 := by
  induction submessages with
  | nil => simp [TxContext.tailOf, Submessage.frames, headerLength]
  | cons first rest ih =>
    have more := ih fun x mem => padded x (List.mem_cons_of_mem first mem)
    have one := (padded first (List.mem_cons_self ..)).2
    simp only [TxContext.tailOf, Submessage.frames, List.flatMap_cons, List.length_append,
      Submessage.frame_length] at more ⊢
    omega

/-- Every datagram of the run is the submessages put in since the one before, framed with their lengths,
and is taken apart into them again; each starts at a multiple of 4. -/
theorem sent_carries (ctx : TxContext) {events : List TxEvent}
    (clear : Run.Sound (after ctx) (Clear ctx) create events) :
    List.Forall₂ (fun datagram submessages =>
        Carries ctx datagram submessages ∧ processPacket datagram = some (ctx.id, submessages) ∧
        ∀ before s later, submessages = before ++ s :: later → ctx.tailOf before % 4 = 0)
      (Run.after (TxSender.step ctx) (TxSender.create ctx) events).sent
      (Run.after (after ctx) create events).sent := by
  have followed := (create_follows ctx).run clear
  refine followed.sent.imp ?_
  intro datagram submessages delivers
  obtain ⟨carries, padded⟩ := delivers
  refine ⟨carries, carries.processPacket fun x mem => (padded x mem).1, ?_⟩
  intro before s later split
  apply tailOf_padded
  intro x mem
  exact padded x (by rw [split]; exact List.mem_append_left _ mem)

open TxQueue (smallSender heartbeat)

/-- Three submessages, the last of them flushed out with the others, and a publish that fails. -/
def threeSubmessages : List TxEvent :=
  [.submessage 6 toAll [1, 2, 3] false 0 .fine false, .begin,
    .submessage 3 9 [4, 5, 6, 7] false 0 .fine true, .rollback,
    .submessage 2 toAll [8] true 0 ⟨false, false⟩ true, .submessage 2 toAll [8] true 0 .fine true]

theorem sent_carries_three :
    List.Forall₂ (fun datagram submessages => processPacket datagram = some (5, submessages))
      (Run.after (TxSender.step smallSender) (TxSender.create smallSender) threeSubmessages).sent
      [[⟨6, toAll, [1, 2, 3, 0]⟩, ⟨2, toAll, [8, 0, 0, 0]⟩]] := by
  have sent : (Run.after (after smallSender) create threeSubmessages).sent =
      [[⟨6, toAll, [1, 2, 3, 0]⟩, ⟨2, toAll, [8, 0, 0, 0]⟩]] := by decide +kernel
  rw [← sent]
  exact (sent_carries smallSender (by decide +kernel)).imp fun _ _ carried => carried.2.1

theorem odd_control : 548 ≤ 549 := by decide

theorem odd_fragments : 4000 + 3 ≤ 549 - 25 ∨ 1 + (4000 + 3 - (549 - 25) + (549 - 18) - 1) / (549 - 18) ≤ 64 := by
  decide

/-- A link of 549 bytes a datagram. -/
def oddSender : TxContext where
  node := ⟨549, 4000, odd_control, smallest_samples, odd_fragments⟩
  maxBufferLength := 549
  order := .little
  id := 5
  control_le := by decide
  buffer_le := by decide

/-- A submessage that fits behind a HEARTBEAT only without its padding is kept without it, and the next
starts behind it. -/
theorem sent_misaligned :
    (Run.after (TxSender.step oddSender) (TxSender.create oddSender)
      [.submessage 6 toAll heartbeat.body false 0 .fine false,
        .submessage 2 toAll (List.replicate 529 7) false 0 .fine false,
        .submessage 6 toAll heartbeat.body false 0 .fine false, .flush 0 .fine]).sent.getLast? =
      some (packet .little 5 [⟨2, toAll, List.replicate 529 7⟩, heartbeat]) ∧
    oddSender.tailOf [⟨2, toAll, List.replicate 529 7⟩] % 4 = 1 := by
  decide +kernel

-- A publish behind an announce sends it off ahead of its match HEARTBEAT and is refused then: what the
-- tail goes back to is the HEARTBEAT and stale bytes.
example :
    ((Run.after (TxSender.step smallSender) (TxSender.create smallSender)
      [.submessage 1 toAll (List.replicate 532 7) false 0 .fine false, .begin,
        .submessage 6 toAll heartbeat.body true 0 .fine false, .rollback, .flush 0 .fine]).sent.getLast?.bind
      processPacket) = none := by
  decide +kernel

end Batch

end Tickle
