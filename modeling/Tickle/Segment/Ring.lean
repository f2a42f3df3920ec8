import Tickle.Run
import Tickle.Segment.Indices

/-! # The ring of a context's segment

Any number of same-host writers put datagrams into the ring of a context, which alone reads it. Every
load, store and exchange of a shared word is a step of its own here, and any writer's, the reader's or a
release of a kept sample may come next. `segment_unhold()` is one step: its loop ends with an exchange that
finds the word as it was last loaded.

A shared word has 32 bits. Each is kept here with the bits it has lost, as the index it stands for; the
code has and compares only the `word`s.
-/

namespace Tickle

namespace Segment

/-- What a slot carries: a datagram, a fence, or a reference to the slot claimed at `index`. -/
inductive Cell (δ : Type)
  | blank
  | datagram (d : δ)
  | fence
  | ref (index : Nat)
  deriving DecidableEq, Repr

/-- What a writer claims an index for: a record, a slot to lend, or a reference. -/
inductive Task (δ : Type)
  | record (cell : Cell δ)
  | lend
  | refer (index : Nat)
  deriving DecidableEq, Repr

/-- The next step of a writer. In `segment_claim()`: load `write_index`, load `read_index`, load the slot's
sequence, then exchange `write_index` for a free slot, or in `segment_pass_held()` exchange a held slot's
mark and then `write_index`. With the index won: write the slot, then publish it. For a claim that is
published: load `write_index`, then exchange its mark. Last, give a claim's slot back. -/
inductive WriterPc (δ : Type)
  | idle
  | load (t : Task δ)
  | range (t : Task δ) (claimed : Nat)
  | check (t : Task δ) (claimed : Nat)
  | exchange (t : Task δ) (claimed : Nat)
  | mark (t : Task δ) (claimed sequence : Nat)
  | skip (t : Task δ) (claimed : Nat)
  | won (t : Task δ) (claimed : Nat)
  | filled (t : Task δ) (claimed : Nat)
  | inPlace (index : Nat)
  | publish (index : Nat)
  | giveBack (index : Nat)
  deriving DecidableEq, Repr

/-- A writer and the indices of the slots it has lent. -/
structure Writer (δ : Type) where
  pc : WriterPc δ
  claims : List Nat
  deriving DecidableEq, Repr

/-- The next step of the reader: load the head's sequence; act on it; having passed the head, exchange
`write_index`; store `read_index`; give back or keep what was read. -/
inductive ReaderPc
  | idle
  | looked (sequence : Nat)
  | passing
  | advance
  | reading (index : Nat)
  | refReleased (index : Nat)
  | referring (index ref : Nat)
  | readingRef (index : Nat)
  deriving DecidableEq, Repr

/-- Who has a slot. -/
inductive Owner
  | free
  | filling (w : Nat)
  | unread
  | reading
  | lent (w index : Nat)
  | referred (ref index : Nat)
  | referring (index : Nat)
  | kept (index : Nat)
  deriving DecidableEq, Repr

/-- The ring, its writers and its reader. `owner`, `handed` (which writer's datagram an index hands over),
`log` (the indices a writer has published datagrams at, in the order it did), `dropped` and `reads` are the
history. -/
structure Ring (δ : Type) where
  writeIndex : Nat
  readIndex : Nat
  sequence : Nat → Nat
  cell : Nat → Cell δ
  writers : Nat → Writer δ
  reader : ReaderPc
  retained : List Nat
  owner : Nat → Owner
  handed : Nat → Option (Nat × δ)
  log : Nat → List Nat
  dropped : List (Nat × Nat)
  reads : List (Nat × Nat × δ)

/-- What a writer sets out to do. -/
inductive Op (δ : Type)
  | write (d : δ)
  | fence
  | lend
  | publish (index : Nat) (d : δ)
  | abandon (index : Nat)
  deriving DecidableEq, Repr

/-- What the reader may do with a record: read it in place, copy it out, leave a fence for now; and with
one it has read, give it back or keep it. -/
inductive Choice
  | go
  | copy
  | wait
  | keep
  deriving DecidableEq, Repr

inductive RingEvent (δ : Type)
  | start (w : Nat) (op : Op δ)
  | fill (w index : Nat) (d : δ)
  | writer (w : Nat) (spurious : Bool)
  | reader (choice : Choice)
  | release (index : Nat)
  deriving DecidableEq, Repr

namespace Ring

variable {δ : Type}

/-- A ring nobody has used. -/
def create : Ring δ where
  writeIndex := 0
  readIndex := 0
  sequence := fun p => p
  cell := fun _ => .blank
  writers := fun _ => ⟨.idle, []⟩
  reader := .idle
  retained := []
  owner := fun _ => .free
  handed := fun _ => none
  log := fun _ => []
  dropped := []
  reads := []

variable (g : Geometry) (s : Ring δ)

/-- `segment_seq_passed()`. -/
def seqPassed (sequence index : Nat) : Bool :=
  word sequence - word index - 2 ≤ 1 || word sequence = word index + BitVec.ofNat 32 g.slots

/-- `segment_seq_held_since()`. -/
def seqHeldSince (sequence index : Nat) : Bool :=
  ((word sequence - word index).toNat % g.slots = 2) || ((word sequence - word index).toNat % g.slots = 3)

def setPc (w : Nat) (pc : WriterPc δ) : Ring δ :=
  { s with writers := Function.update s.writers w { s.writers w with pc := pc } }

def setSequence (index sequence : Nat) (owner : Owner) : Ring δ :=
  { s with
    sequence := Function.update s.sequence (g.pos index) sequence
    owner := Function.update s.owner (g.pos index) owner }

def setCell (index : Nat) (cell : Cell δ) : Ring δ :=
  { s with cell := Function.update s.cell (g.pos index) cell }

/-- `segment_unhold()`. -/
def unhold (index : Nat) : Ring δ :=
  let sequence := s.sequence (g.pos index)
  let mark := (word sequence - word index).toNat % g.slots
  s.setSequence g index (if mark = 2 ∨ mark = 3 then sequence - mark + g.slots else index + g.slots) .free

/-- `segment_claim()` has found the ring full: a reference's claim is given back. -/
def refuse (w : Nat) : Task δ → Ring δ
  | .refer index => { s.setPc w (.giveBack index) with dropped := s.dropped ++ [(w, index)] }
  | _ => s.setPc w .idle

/-- The datagram in a slot is handed over at `ref`. -/
def handOver (w index ref : Nat) : Ring δ :=
  match s.cell (g.pos index) with
  | .datagram d =>
    { s with
      handed := Function.update s.handed ref (some (w, d))
      log := Function.update s.log w (s.log w ++ [ref]) }
  | _ => s

/-- One step of a writer. An exchange that only orders may fail for no reason (`spurious`). -/
def writerStep (w : Nat) (spurious : Bool) : Ring δ :=
  match (s.writers w).pc with
  | .idle => s
  | .load t => s.setPc w (.range t s.writeIndex)
  | .range t claimed =>
    if g.slots ≤ (word claimed - word s.readIndex).toNat then s.refuse w t
    else s.setPc w (.check t claimed)
  | .check t claimed =>
    let sequence := s.sequence (g.pos claimed)
    if word sequence = word claimed then s.setPc w (.exchange t claimed)
    else if word sequence - (word claimed - BitVec.ofNat 32 g.slots) - 2 ≤ 1 then
      s.setPc w (.mark t claimed sequence)
    else if seqPassed g sequence claimed then s.setPc w (.skip t claimed)
    else s.refuse w t
  | .mark t claimed sequence =>
    if word (s.sequence (g.pos claimed)) = word sequence then
      (s.setSequence g claimed (claimed + 2) (s.owner (g.pos claimed))).setPc w (.skip t claimed)
    else s.setPc w (.load t)
  | .skip t claimed =>
    (if word s.writeIndex = word claimed then { s with writeIndex := s.writeIndex + 1 } else s).setPc w (.load t)
  | .exchange t claimed =>
    if !spurious && word s.writeIndex = word claimed then
      { s with
        writeIndex := s.writeIndex + 1
        owner := Function.update s.owner (g.pos s.writeIndex) (.filling w) }.setPc w (.won t s.writeIndex)
    else s.setPc w (.range t s.writeIndex)
  | .won .lend claimed =>
    let s := s.setSequence g claimed (claimed + 2) (.lent w claimed)
    { s with writers := Function.update s.writers w ⟨.idle, claimed :: (s.writers w).claims⟩ }
  | .won (.record cell) claimed => (s.setCell g claimed cell).setPc w (.filled (.record cell) claimed)
  | .won (.refer index) claimed => (s.setCell g claimed (.ref index)).setPc w (.filled (.refer index) claimed)
  | .filled t claimed =>
    let s := (s.setSequence g claimed (claimed + 1) .unread).setPc w .idle
    match t with
    | .refer index =>
      { s with owner := Function.update s.owner (g.pos index) (.referred claimed index) }.handOver g w index claimed
    | _ => s.handOver g w claimed claimed
  | .inPlace index =>
    if word s.writeIndex = word (index + 1) then s.setPc w (.publish index)
    else s.setPc w (.load (.refer index))
  | .publish index =>
    if word (s.sequence (g.pos index)) = word (index + 2) then
      ((s.setSequence g index (index + 1) .unread).setPc w .idle).handOver g w index index
    else s.setPc w (.load (.refer index))
  | .giveBack index => (s.unhold g index).setPc w .idle

/-- One step of the reader: `segment_take()`, `segment_read()`, `segment_pass_head()`, `segment_done()` and
`segment_ref_at_head()`. -/
def readerStep (choice : Choice) : Ring δ :=
  let head := s.readIndex
  match s.reader with
  | .idle => { s with reader := .looked (s.sequence (g.pos head)) }
  | .looked sequence =>
    if word sequence = word (head + 1) then
      match s.cell (g.pos head) with
      | .datagram d =>
        let read := { s with reads := s.reads ++ [(head, (s.handed head).elim 0 (·.1), d)] }
        if choice = .copy then
          { read.setSequence g head (head + g.slots) .free with reader := .advance }
        else
          { read with
            readIndex := head + 1
            owner := Function.update s.owner (g.pos head) .reading
            reader := .reading head }
      | .ref index =>
        { s.setSequence g head (head + g.slots) .free with
          owner := Function.update (Function.update s.owner (g.pos index) (.referring index)) (g.pos head) .free
          reader := .refReleased index }
      | _ =>
        if choice = .wait then { s with reader := .idle }
        else { s.setSequence g head (head + g.slots) .free with reader := .advance }
    else if word sequence = word (head + 2) then
      if word (s.sequence (g.pos head)) = word sequence then
        { s.setSequence g head (head + 3) (s.owner (g.pos head)) with reader := .passing }
      else { s with reader := .looked (s.sequence (g.pos head)) }
    else if seqPassed g sequence head then { s with reader := .passing }
    else { s with reader := .idle }
  | .passing =>
    { s with
      writeIndex := if word s.writeIndex = word head then s.writeIndex + 1 else s.writeIndex
      reader := .advance }
  | .advance => { s with readIndex := head + 1, reader := .idle }
  | .reading index =>
    if choice = .keep then
      { s.setSequence g index (index + 2) (.kept index) with
        retained := index :: s.retained
        reader := .idle }
    else { s.setSequence g index (index + g.slots) .free with reader := .idle }
  | .refReleased index => { s with readIndex := head + 1, reader := .referring index head }
  | .referring index ref =>
    let sequence := s.sequence (g.pos index)
    if seqHeldSince g sequence index && (word sequence - word index).toNat < 2 ^ 31 &&
        (word ref - word index - 1).toNat < 2 ^ 31 && !(s.retained.any fun kept => word kept = word index) then
      match s.cell (g.pos index) with
      | .datagram d =>
        { s with
          reads := s.reads ++ [(ref, (s.handed ref).elim 0 (·.1), d)]
          reader := .readingRef index }
      | _ => { s with reader := .readingRef index }
    else { s with reader := .idle }
  | .readingRef index =>
    if choice = .keep then
      { s with
        owner := Function.update s.owner (g.pos index) (.kept index)
        retained := index :: s.retained
        reader := .idle }
    else { s.unhold g index with reader := .idle }

/-- An idle writer sets out on something. A claim it publishes has its record complete. -/
def start (w : Nat) (op : Op δ) : Ring δ :=
  match (s.writers w).pc, op with
  | .idle, .write d => s.setPc w (.load (.record (.datagram d)))
  | .idle, .fence => s.setPc w (.load (.record .fence))
  | .idle, .lend => s.setPc w (.load .lend)
  | .idle, .publish index d =>
    if index ∈ (s.writers w).claims then
      { s.setCell g index (.datagram d) with
        writers := Function.update s.writers w ⟨.inPlace index, (s.writers w).claims.erase index⟩ }
    else s
  | .idle, .abandon index =>
    if index ∈ (s.writers w).claims then
      { s with writers := Function.update s.writers w ⟨.giveBack index, (s.writers w).claims.erase index⟩ }
    else s
  | _, _ => s

def step : RingEvent δ → Ring δ
  | .start w op => s.start g w op
  | .fill w index d => if index ∈ (s.writers w).claims then s.setCell g index (.datagram d) else s
  | .writer w spurious => s.writerStep g w spurious
  | .reader choice => s.readerStep g choice
  | .release index =>
    if index ∈ s.retained then { s.unhold g index with retained := s.retained.erase index } else s

end Ring

end Segment

end Tickle
