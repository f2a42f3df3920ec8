import Tickle.Writer.KeepAllRuns

/-! # Waiting for acknowledgement

What a Publisher knows of its Subscribers' acknowledgements, and `rmw_publisher_wait_for_all_acked()`
polling it. The numbers the code compares wrap; beside each the count it stands for is kept, so that
"everything published before the call" can be said. The loop reads the Publisher's newest seq_no anew
at every check, so it waits for what is published meanwhile too (`waits_for_later`).
-/

namespace Tickle

open Serial

/-- `struct tt_PeerAck` as waiting reads it. `position` is not in the source: the furthest any ACKNACK
of this Subscriber has come, counted without wrapping. -/
structure AckMark where
  contextId : Nat
  entityId : Nat
  ackSeqNo : SeqNo
  acked : Bool
  position : Nat
  deriving DecidableEq, Repr

/-- A Publisher's `seq_no` and `peer_acks[]`. `published` is not in the source: how many seq_nos have
been given out, `seqNo` its low 32 bits. -/
structure AckTable where
  published : Nat
  marks : List (Option AckMark)
  deriving DecidableEq, Repr

/-- What happens to the table while a call waits. -/
inductive AckEvent where
  | published (span : Nat)
  | matched (contextId entityId first : Nat)
  | unmatched (contextId : Nat) (entityId : Option Nat)
  | acknack (contextId entityId position : Nat)
  | idle
  deriving DecidableEq, Repr

/-- A seq_no of the count it stands for. -/
def wrapped (count : Nat) : SeqNo := BitVec.ofNat 32 count

namespace AckTable

def seqNo (t : AckTable) : SeqNo := wrapped t.published

def create (peers : Nat) : AckTable := ⟨0, List.replicate peers none⟩

def isMark (contextId entityId : Nat) (entry : Option AckMark) : Bool :=
  entry.any fun mark => mark.contextId = contextId && mark.entityId = entityId

def claimMark (mark : AckMark) : List (Option AckMark) → List (Option AckMark)
  | [] => []
  | none :: rest => some mark :: rest
  | some other :: rest => some other :: claimMark mark rest

/-- `claim_peer_ack()`: nothing acknowledged yet of what begins at `first`. -/
def claimPeerAck (t : AckTable) (contextId entityId first : Nat) : AckTable :=
  if t.marks.any (isMark contextId entityId) then t
  else { t with marks := claimMark ⟨contextId, entityId, wrapped first, false, first⟩ t.marks }

/-- `forget_peer_ack()`. -/
def forgetPeerAck (t : AckTable) (contextId : Nat) (entityId : Option Nat) : AckTable :=
  { t with
    marks := t.marks.map fun entry =>
      if entry.any fun mark => mark.contextId = contextId && entityId.all (· = mark.entityId) then none
      else entry }

/-- `record_peer_ack()` on one entry, for an ACKNACK that says everything below `position` is there. -/
def recordAck (contextId entityId position : Nat) (mark : AckMark) : AckMark :=
  if mark.contextId = contextId ∧ mark.entityId = entityId then
    { mark with
      acked := true
      ackSeqNo :=
        if seqDelta mark.ackSeqNo (wrapped position) < 0 then wrapped position else mark.ackSeqNo
      position := max mark.position position }
  else mark

def recordPeerAck (t : AckTable) (contextId entityId position : Nat) : AckTable :=
  if entityId = 0 then t
  else { t with marks := t.marks.map (·.map (recordAck contextId entityId position)) }

def step (t : AckTable) : AckEvent → AckTable
  | .published span => { t with published := t.published + span }
  | .matched contextId entityId first => t.claimPeerAck contextId entityId first
  | .unmatched contextId entityId => t.forgetPeerAck contextId entityId
  | .acknack contextId entityId position => t.recordPeerAck contextId entityId position
  | .idle => t

/-- `publisher_is_acked_by_all_peers_locked()`. -/
def isAckedByAllPeers (t : AckTable) (seqNo : SeqNo) : Bool :=
  t.marks.all fun entry => entry.all fun mark => mark.acked && seqDelta seqNo mark.ackSeqNo < 0

/-- One check of `rmw_publisher_wait_for_all_acked()`, its target the newest seq_no as of now. -/
def waitCheck (t : AckTable) : Bool := t.seqNo = 0 || t.isAckedByAllPeers t.seqNo

/-- Every matched Subscriber has acknowledged the first `count` seq_nos. -/
def Acknowledged (t : AckTable) (count : Nat) : Prop :=
  count = 0 ∨ ∀ entry ∈ t.marks, ∀ mark ∈ entry, mark.acked = true ∧ count < mark.position

instance (t : AckTable) (count : Nat) : Decidable (t.Acknowledged count) :=
  inferInstanceAs (Decidable (_ ∨ ∀ entry ∈ t.marks, ∀ mark ∈ entry, _))

/-- An ACKNACK comes within half a turn of what its Subscriber is on record for. -/
def Timely (t : AckTable) : AckEvent → Prop
  | .acknack contextId entityId position => ∀ entry ∈ t.marks, ∀ mark ∈ entry,
      mark.contextId = contextId → mark.entityId = entityId →
      mark.position < position + 2 ^ 31 ∧ position < mark.position + 2 ^ 31
  | _ => True

/-- The number kept for a Subscriber is the furthest it acknowledged. -/
def Exact (t : AckTable) : Prop :=
  ∀ entry ∈ t.marks, ∀ mark ∈ entry, mark.ackSeqNo = wrapped mark.position

end AckTable

theorem seqDelta_wrapped {a b : Nat} (h1 : a < b + 2 ^ 31) (h2 : b < a + 2 ^ 31) :
    seqDelta (wrapped a) (wrapped b) < 0 ↔ a < b := by
  rw [seqDelta_neg]
  unfold steps wrapped
  rw [BitVec.toNat_sub]
  simp only [BitVec.toNat_ofNat]
  omega

namespace AckTable

theorem recordAck_exact {mark : AckMark} (h : mark.ackSeqNo = wrapped mark.position)
    {contextId entityId position : Nat}
    (timely : mark.contextId = contextId → mark.entityId = entityId →
      mark.position < position + 2 ^ 31 ∧ position < mark.position + 2 ^ 31) :
    (recordAck contextId entityId position mark).ackSeqNo =
      wrapped (recordAck contextId entityId position mark).position := by
  unfold recordAck
  split
  · next hkey =>
    obtain ⟨h1, h2⟩ := timely hkey.1 hkey.2
    dsimp only
    rw [h]
    by_cases hlt : mark.position < position
    · rw [if_pos ((seqDelta_wrapped h1 h2).mpr hlt), max_eq_right (by omega)]
    · rw [if_neg (mt (seqDelta_wrapped h1 h2).mp hlt), max_eq_left (by omega)]
  · exact h

theorem mem_claimMark {mark : AckMark} {marks : List (Option AckMark)} {entry : Option AckMark}
    (h : entry ∈ claimMark mark marks) : entry = some mark ∨ entry ∈ marks := by
  induction marks with
  | nil => simp [claimMark] at h
  | cons head rest ih =>
    cases head with
    | none =>
      simp only [claimMark, List.mem_cons] at h
      obtain rfl | h := h
      · exact .inl rfl
      · exact .inr (List.mem_cons_of_mem _ h)
    | some other =>
      simp only [claimMark, List.mem_cons] at h
      obtain rfl | h := h
      · exact .inr (List.mem_cons_self ..)
      · obtain h | h := ih h
        · exact .inl h
        · exact .inr (List.mem_cons_of_mem _ h)

theorem Exact.step {t : AckTable} (h : t.Exact) {event : AckEvent} (timely : t.Timely event) :
    (t.step event).Exact := by
  cases event with
  | published span => exact h
  | idle => exact h
  | matched contextId entityId first =>
    simp only [AckTable.step, claimPeerAck]
    split
    · exact h
    · intro entry hentry mark hmark
      obtain rfl | hold := mem_claimMark hentry
      · cases hmark
        rfl
      · exact h entry hold mark hmark
  | unmatched contextId entityId =>
    intro entry hentry mark hmark
    simp only [AckTable.step, forgetPeerAck, List.mem_map] at hentry
    obtain ⟨old, hold, rfl⟩ := hentry
    split at hmark
    · simp at hmark
    · exact h old hold mark hmark
  | acknack contextId entityId position =>
    simp only [AckTable.step, recordPeerAck]
    split
    · exact h
    · intro entry hentry mark hmark
      obtain ⟨old, hold, rfl⟩ := List.mem_map.mp hentry
      obtain ⟨oldMark, hmem, rfl⟩ := Option.map_eq_some_iff.mp hmark
      exact recordAck_exact (h old hold oldMark hmem) fun hc he => timely old hold oldMark hmem hc he

theorem create_exact (peers : Nat) : (create peers).Exact := by
  intro entry hentry mark hmark
  obtain ⟨-, rfl⟩ := List.mem_replicate.mp hentry
  simp at hmark

/-- Every Subscriber on record is within half a turn of the newest seq_no. -/
def Near (t : AckTable) : Prop :=
  ∀ entry ∈ t.marks, ∀ mark ∈ entry, mark.acked = true →
    t.published < mark.position + 2 ^ 31 ∧ mark.position < t.published + 2 ^ 31

theorem isAckedByAllPeers_iff {t : AckTable} (exact : t.Exact) (near : t.Near) :
    t.isAckedByAllPeers t.seqNo = true ↔
      ∀ entry ∈ t.marks, ∀ mark ∈ entry, mark.acked = true ∧ t.published < mark.position := by
  unfold isAckedByAllPeers
  rw [List.all_eq_true]
  apply forall₂_congr
  intro entry hentry
  cases entry with
  | none => simp
  | some mark =>
    simp only [Option.all_some, Bool.and_eq_true, decide_eq_true_eq, Option.mem_def, Option.some.injEq]
    rw [forall_eq']
    apply and_congr_right
    intro acked
    obtain ⟨h1, h2⟩ := near _ hentry mark rfl acked
    rw [exact _ hentry mark rfl]
    exact seqDelta_wrapped h1 h2

end AckTable

/-! ## A call that waits -/

/-- The table over a run. -/
def ackState (peers : Nat) (event : Nat → AckEvent) : Nat → AckTable
  | 0 => .create peers
  | t + 1 => (ackState peers event t).step (event t)

/-- `rmw_publisher_wait_for_all_acked()` with its checks at the given times, the last of them the one
its deadline stops it after: the check it returns OK at, `none` for TIMEOUT. -/
def waitForAllAcked (table : Nat → AckTable) (checks : List Nat) : Option Nat :=
  checks.findIdx? fun time => (table time).waitCheck

/-- The check a call made at `start` is to return OK at: the first at which every matched Subscriber
has acknowledged what was published before the call. -/
def firstAcknowledged (table : Nat → AckTable) (start : Nat) (checks : List Nat) : Option Nat :=
  checks.findIdx? fun time => (table time).Acknowledged (table start).published

/-- A check that looks at the newest seq_no and yet answers for the call's: the numbers compared are
within half a turn, the newest is not 0 again with something owed, and with everything from before
the call acknowledged nothing since is owed. -/
structure CheckSound (t : AckTable) (before : Nat) : Prop where
  near : t.Near
  nonzero : t.seqNo = 0 → t.Acknowledged before
  settled : t.Acknowledged before → t.seqNo = 0 ∨ t.Acknowledged t.published

theorem waitCheck_iff {t : AckTable} {before : Nat} (exact : t.Exact) (hle : before ≤ t.published)
    (sound : CheckSound t before) : t.waitCheck = true ↔ t.Acknowledged before := by
  unfold AckTable.waitCheck
  rw [Bool.or_eq_true, decide_eq_true_eq, AckTable.isAckedByAllPeers_iff exact sound.near]
  constructor
  · rintro (zero | all)
    · exact sound.nonzero zero
    · right
      intro entry hentry mark hmark
      obtain ⟨acked, hlt⟩ := all entry hentry mark hmark
      exact ⟨acked, by omega⟩
  · intro acknowledged
    obtain zero | none_published | all := sound.settled acknowledged
    · exact .inl zero
    · left
      rw [AckTable.seqNo, none_published]
      rfl
    · exact .inr all

/-- Two searches agree when their tests agree up to the first hit of the second. -/
theorem findIdx?_congr_until {β : Type} {p q : β → Bool} {l : List β}
    (h : ∀ (k : Nat) (x : β), l[k]? = some x →
      (∀ (j : Nat) (y : β), j < k → l[j]? = some y → q y = false) → p x = q x) :
    l.findIdx? p = l.findIdx? q := by
  induction l with
  | nil => rfl
  | cons x rest ih =>
    have head := h 0 x rfl (by intro j y hj; omega)
    rw [List.findIdx?_cons, List.findIdx?_cons, head]
    cases hq : q x with
    | true => rfl
    | false =>
      simp only [Bool.false_eq_true, if_false]
      rw [ih]
      intro k y hy before
      apply h (k + 1) y hy
      intro j z hj hz
      cases j with
      | zero =>
        cases hz
        exact hq
      | succ j => exact before j z (by omega) hz

theorem published_mono (peers : Nat) (event : Nat → AckEvent) {t u : Nat} (h : t ≤ u) :
    (ackState peers event t).published ≤ (ackState peers event u).published := by
  induction h with
  | refl => exact le_refl _
  | @step u _ ih =>
    apply le_trans ih
    rw [ackState]
    cases event u with
    | published span => exact Nat.le_add_right _ _
    | matched contextId entityId first =>
      simp only [AckTable.step, AckTable.claimPeerAck]
      split <;> exact le_refl _
    | unmatched contextId entityId => exact le_refl _
    | acknack contextId entityId position =>
      simp only [AckTable.step, AckTable.recordPeerAck]
      split <;> exact le_refl _
    | idle => exact le_refl _

theorem ackState_exact (peers : Nat) (event : Nat → AckEvent)
    (timely : ∀ t, (ackState peers event t).Timely (event t)) (t : Nat) :
    (ackState peers event t).Exact := by
  induction t with
  | zero => exact AckTable.create_exact peers
  | succ t ih => exact ih.step (timely t)

/-- In every run whose ACKNACKs are timely, a call each of whose checks is sound returns OK exactly
at the first check at which all that was published before it is acknowledged. -/
theorem wait_returns_when_acknowledged (peers : Nat) (event : Nat → AckEvent)
    (timely : ∀ t, (ackState peers event t).Timely (event t)) (start : Nat) (checks : List Nat)
    (later : ∀ time ∈ checks, start ≤ time)
    (sound : ∀ (k time : Nat), checks[k]? = some time →
      (∀ (j earlier : Nat), j < k → checks[j]? = some earlier →
        ¬ (ackState peers event earlier).Acknowledged (ackState peers event start).published) →
      CheckSound (ackState peers event time) (ackState peers event start).published) :
    waitForAllAcked (ackState peers event) checks =
      firstAcknowledged (ackState peers event) start checks := by
  unfold waitForAllAcked firstAcknowledged
  apply findIdx?_congr_until
  intro k time htime unmet
  have check := sound k time htime fun j earlier hj hearlier => by
    simpa using unmet j earlier hj hearlier
  have hle := published_mono peers event (later time (List.mem_of_getElem? htime))
  rw [Bool.eq_iff_iff, decide_eq_true_iff]
  exact waitCheck_iff (ackState_exact peers event timely time) hle check

/-- A Subscriber that has what was there before the call and owes nothing since. -/
def ackedInTime : Nat → AckEvent
  | 0 => .matched 1 1 1
  | 1 => .published 1
  | 2 => .acknack 1 1 2
  | _ => .idle

theorem wait_returns_ackedInTime :
    waitForAllAcked (ackState 1 ackedInTime) [2, 3] = some 1 := by
  have rests : ∀ t, ackState 1 ackedInTime (t + 3) = ackState 1 ackedInTime 3 := by
    intro t
    induction t with
    | zero => rfl
    | succ t ih => exact ih
  have timely : ∀ t, (ackState 1 ackedInTime t).Timely (ackedInTime t)
    | 0 => trivial
    | 1 => trivial
    | 2 => by simp [AckTable.Timely, ackState, ackedInTime, AckTable.step, AckTable.claimPeerAck,
        AckTable.create, AckTable.isMark, AckTable.claimMark]
    | _ + 3 => trivial
  have sound2 : CheckSound (ackState 1 ackedInTime 2) (ackState 1 ackedInTime 2).published :=
    ⟨by unfold AckTable.Near; decide, by decide, by decide⟩
  have sound3 : CheckSound (ackState 1 ackedInTime 3) (ackState 1 ackedInTime 2).published :=
    ⟨by unfold AckTable.Near; decide, by decide, by decide⟩
  rw [wait_returns_when_acknowledged 1 ackedInTime timely 2 [2, 3] (by decide)]
  · decide
  · intro k time htime _
    match k with
    | 0 =>
      cases htime
      exact sound2
    | 1 =>
      cases htime
      exact sound3
    | k + 2 => simp at htime

/-- A sample published between the acknowledgement and the check. -/
def publishedMeanwhile : Nat → AckEvent
  | 0 => .matched 1 1 1
  | 1 => .published 1
  | 2 => .acknack 1 1 2
  | 3 => .published 1
  | _ => .idle

/-- The Subscriber has acknowledged all that was published before the call at its second check, and
the call times out. -/
theorem waits_for_later :
    (∀ t, (ackState 1 publishedMeanwhile t).Timely (publishedMeanwhile t)) ∧
    firstAcknowledged (ackState 1 publishedMeanwhile) 2 [2, 4] = some 1 ∧
    waitForAllAcked (ackState 1 publishedMeanwhile) [2, 4] = none := by
  refine ⟨?_, by decide, by decide⟩
  intro t
  match t with
  | 0 => trivial
  | 1 => trivial
  | 2 =>
    simp [AckTable.Timely, ackState, publishedMeanwhile, AckTable.step, AckTable.claimPeerAck,
      AckTable.create, AckTable.isMark, AckTable.claimMark]
  | 3 => trivial
  | _ + 4 => trivial

/-! ## The table is the Publisher's -/

/-- The two views of one entry of `peer_acks[]`. -/
inductive SameEntry : Option AckMark → Option PeerAck → Prop where
  | free : SameEntry none none
  | taken {mark : AckMark} {ack : PeerAck} (context : mark.contextId = ack.contextId)
      (entity : mark.entityId = ack.entityId) (acked : mark.ackSeqNo = ack.ackSeqNo) :
      SameEntry (some mark) (some ack)

/-- The table has the Publisher's newest seq_no and its Subscribers' acknowledgements. -/
structure Describes (t : AckTable) (pub : Publisher) : Prop where
  seqNo : t.seqNo = pub.seqNo
  peers : List.Forall₂ SameEntry t.marks pub.peerAcks

theorem SameEntry.isMark {entry : Option AckMark} {peer : Option PeerAck} (h : SameEntry entry peer)
    (contextId entityId : Nat) :
    AckTable.isMark contextId entityId entry = Publisher.isPeer contextId entityId peer := by
  cases h with
  | free => rfl
  | taken context entity acked => simp [AckTable.isMark, Publisher.isPeer, context, entity]

section Entries

variable {marks : List (Option AckMark)} {acks : List (Option PeerAck)}
  (h : List.Forall₂ SameEntry marks acks)

include h

theorem any_isMark (contextId entityId : Nat) :
    marks.any (AckTable.isMark contextId entityId) =
      acks.any (Publisher.isPeer contextId entityId) := by
  induction h with
  | nil => rfl
  | cons head _ ih => rw [List.any_cons, List.any_cons, head.isMark, ih]

theorem claimMark_same {mark : AckMark} {ack : PeerAck} (hsame : SameEntry (some mark) (some ack)) :
    List.Forall₂ SameEntry (AckTable.claimMark mark marks) (Publisher.claimEntry ack acks) := by
  induction h with
  | nil => exact .nil
  | cons head rest ih =>
    cases head with
    | free => exact .cons hsame rest
    | taken context entity acked => exact .cons (.taken context entity acked) ih

theorem forget_same (contextId : Nat) (entityId : Option Nat) :
    List.Forall₂ SameEntry
      (marks.map fun entry => if entry.any fun mark => mark.contextId = contextId &&
        entityId.all (· = mark.entityId) then none else entry)
      (acks.map fun entry => if entry.any fun ack => ack.contextId = contextId &&
        entityId.all (· = ack.entityId) then none else entry) := by
  induction h with
  | nil => exact .nil
  | cons head _ ih =>
    refine .cons ?_ ih
    cases head with
    | free => exact .free
    | taken context entity acked =>
      simp only [Option.any_some, context, entity]
      split
      · exact .free
      · exact .taken context entity acked

theorem record_same (contextId entityId position : Nat) :
    List.Forall₂ SameEntry (marks.map (·.map (AckTable.recordAck contextId entityId position)))
      (acks.map (Publisher.advanceAck contextId entityId (wrapped position))) := by
  induction h with
  | nil => exact .nil
  | cons head _ ih =>
    refine .cons ?_ ih
    cases head with
    | free => exact .free
    | @taken mark ack context entity acked =>
      simp only [Publisher.advanceAck, Option.map_some, AckTable.recordAck, context, entity, acked]
      by_cases hkey : ack.contextId = contextId ∧ ack.entityId = entityId
      · by_cases hlt : seqDelta ack.ackSeqNo (wrapped position) < 0
        · simp only [hkey, hlt, and_self, if_true]
          exact .taken rfl rfl rfl
        · simp only [hkey, hlt, and_false, and_self, if_true, if_false]
          exact .taken hkey.1.symm hkey.2.symm rfl
      · have hneither : ¬ (ack.contextId = contextId ∧ ack.entityId = entityId ∧
            seqDelta ack.ackSeqNo (wrapped position) < 0) := fun h => hkey ⟨h.1, h.2.1⟩
        simp only [hkey, hneither, if_false]
        exact .taken context entity acked

end Entries

namespace Describes

variable {t : AckTable} {pub pub' : Publisher}

theorem published (h : Describes t pub) (hacks : pub'.peerAcks = pub.peerAcks) :
    Describes (t.step (.published (steps pub.seqNo pub'.seqNo))) pub' where
  seqNo := by
    calc (t.step (.published (steps pub.seqNo pub'.seqNo))).seqNo
        = plus t.seqNo (steps pub.seqNo pub'.seqNo) := BitVec.ofNat_add ..
      _ = pub'.seqNo := by rw [h.seqNo, plus_steps]
  peers := by
    rw [hacks]
    exact h.peers

theorem claimPeerAck (h : Describes t pub) (contextId entityId trackingWords : Nat) :
    Describes (t.step (.matched contextId entityId pub.unackedFrom.toNat))
      (pub.claimPeerAck contextId entityId trackingWords) := by
  simp only [AckTable.step, AckTable.claimPeerAck, Publisher.claimPeerAck,
    any_isMark h.peers contextId entityId]
  split
  · exact h
  · exact ⟨h.seqNo, claimMark_same h.peers (.taken rfl rfl (by simp [wrapped]))⟩

theorem recordPeerAck (h : Describes t pub) (contextId entityId : Nat) (seqNo : SeqNo) :
    Describes (t.step (.acknack contextId entityId seqNo.toNat))
      (pub.recordPeerAck contextId entityId seqNo) := by
  have hseq : wrapped seqNo.toNat = seqNo := by simp [wrapped]
  simp only [AckTable.step, AckTable.recordPeerAck, Publisher.recordPeerAck]
  split
  · exact h
  · refine ⟨h.seqNo, ?_⟩
    have := record_same h.peers contextId entityId seqNo.toNat
    rwa [hseq] at this

theorem of_frame (h : Describes t pub) (hseq : pub'.seqNo = pub.seqNo)
    (hacks : pub'.peerAcks = pub.peerAcks) : Describes t pub' :=
  ⟨h.seqNo.trans hseq.symm, by rw [hacks]; exact h.peers⟩

theorem processAcknack (h : Describes t pub) (contextId entityId : Nat) (seqNo : SeqNo)
    (bitmap : List (BitVec 64)) (claims : Bool) (repair : Repair) :
    ∃ events : List AckEvent, Describes (events.foldl AckTable.step t)
      (pub.processAcknack contextId entityId seqNo bitmap claims repair).1 := by
  have notified : ∀ {t : AckTable} {p : Publisher}, Describes t p →
      Describes t p.notifyWritableIfPending := by
    intro t p hp
    unfold Publisher.notifyWritableIfPending
    split
    · exact hp
    · exact hp.of_frame rfl rfl
  unfold Publisher.processAcknack
  split
  · exact ⟨[], h⟩
  · split
    · exact ⟨[], h⟩
    · dsimp only
      by_cases hclaims : claims = true ∧ entityId ≠ 0
      · refine ⟨[.matched contextId entityId pub.unackedFrom.toNat,
          .acknack contextId entityId seqNo.toNat], ?_⟩
        rw [if_pos hclaims]
        have done := notified ((h.claimPeerAck contextId entityId 0).recordPeerAck contextId entityId
          seqNo)
        split
        · exact done.of_frame rfl rfl
        · exact done
      · refine ⟨[.acknack contextId entityId seqNo.toNat], ?_⟩
        rw [if_neg hclaims]
        have done := notified (h.recordPeerAck contextId entityId seqNo)
        split
        · exact done.of_frame rfl rfl
        · exact done

theorem claim_peerAcks (node : Context) (pub : Publisher) (capacity : Nat) (granted : Option Nat) :
    (pub.claim node capacity granted).2.peerAcks = pub.peerAcks := by
  unfold Publisher.claim
  split
  · rfl
  split
  · rfl
  simp only
  split
  · rfl
  · cases granted <;> rfl

theorem publishClaimed_peerAcks (node : Context) (pub : Publisher) (payload : Nat)
    (cdr : List UInt8) (moved : Bool) (route : Route) :
    (pub.publishClaimed node payload cdr moved route).2.peerAcks = pub.peerAcks := by
  unfold Publisher.publishClaimed
  split
  · rfl
  split
  · rfl
  split
  · rfl
  split
  · exact Publisher.publish_frame.1
  · rfl

/-- Whatever happens to the Publisher happens to its table. -/
theorem step (h : Describes t pub) (node : Context) (event : Publisher.Event) :
    ∃ events : List AckEvent, Describes (events.foldl AckTable.step t) (pub.step node event) := by
  have moved : (pub.step node event).peerAcks = pub.peerAcks →
      ∃ events : List AckEvent, Describes (events.foldl AckTable.step t) (pub.step node event) :=
    fun hacks => ⟨[.published (steps pub.seqNo (pub.step node event).seqNo)], h.published hacks⟩
  cases event with
  | publish cdr route => exact moved Publisher.publish_frame.1
  | claim capacity granted => exact moved (claim_peerAcks ..)
  | publishClaimed payload cdr copied route => exact moved (publishClaimed_peerAcks ..)
  | abandonClaim payload =>
    apply moved
    simp only [Publisher.step, Publisher.abandonClaim]
    split <;> rfl
  | matched contextId entityId trackingWords =>
    exact ⟨[.matched contextId entityId pub.unackedFrom.toNat],
      h.claimPeerAck contextId entityId trackingWords⟩
  | unmatched contextId entityId =>
    exact ⟨[.unmatched contextId entityId], h.seqNo, forget_same h.peers contextId entityId⟩
  | acknack contextId entityId seqNo bitmap claims repair =>
    exact h.processAcknack contextId entityId seqNo bitmap claims repair

end Describes

end Tickle
