import Tickle.Pieces
import Tickle.Run
import Tickle.Writer.KeepAllRuns

/-! # Slots lent to the application

`tt_Publisher_claim()` lends a slot of the same-host Subscriber's ring, which the application fills and then
publishes or abandons. Every claim is given back once, by the Publisher or with the record that hands the
slot to the reader, and `claims_out` counts the ones that are out (`Sound`). An answer other than WOULD_BLOCK
spends the claim; WOULD_BLOCK keeps it, unless it comes from the publish of a copy (`keptOrSpent_iff`).
-/

namespace Tickle

open Pieces (write)

/-- Who has a slot: any writer, the Publisher that claimed it, or the reader it was handed to by a record
or a reference. -/
inductive SlotUse
  | free
  | held
  | handed
  deriving DecidableEq, Repr

/-- A slot of a ring and the room for a sample's CDR in it. -/
structure LentSlot where
  use : SlotUse
  bytes : List UInt8

/-- `struct tt_PublisherClaim`, its slot named by the payload it was lent as. `ticket` numbers the claims. -/
structure PublisherClaim where
  payload : Nat
  length : Nat
  contextId : Nat
  segment : Nat
  ticket : Nat
  deriving DecidableEq, Repr

/-- A Publisher that lends slots: `claims[]` and `claims_out`. `issued` and `givenBack` are the tickets of
the claims made and given back, `wrote` what the application has last written at a payload. -/
structure Lender where
  pub : Publisher
  publisherClaims : Nat
  claims : List (Option PublisherClaim)
  claimsOut : Nat
  slots : Nat → LentSlot
  issued : Nat
  givenBack : List Nat
  wrote : Nat → List UInt8

/-- What a claim meets: no ring that takes one, a full ring, or a slot of a peer's ring. -/
inductive ClaimTarget
  | unsupported
  | full
  | slot (payload contextId segment : Nat)
  deriving DecidableEq, Repr

/-- How a ring takes the publish of a claim: where it lies, by a reference, or not at all. -/
inductive Placed
  | inPlace
  | reference
  | full
  deriving DecidableEq, Repr

/-- What a publish of a claim meets: the one ring the publish would go to now, if it is one's slot
(`encode_in_slot_destination()` and `peer_segment()`), and whether the context has lost its id. -/
structure ClaimedCall where
  muted : Bool
  dest : Option (Nat × Nat)
  placed : Placed
  route : Route

namespace Lender

def create (opts : PublisherOptions) (size publisherClaims : Nat) (slots : Nat → LentSlot) : Lender where
  pub := .create opts
  publisherClaims := publisherClaims
  claims := List.replicate size none
  claimsOut := 0
  slots := slots
  issued := 0
  givenBack := []
  wrote := fun _ => []

/-- The claims that are out. -/
def out (l : Lender) : List PublisherClaim := l.claims.reduceOption

/-- `claim_of()`. -/
def claimOf (l : Lender) (payload : Nat) : Option (Nat × PublisherClaim) :=
  (l.claims.findIdx? fun entry => entry.any (·.payload = payload)).bind fun k =>
    (l.claims[k]?.join).map (k, ·)

def setUse (l : Lender) (payload : Nat) (use : SlotUse) : Nat → LentSlot :=
  Function.update l.slots payload { l.slots payload with use := use }

/-- The entry the walk over `claims[]` ends on: the first free one, or the last. -/
def freeEntry (l : Lender) : Nat := (l.claims.findIdx? Option.isNone).getD (l.claims.length - 1)

/-- `publisher_claim_locked()`. -/
def claim (l : Lender) (node : Context) (capacity : Nat) (target : ClaimTarget) : Ret × Lender :=
  if l.claimsOut ≥ l.publisherClaims then (.illegalStatus, l)
  else if !l.pub.keepAllWritable then (.wouldBlock, { l with pub := l.pub.refused })
  else
    let cdr := List.replicate capacity 0
    if capacity > node.maxSampleLength ∨ headerLength + recordLengthChecked cdr > node.fragWholeLimit ∨
        l.pub.keepAllRefusedRecordBytes node cdr node.fragWholeLimit ≠ 0 then (.unsupported, l)
    else
      match target with
      | .unsupported => (.unsupported, l)
      | .full => (.outOfBuffer, l)
      | .slot payload contextId segment =>
        if (l.slots payload).bytes.length < capacity then (.unsupported, l)
        else if (l.slots payload).use ≠ .free then (.outOfBuffer, l)
        else
          (.ok, { l with
            claims := l.claims.set l.freeEntry (some ⟨payload, capacity, contextId, segment, l.issued⟩)
            claimsOut := l.claimsOut + 1
            slots := l.setUse payload .held
            issued := l.issued + 1
            wrote := Function.update l.wrote payload (l.slots payload).bytes })

/-- `claim_release()`. -/
def claimRelease (l : Lender) (k : Nat) (claim : PublisherClaim) (referenced : Bool) : Lender :=
  { l with
    claims := l.claims.set k none
    claimsOut := l.claimsOut - 1
    slots := l.setUse claim.payload (if referenced then .handed else .free)
    givenBack := l.givenBack ++ [claim.ticket] }

/-- `publisher_publish_claimed_locked()`; `publish_claim_by_copy()` where the destination has changed. -/
def publishClaimedLocked (l : Lender) (node : Context) (payload length : Nat) (call : ClaimedCall) :
    Ret × Lender :=
  match l.claimOf payload with
  | none => (.illegalStatus, l)
  | some (k, claim) =>
    if length > claim.length then (.invalidArgument, l.claimRelease k claim false)
    else if !l.pub.keepAllWritable then (.wouldBlock, { l with pub := l.pub.refused })
    else
      let cdr := (l.slots payload).bytes.take length
      if call.dest ≠ some (claim.contextId, claim.segment) then
        let copied := l.pub.publish node cdr call.route
        (copied.1, { l with pub := copied.2 }.claimRelease k claim false)
      else
        let kept := l.pub.cached (l.pub.checkAndCacheSample node cdr node.fragWholeLimit call.route)
        (.ok, { l with pub := { kept with seqNo := l.pub.seqNo + 1 } }.claimRelease k claim
          (call.placed ≠ Placed.full))

/-- `publisher_abandon_claim_locked()`. -/
def abandonClaim (l : Lender) (payload : Nat) : Ret × Lender :=
  match l.claimOf payload with
  | none => (.illegalStatus, l)
  | some (k, claim) => (.ok, l.claimRelease k claim false)

/-- `tt_Publisher_publish_claimed()`. -/
def publishClaimed (l : Lender) (node : Context) (payload length : Nat) (call : ClaimedCall) : Ret × Lender :=
  if call.muted && (l.abandonClaim payload).1 = .ok then (.ioError, (l.abandonClaim payload).2)
  else l.publishClaimedLocked node payload length call

/-- `publisher_abandon_all_claims_locked()`, over the entries from `k` on. -/
def abandonFrom (l : Lender) (k : Nat) : Nat → Lender
  | 0 => l
  | left + 1 =>
    if l.claimsOut = 0 then l
    else
      match l.claims[k]?.join with
      | some claim => (l.abandonClaim claim.payload).2.abandonFrom (k + 1) left
      | none => l.abandonFrom (k + 1) left

def abandonAll (l : Lender) : Lender := l.abandonFrom 0 l.claims.length

end Lender

/-- What can happen to a Publisher and the slots it lends: its own calls, the application's writing, other
writers using slots that are free, and the reader giving back what it was handed. -/
inductive LendEvent
  | claim (capacity : Nat) (target : ClaimTarget)
  | fill (payload offset : Nat) (bytes : List UInt8)
  | publishClaimed (payload length : Nat) (call : ClaimedCall)
  | abandonClaim (payload : Nat)
  | abandonAll
  | writer (event : Publisher.Event)
  | reuse (payload : Nat) (bytes : List UInt8)
  | read (payload : Nat)

namespace Lender

/-- The application writes into a slot it has been lent, within what it asked for. -/
def fill (l : Lender) (payload offset : Nat) (bytes : List UInt8) : Lender :=
  match l.claimOf payload with
  | none => l
  | some (_, claim) =>
    if offset + bytes.length > claim.length then l
    else
      { l with
        slots := Function.update l.slots payload
          { l.slots payload with bytes := write (l.slots payload).bytes offset bytes }
        wrote := Function.update l.wrote payload (write (l.wrote payload) offset bytes) }

def step (node : Context) (l : Lender) : LendEvent → Lender
  | .claim capacity target => (l.claim node capacity target).2
  | .fill payload offset bytes => l.fill payload offset bytes
  | .publishClaimed payload length call => (l.publishClaimed node payload length call).2
  | .abandonClaim payload => (l.abandonClaim payload).2
  | .abandonAll => l.abandonAll
  | .writer event => { l with pub := l.pub.step node event }
  | .reuse payload bytes =>
    if (l.slots payload).use = .free ∧ bytes.length = (l.slots payload).bytes.length then
      { l with slots := Function.update l.slots payload ⟨.handed, bytes⟩ }
    else l
  | .read payload => if (l.slots payload).use = .handed then { l with slots := l.setUse payload .free } else l

/-! ## The entries of `claims[]` -/

variable {l : Lender} {node : Context} {payload length k : Nat} {c : PublisherClaim} {call : ClaimedCall}

theorem claimOf_eq_some (h : l.claimOf payload = some (k, c)) :
    l.claims[k]? = some (some c) ∧ c.payload = payload := by
  obtain ⟨i, found, at_i⟩ := Option.bind_eq_some_iff.mp h
  obtain ⟨claim, joined, same⟩ := Option.map_eq_some_iff.mp at_i
  cases same
  obtain ⟨below, holds, -⟩ := List.findIdx?_eq_some_iff_getElem.mp found
  have entry : l.claims[k]? = some (some c) := Option.join_eq_some_iff.mp joined
  rw [List.getElem?_eq_getElem below] at entry
  rw [Option.some.inj entry] at holds
  exact ⟨by rw [List.getElem?_eq_getElem below, entry], by simpa using holds⟩

theorem mem_out : c ∈ l.out ↔ some c ∈ l.claims := List.reduceOption_mem_iff

theorem claimOf_mem_out (h : l.claimOf payload = some (k, c)) : c ∈ l.out :=
  mem_out.mpr (List.mem_of_getElem? (claimOf_eq_some h).1)

theorem claimOf_of_mem (mem : c ∈ l.out) : ∃ k c', l.claimOf c.payload = some (k, c') := by
  cases found : l.claims.findIdx? fun entry => entry.any (·.payload = c.payload) with
  | none =>
    have none_at := List.findIdx?_eq_none_iff.mp found (some c) (mem_out.mp mem)
    simp at none_at
  | some i =>
    obtain ⟨below, holds, -⟩ := List.findIdx?_eq_some_iff_getElem.mp found
    cases entry : l.claims[i] with
    | none => simp [entry] at holds
    | some c' =>
      refine ⟨i, c', ?_⟩
      rw [claimOf, found, Option.bind_some, List.getElem?_eq_getElem below, entry]
      rfl

theorem claimOf_eq_none (h : ∀ c ∈ l.out, c.payload ≠ payload) : l.claimOf payload = none := by
  cases found : l.claimOf payload with
  | none => rfl
  | some place =>
    obtain ⟨k, c⟩ := place
    exact absurd (claimOf_eq_some found).2 (h c (claimOf_mem_out found))

/-- The claims out before an entry was emptied. -/
theorem out_release {claims : List (Option PublisherClaim)} (entry : claims[k]? = some (some c)) :
    claims.reduceOption.Perm (c :: (claims.set k none).reduceOption) := by
  obtain ⟨below, same⟩ := List.getElem?_eq_some_iff.mp entry
  obtain ⟨front, back, split, -, emptied⟩ : ∃ front back, claims = front ++ claims[k] :: back ∧
      front.length = k ∧ claims.set k none = front ++ none :: back := List.exists_of_set below
  rw [emptied, split, same, List.reduceOption_append, List.reduceOption_append,
    List.reduceOption_cons_of_some, List.reduceOption_cons_of_none]
  exact List.perm_middle

/-- The claims out after an entry was filled. -/
theorem out_claim {claims : List (Option PublisherClaim)} (entry : claims[k]? = some none) :
    (claims.set k (some c)).reduceOption.Perm (c :: claims.reduceOption) := by
  obtain ⟨below, same⟩ := List.getElem?_eq_some_iff.mp entry
  obtain ⟨front, back, split, -, filled⟩ : ∃ front back, claims = front ++ claims[k] :: back ∧
      front.length = k ∧ claims.set k (some c) = front ++ some c :: back := List.exists_of_set below
  rw [filled, split, same, List.reduceOption_append, List.reduceOption_append,
    List.reduceOption_cons_of_some, List.reduceOption_cons_of_none]
  exact List.perm_middle

/-- With fewer claims out than entries the walk ends on a free one. -/
theorem freeEntry_free (room : l.out.length < l.claims.length) : l.claims[l.freeEntry]? = some none := by
  unfold freeEntry
  cases found : l.claims.findIdx? Option.isNone with
  | some i =>
    obtain ⟨below, holds, -⟩ := List.findIdx?_eq_some_iff_getElem.mp found
    rw [Option.getD_some, List.getElem?_eq_getElem below, Option.isNone_iff_eq_none.mp holds]
  | none =>
    have all_some : ∀ entry ∈ l.claims, entry.isSome = true := by
      intro entry mem
      have taken := List.findIdx?_eq_none_iff.mp found entry mem
      cases entry with
      | none => simp at taken
      | some c => rfl
    have full : l.out.length = l.claims.length := by
      rw [out, List.reduceOption_length_eq, List.filter_eq_self.mpr all_some]
    omega

/-! ## What an answer leaves -/

/-- The destination has changed and KEEP_ALL has room for a sample but not for this one. -/
def RefusedCopy (l : Lender) (node : Context) (payload length : Nat) (call : ClaimedCall) : Prop :=
  ∃ k c, l.claimOf payload = some (k, c) ∧ call.muted = false ∧ length ≤ c.length ∧
    l.pub.keepAllWritable = true ∧ call.dest ≠ some (c.contextId, c.segment) ∧
    (l.pub.keepAllRefusesEncoded node ((l.slots payload).bytes.take length) node.fragWholeLimit).1 = true

theorem publish_wouldBlock_iff {pub : Publisher} {cdr : List UInt8}
    (writable : pub.keepAllWritable = true) (short : cdr.length ≤ node.maxSampleLength) (route : Route) :
    (pub.publish node cdr route).1 = .wouldBlock ↔
      (pub.keepAllRefusesEncoded node cdr node.fragWholeLimit).1 = true := by
  cases refused : (pub.keepAllRefusesEncoded node cdr node.fragWholeLimit).1 with
  | true =>
    simp only [Publisher.publish, writable, Bool.not_true, Bool.false_eq_true, if_false,
      if_neg (not_lt.mpr short), refused, if_true]
  | false =>
    have admitted : pub.admitted node cdr = true := by simp [Publisher.admitted, writable, short, refused]
    rw [Publisher.publish_of_admitted admitted]
    simp only [Bool.false_eq_true, iff_false]
    split <;> simp

theorem publish_supported (pub : Publisher) (node : Context) (cdr : List UInt8) (route : Route) :
    (pub.publish node cdr route).1 ≠ .unsupported := by
  unfold Publisher.publish
  split
  · simp
  · split
    · simp
    · simp only
      split
      · simp
      · split
        · simp
        · split <;> simp

theorem publishClaimed_of_none (found : l.claimOf payload = none) :
    l.publishClaimed node payload length call = (.illegalStatus, l) := by
  simp [publishClaimed, abandonClaim, publishClaimedLocked, found]

/-- What the publish of a claim comes to: the claim spent on an answer that says so, kept, or spent on
WOULD_BLOCK. -/
theorem publishClaimed_cases (found : l.claimOf payload = some (k, c)) (most : c.length ≤ node.maxSampleLength)
    (length : Nat) (call : ClaimedCall) :
    (∃ ret pub referenced, (ret ≠ .wouldBlock ∧ ret ≠ .unsupported ∧
        ¬ l.RefusedCopy node payload length call) ∧
      l.publishClaimed node payload length call = (ret, { l with pub := pub }.claimRelease k c referenced)) ∨
    (¬ l.RefusedCopy node payload length call ∧
      l.publishClaimed node payload length call = (.wouldBlock, { l with pub := l.pub.refused })) ∨
    (l.RefusedCopy node payload length call ∧ ∃ pub, l.publishClaimed node payload length call =
      (.wouldBlock, { l with pub := pub }.claimRelease k c false)) := by
  have only : ∀ {k' c'}, l.claimOf payload = some (k', c') → k' = k ∧ c' = c := by
    intro k' c' also
    rw [found] at also
    cases also
    exact ⟨rfl, rfl⟩
  unfold publishClaimed
  split
  · next muted =>
    simp only [Bool.and_eq_true] at muted
    refine .inl ⟨.ioError, l.pub, false, ⟨by simp, by simp, ?_⟩, by simp [abandonClaim, found]⟩
    rintro ⟨k', c', -, not_muted, -⟩
    rw [muted.1] at not_muted
    cases not_muted
  · next not_muted =>
    have not_muted : call.muted = false := by simpa [abandonClaim, found] using not_muted
    unfold publishClaimedLocked
    simp only [found]
    split
    · next long =>
      refine .inl ⟨.invalidArgument, l.pub, false, ⟨by simp, by simp, ?_⟩, rfl⟩
      rintro ⟨k', c', also, -, short, -⟩
      rw [(only also).2] at short
      omega
    · next short =>
      split
      · next full =>
        refine .inr (.inl ⟨?_, rfl⟩)
        rintro ⟨-, -, -, -, -, writable, -, -⟩
        rw [writable] at full
        cases full
      · next writable =>
        have writable : l.pub.keepAllWritable = true := by simpa using writable
        split
        · next moved =>
          have fits : ((l.slots payload).bytes.take length).length ≤ node.maxSampleLength := by
            rw [List.length_take]
            omega
          have blocks := publish_wouldBlock_iff writable fits call.route
          by_cases refused : (l.pub.keepAllRefusesEncoded node ((l.slots payload).bytes.take length)
              node.fragWholeLimit).1 = true
          · refine .inr (.inr ⟨⟨k, c, found, not_muted, by omega, writable, moved, refused⟩,
              (l.pub.publish node ((l.slots payload).bytes.take length) call.route).2, ?_⟩)
            rw [blocks.mpr refused]
          · refine .inl ⟨_, _, false, ⟨?_, publish_supported _ _ _ _, ?_⟩, rfl⟩
            · rwa [Ne, blocks]
            · rintro ⟨-, -, -, -, -, -, -, also⟩
              exact refused also
        · next same =>
          refine .inl ⟨.ok, _, _, ⟨by simp, by simp, ?_⟩, rfl⟩
          rintro ⟨k', c', also, -, -, -, moved, -⟩
          rw [(only also).2] at moved
          exact same moved

/-! ## What every run keeps -/

/-- The claims out are counted, each has a slot of its own with what was written there, and every claim
made is out or has been given back, once. -/
structure Sound (node : Context) (l : Lender) : Prop where
  room : l.publisherClaims ≤ l.claims.length
  counted : l.claimsOut = l.out.length
  apart : (l.out.map PublisherClaim.payload).Nodup
  held : ∀ c ∈ l.out, (l.slots c.payload).use = .held
  once : (l.out.map PublisherClaim.ticket ++ l.givenBack).Perm (List.range l.issued)
  intact : ∀ c ∈ l.out, (l.slots c.payload).bytes = l.wrote c.payload
  fits : ∀ c ∈ l.out, c.length ≤ node.maxSampleLength ∧ c.length ≤ (l.slots c.payload).bytes.length

theorem create_sound (opts : PublisherOptions) {size publisherClaims : Nat} (h : publisherClaims ≤ size)
    (slots : Nat → LentSlot) : (create opts size publisherClaims slots).Sound node := by
  have none_out : (create opts size publisherClaims slots).out = [] := by simp [out, create]
  refine ⟨by simpa [create] using h, by rw [none_out]; rfl, ?_, ?_, ?_, ?_, ?_⟩
  · simp [none_out]
  · simp [none_out]
  · rw [none_out]
    exact List.Perm.refl _
  · simp [none_out]
  · simp [none_out]

theorem setUse_bytes (payload other : Nat) (use : SlotUse) :
    (l.setUse payload use other).bytes = (l.slots other).bytes := by
  unfold setUse
  by_cases same : other = payload
  · rw [same, Function.update_self]
  · rw [Function.update_of_ne same]

theorem setUse_of_ne {other : Nat} (ne : other ≠ payload) (use : SlotUse) :
    l.setUse payload use other = l.slots other := Function.update_of_ne ne _ _

theorem Sound.ofPub (h : l.Sound node) (pub : Publisher) : Sound node { l with pub := pub } :=
  ⟨h.room, h.counted, h.apart, h.held, h.once, h.intact, h.fits⟩

theorem Sound.release (h : l.Sound node) (entry : l.claims[k]? = some (some c)) (referenced : Bool) :
    (l.claimRelease k c referenced).Sound node := by
  have split : l.out.Perm (c :: (l.claimRelease k c referenced).out) := out_release entry
  have apart := (split.map PublisherClaim.payload).nodup_iff.mp h.apart
  rw [List.map_cons, List.nodup_cons] at apart
  have still : ∀ c' ∈ (l.claimRelease k c referenced).out, c' ∈ l.out ∧ c'.payload ≠ c.payload := by
    intro c' mem
    refine ⟨split.symm.mem_iff.mp (List.mem_cons_of_mem c mem), ?_⟩
    intro same
    exact apart.1 (same ▸ List.mem_map_of_mem mem)
  refine ⟨?_, ?_, apart.2, ?_, ?_, ?_, ?_⟩
  · simpa [claimRelease] using h.room
  · have size := split.length_eq
    rw [List.length_cons, ← h.counted] at size
    simp only [claimRelease] at size ⊢
    omega
  · intro c' mem
    obtain ⟨before, ne⟩ := still c' mem
    simp only [claimRelease]
    rw [setUse_of_ne ne]
    exact h.held c' before
  · have tickets := (split.map PublisherClaim.ticket).append_right l.givenBack
    refine List.Perm.trans ?_ (tickets.symm.trans h.once)
    simp only [claimRelease, List.map_cons, List.cons_append]
    rw [← List.append_assoc]
    exact List.perm_append_singleton _ _
  · intro c' mem
    obtain ⟨before, -⟩ := still c' mem
    simp only [claimRelease]
    rw [setUse_bytes]
    exact h.intact c' before
  · intro c' mem
    obtain ⟨before, -⟩ := still c' mem
    simp only [claimRelease]
    rw [setUse_bytes]
    exact h.fits c' before

theorem Sound.spend (h : l.Sound node) (entry : l.claims[k]? = some (some c)) (pub : Publisher)
    (referenced : Bool) : ({ l with pub := pub }.claimRelease k c referenced).Sound node :=
  (h.ofPub pub).release entry referenced

theorem Sound.claim (h : l.Sound node) (capacity : Nat) (target : ClaimTarget) :
    (l.claim node capacity target).2.Sound node := by
  unfold Lender.claim
  split
  · exact h
  · next below =>
    split
    · exact h.ofPub _
    · simp only
      split
      · exact h
      · next fits =>
        cases target with
        | unsupported => exact h
        | full => exact h
        | slot payload contextId segment =>
          simp only
          split
          · exact h
          · next large =>
            split
            · exact h
            · next free =>
              have free : (l.slots payload).use = .free := by simpa using free
              have entry : l.claims[l.freeEntry]? = some none := by
                apply freeEntry_free
                have room := h.room
                have counted := h.counted
                omega
              generalize hc : (⟨payload, capacity, contextId, segment, l.issued⟩ : PublisherClaim) = c
              have perm : (l.claims.set l.freeEntry (some c)).reduceOption.Perm (c :: l.out) := out_claim entry
              have other : ∀ c' ∈ l.out, c'.payload ≠ payload := by
                intro c' mem same
                have held := h.held c' mem
                rw [same, free] at held
                cases held
              have cases_out : ∀ c' ∈ (l.claims.set l.freeEntry (some c)).reduceOption, c' = c ∨ c' ∈ l.out :=
                fun c' mem => List.mem_cons.mp (perm.mem_iff.mp mem)
              have payload_c : c.payload = payload := by rw [← hc]
              refine ⟨?_, ?_, ?_, ?_, ?_, ?_, ?_⟩
              · simpa using h.room
              · rw [out, perm.length_eq, List.length_cons, h.counted]
              · apply (perm.map PublisherClaim.payload).nodup_iff.mpr
                rw [List.map_cons, List.nodup_cons]
                refine ⟨?_, h.apart⟩
                intro mem
                obtain ⟨c', mem', same⟩ := List.mem_map.mp mem
                exact other c' mem' (same.trans payload_c)
              · intro c' mem
                simp only
                rcases cases_out c' mem with rfl | before
                · rw [payload_c, setUse, Function.update_self]
                · rw [setUse_of_ne (other c' before)]
                  exact h.held c' before
              · have tickets := (perm.map PublisherClaim.ticket).append_right l.givenBack
                refine tickets.trans ?_
                have last : c.ticket = l.issued := by rw [← hc]
                simp only [List.map_cons, List.cons_append, last, List.range_succ]
                exact (h.once.cons l.issued).trans (List.perm_append_singleton _ _).symm
              · intro c' mem
                simp only
                rw [setUse_bytes]
                rcases cases_out c' mem with rfl | before
                · rw [payload_c, Function.update_self]
                · rw [Function.update_of_ne (other c' before)]
                  exact h.intact c' before
              · intro c' mem
                simp only
                rw [setUse_bytes]
                rcases cases_out c' mem with rfl | before
                · simp only [gt_iff_lt, not_or, not_lt] at fits large
                  rw [payload_c, ← hc]
                  exact ⟨fits.1, large⟩
                · exact h.fits c' before

theorem Sound.abandonClaim (h : l.Sound node) (payload : Nat) : (l.abandonClaim payload).2.Sound node := by
  unfold Lender.abandonClaim
  split
  · exact h
  · next found => exact h.release (claimOf_eq_some found).1 false

theorem Sound.publishClaimed (h : l.Sound node) (payload length : Nat) (call : ClaimedCall) :
    (l.publishClaimed node payload length call).2.Sound node := by
  cases found : l.claimOf payload with
  | none =>
    rw [publishClaimed_of_none found]
    exact h
  | some place =>
    obtain ⟨k, c⟩ := place
    have entry := (claimOf_eq_some found).1
    obtain ⟨ret, pub, referenced, -, same⟩ | ⟨-, same⟩ | ⟨-, pub, same⟩ :=
      publishClaimed_cases found (h.fits c (claimOf_mem_out found)).1 length call
    · rw [same]
      exact h.spend entry pub referenced
    · rw [same]
      exact h.ofPub _
    · rw [same]
      exact h.spend entry pub false

theorem Sound.abandonFrom (h : l.Sound node) (left : Nat) : (l.abandonFrom k left).Sound node := by
  induction left generalizing l k with
  | zero => exact h
  | succ left ih =>
    unfold Lender.abandonFrom
    split
    · exact h
    · split
      · exact ih (h.abandonClaim _)
      · exact ih h

theorem Sound.fill (h : l.Sound node) (payload offset : Nat) (bytes : List UInt8) :
    (l.fill payload offset bytes).Sound node := by
  unfold Lender.fill
  split
  · exact h
  · next k claim found =>
    obtain ⟨-, same⟩ := claimOf_eq_some found
    have mem := claimOf_mem_out found
    split
    · exact h
    · next within =>
      have fits := (h.fits claim mem).2
      rw [same] at fits
      have size : (write (l.slots payload).bytes offset bytes).length = (l.slots payload).bytes.length :=
        Pieces.write_length (by omega)
      refine ⟨h.room, h.counted, h.apart, ?_, h.once, ?_, ?_⟩
      · intro c mem
        by_cases here : c.payload = payload
        · simp only [here, Function.update_self]
          exact here ▸ h.held c mem
        · simp only [Function.update_of_ne here]
          exact h.held c mem
      · intro c mem
        by_cases here : c.payload = payload
        · simp only [here, Function.update_self]
          rw [← here, h.intact c mem]
        · simp only [Function.update_of_ne here]
          exact h.intact c mem
      · intro c mem
        by_cases here : c.payload = payload
        · simp only [here, Function.update_self, size]
          exact here ▸ h.fits c mem
        · simp only [Function.update_of_ne here]
          exact h.fits c mem

/-- A slot that nobody has claimed is used for something else. -/
theorem Sound.other (h : l.Sound node) (free : (l.slots payload).use ≠ .held) (slot : LentSlot) :
    Sound node { l with slots := Function.update l.slots payload slot } := by
  have spared : ∀ c ∈ l.out, Function.update l.slots payload slot c.payload = l.slots c.payload := by
    intro c mem
    apply Function.update_of_ne
    intro same
    exact free (same ▸ h.held c mem)
  refine ⟨h.room, h.counted, h.apart, ?_, h.once, ?_, ?_⟩
  · intro c mem
    simp only [spared c mem]
    exact h.held c mem
  · intro c mem
    simp only [spared c mem]
    exact h.intact c mem
  · intro c mem
    simp only [spared c mem]
    exact h.fits c mem

theorem Sound.step (h : l.Sound node) (event : LendEvent) : (l.step node event).Sound node := by
  cases event with
  | claim capacity target => exact h.claim capacity target
  | fill payload offset bytes => exact h.fill payload offset bytes
  | publishClaimed payload length call => exact h.publishClaimed payload length call
  | abandonClaim payload => exact h.abandonClaim payload
  | abandonAll => exact h.abandonFrom _
  | writer event => exact h.ofPub _
  | reuse payload bytes =>
    simp only [Lender.step]
    split
    · next free => exact h.other (by simp [free.1]) _
    · exact h
  | read payload =>
    simp only [Lender.step]
    split
    · next handed => exact h.other (by simp [handed]) _
    · exact h

/-! ## Kept or spent -/

/-- The answer about a claimed payload: WOULD_BLOCK leaves the claim and what is in its slot, every other
answer gives it back. -/
def KeptOrSpent (l : Lender) (payload : Nat) (answer : Ret × Lender) : Prop :=
  ∀ k c, l.claimOf payload = some (k, c) →
    (answer.1 = .wouldBlock → answer.2.claims = l.claims ∧ answer.2.claimsOut = l.claimsOut ∧
      answer.2.slots = l.slots ∧ answer.2.givenBack = l.givenBack) ∧
    (answer.1 ≠ .wouldBlock → answer.2.claimOf payload = none ∧ answer.2.givenBack = l.givenBack ++ [c.ticket])

theorem release_spent (h : l.Sound node) (found : l.claimOf payload = some (k, c)) (referenced : Bool) :
    (l.claimRelease k c referenced).claimOf payload = none := by
  obtain ⟨entry, same⟩ := claimOf_eq_some found
  have split : l.out.Perm (c :: (l.claimRelease k c referenced).out) := out_release entry
  have apart := (split.map PublisherClaim.payload).nodup_iff.mp h.apart
  rw [List.map_cons, List.nodup_cons] at apart
  apply claimOf_eq_none
  intro c' mem same'
  exact apart.1 (same.trans same'.symm ▸ List.mem_map_of_mem mem)

/-- The exact condition: the copy of a claim is not refused for room. -/
theorem keptOrSpent_iff (h : l.Sound node) (payload length : Nat) (call : ClaimedCall) :
    l.KeptOrSpent payload (l.publishClaimed node payload length call) ↔
      ¬ l.RefusedCopy node payload length call := by
  cases found : l.claimOf payload with
  | none =>
    constructor
    · rintro - ⟨k, c, also, -⟩
      rw [found] at also
      cases also
    · intro _ k c also
      rw [found] at also
      cases also
  | some place =>
    obtain ⟨k, c⟩ := place
    have entry := (claimOf_eq_some found).1
    have only : ∀ {k' c'}, l.claimOf payload = some (k', c') → c' = c := by
      intro k' c' also
      rw [found] at also
      cases also
      rfl
    obtain ⟨ret, pub, referenced, ⟨other, -, not_refused⟩, same⟩ | ⟨not_refused, same⟩ | ⟨refused, pub, same⟩ :=
      publishClaimed_cases found (h.fits c (claimOf_mem_out found)).1 length call
    · refine ⟨fun _ => not_refused, ?_⟩
      intro _ k' c' also
      rw [same, only also]
      refine ⟨fun blocked => absurd blocked other, fun _ => ⟨?_, rfl⟩⟩
      exact release_spent (h.ofPub pub) found referenced
    · refine ⟨fun _ => not_refused, ?_⟩
      intro _ k' c' _
      rw [same]
      exact ⟨fun _ => ⟨rfl, rfl, rfl, rfl⟩, fun other => absurd rfl other⟩
    · constructor
      · intro kept
        have claims := ((kept k c found).1 (by rw [same])).1
        rw [same] at claims
        have gone : l.claims[k]? = some none := by
          rw [← claims]
          exact List.getElem?_set_self (List.getElem?_eq_some_iff.mp entry).1
        rw [entry] at gone
        cases gone
      · exact fun not_refused => absurd refused not_refused

/-! ## A loan published by copy -/

/-- The event leaves the claim at `payload` to its holder. -/
def Spares (payload : Nat) : LendEvent → Prop
  | .fill other _ _ => other ≠ payload
  | .publishClaimed other _ _ => other ≠ payload
  | .abandonClaim other => other ≠ payload
  | .abandonAll => False
  | _ => True

theorem mem_out_release {k' : Nat} {c' : PublisherClaim} (mem : c ∈ l.out)
    (entry : l.claims[k']? = some (some c')) (other : c' ≠ c) (referenced : Bool) :
    c ∈ (l.claimRelease k' c' referenced).out := by
  have split : l.out.Perm (c' :: (l.claimRelease k' c' referenced).out) := out_release entry
  exact (List.mem_cons.mp (split.mem_iff.mp mem)).resolve_left (Ne.symm other)

/-- Everybody else leaves the claim out, and what was written there as it is. -/
theorem Sound.spared (h : l.Sound node) (mem : c ∈ l.out) {event : LendEvent} (spares : Spares c.payload event) :
    c ∈ (l.step node event).out ∧ (l.step node event).wrote c.payload = l.wrote c.payload := by
  have held := h.held c mem
  cases event with
  | claim capacity target =>
    simp only [Lender.step, Lender.claim]
    split
    · exact ⟨mem, rfl⟩
    · next below =>
      split
      · exact ⟨mem, rfl⟩
      · split
        · exact ⟨mem, rfl⟩
        · cases target with
          | unsupported => exact ⟨mem, rfl⟩
          | full => exact ⟨mem, rfl⟩
          | slot payload contextId segment =>
            simp only
            split
            · exact ⟨mem, rfl⟩
            · split
              · exact ⟨mem, rfl⟩
              · next free =>
                have entry : l.claims[l.freeEntry]? = some none := by
                  apply freeEntry_free
                  have room := h.room
                  have counted := h.counted
                  omega
                refine ⟨(out_claim entry).mem_iff.mpr (List.mem_cons_of_mem _ mem), ?_⟩
                apply Function.update_of_ne
                rintro rfl
                rw [held] at free
                simp at free
  | fill payload offset bytes =>
    simp only [Lender.step, Lender.fill]
    split
    · exact ⟨mem, rfl⟩
    · split
      · exact ⟨mem, rfl⟩
      · exact ⟨mem, Function.update_of_ne (Ne.symm spares) _ _⟩
  | publishClaimed payload length call =>
    simp only [Lender.step]
    cases found : l.claimOf payload with
    | none =>
      rw [publishClaimed_of_none found]
      exact ⟨mem, rfl⟩
    | some place =>
      obtain ⟨k, c'⟩ := place
      obtain ⟨entry, same⟩ := claimOf_eq_some found
      have other : c' ≠ c := by
        rintro rfl
        exact spares same.symm
      obtain ⟨ret, pub, referenced, -, result⟩ | ⟨-, result⟩ | ⟨-, pub, result⟩ :=
        publishClaimed_cases found (h.fits c' (claimOf_mem_out found)).1 length call
      · rw [result]
        exact ⟨mem_out_release mem entry other referenced, rfl⟩
      · rw [result]
        exact ⟨mem, rfl⟩
      · rw [result]
        exact ⟨mem_out_release mem entry other false, rfl⟩
  | abandonClaim payload =>
    simp only [Lender.step, Lender.abandonClaim]
    split
    · exact ⟨mem, rfl⟩
    · next k c' found =>
      obtain ⟨entry, same⟩ := claimOf_eq_some found
      have other : c' ≠ c := by
        rintro rfl
        exact spares same.symm
      exact ⟨mem_out_release mem entry other false, rfl⟩
  | abandonAll => exact spares.elim
  | writer event => exact ⟨mem, rfl⟩
  | reuse payload bytes =>
    simp only [Lender.step]
    split
    · exact ⟨mem, rfl⟩
    · exact ⟨mem, rfl⟩
  | read payload =>
    simp only [Lender.step]
    split
    · exact ⟨mem, rfl⟩
    · exact ⟨mem, rfl⟩

theorem Sound.spared_run (h : l.Sound node) (mem : c ∈ l.out) {events : List LendEvent}
    (spares : ∀ event ∈ events, Spares c.payload event) :
    (Run.after (Lender.step node) l events).Sound node ∧ c ∈ (Run.after (Lender.step node) l events).out ∧
      (Run.after (Lender.step node) l events).wrote c.payload = l.wrote c.payload := by
  induction events generalizing l with
  | nil => exact ⟨h, mem, rfl⟩
  | cons event rest ih =>
    obtain ⟨still, same⟩ := h.spared mem (spares event (List.mem_cons_self ..))
    obtain ⟨sound, out, wrote⟩ := ih (h.step event) still fun e later => spares e (List.mem_cons_of_mem _ later)
    exact ⟨sound, out, wrote.trans same⟩

/-- `RMW_TICKLE_PSN_SHORT_BYTES`. -/
def psnShortBytes : Nat := 4

/-- `publish_slot_loan()`: the message copied out of the slot when it was not published there, and the
Publisher after it. `psn` is the publication's number where its short form does, `meanwhile` what happens while
`rmw_publish()` waits for room. -/
def publishSlotLoan (l : Lender) (node : Context) (payload inplaceBytes : Nat) (psn : Option (List UInt8))
    (call : ClaimedCall) (meanwhile : List LendEvent) : Option (List UInt8) × Lender :=
  let tried := match psn with
    | some psn => (l.fill payload 0 psn).publishClaimed node payload (psnShortBytes + inplaceBytes) call
    | none => (.unsupported, l)
  if tried.1 = .unsupported ∨ tried.1 = .wouldBlock then
    let waited := Run.after (step node) tried.2 meanwhile
    (some (((waited.slots payload).bytes.drop psnShortBytes).take inplaceBytes), (waited.abandonClaim payload).2)
  else (none, tried.2)

theorem fill_claimOf (payload offset other : Nat) (bytes : List UInt8) :
    (l.fill payload offset bytes).claimOf other = l.claimOf other := by
  unfold fill
  split
  · rfl
  · split
    · rfl
    · rfl

theorem fill_wrote_drop (payload : Nat) (bytes : List UInt8) :
    ((l.fill payload 0 bytes).wrote payload).drop bytes.length = (l.wrote payload).drop bytes.length := by
  unfold fill
  split
  · rfl
  · split
    · rfl
    · simp only [Function.update_self, write, List.take_zero, List.nil_append, Nat.zero_add]
      exact List.drop_left

/-- What is copied from a slot the claim of which is out is what was written there, and the loan is spent. -/
theorem Sound.copied (h : l.Sound node) (mem : c ∈ l.out) {meanwhile : List LendEvent}
    (spares : ∀ event ∈ meanwhile, Spares c.payload event) :
    ((Run.after (Lender.step node) l meanwhile).slots c.payload).bytes = l.wrote c.payload ∧
      ((Run.after (Lender.step node) l meanwhile).abandonClaim c.payload).2.claimOf c.payload = none := by
  obtain ⟨sound, out, wrote⟩ := h.spared_run mem spares
  refine ⟨(sound.intact c out).trans wrote, ?_⟩
  obtain ⟨k, c', found⟩ := claimOf_of_mem out
  simp only [Lender.abandonClaim, found]
  exact release_spent sound found false

/-- The loan is spent, and what is copied of it is the message. -/
theorem Sound.publishSlotLoan (h : l.Sound node) (found : l.claimOf payload = some (k, c))
    {psn : Option (List UInt8)} (short : ∀ bytes ∈ psn, bytes.length = psnShortBytes) (inplaceBytes : Nat)
    (room : ∀ bytes ∈ psn,
      ¬ (l.fill payload 0 bytes).RefusedCopy node payload (psnShortBytes + inplaceBytes) call)
    {meanwhile : List LendEvent} (spares : ∀ event ∈ meanwhile, Spares payload event) :
    (l.publishSlotLoan node payload inplaceBytes psn call meanwhile).2.claimOf payload = none ∧
      ∀ copy ∈ (l.publishSlotLoan node payload inplaceBytes psn call meanwhile).1,
        copy = ((l.wrote payload).drop psnShortBytes).take inplaceBytes := by
  obtain ⟨-, rfl⟩ := claimOf_eq_some found
  have mem := claimOf_mem_out found
  cases psn with
  | none =>
    obtain ⟨bytes, spent⟩ := h.copied mem spares
    simp only [Lender.publishSlotLoan, true_or, if_true, Option.mem_def, Option.some.injEq]
    refine ⟨spent, ?_⟩
    rintro copy rfl
    rw [bytes]
  | some psn =>
    have size := short psn rfl
    have filled : (l.fill c.payload 0 psn).Sound node := h.fill _ _ _
    have found' : (l.fill c.payload 0 psn).claimOf c.payload = some (k, c) := by
      rw [fill_claimOf]
      exact found
    have message := fill_wrote_drop (l := l) c.payload psn
    rw [size] at message
    simp only [Lender.publishSlotLoan]
    obtain ⟨ret, pub, referenced, ⟨not_blocked, supported, -⟩, same⟩ | ⟨-, same⟩ | ⟨refused, -⟩ :=
      publishClaimed_cases found' (h.fits c mem).1 (psnShortBytes + inplaceBytes) call
    · rw [same]
      simp only [not_blocked, supported, or_self, if_false, Option.mem_def, reduceCtorEq, false_implies,
        implies_true, and_true]
      exact release_spent (filled.ofPub pub) found' referenced
    · rw [same]
      have kept := filled.ofPub (l.fill c.payload 0 psn).pub.refused
      obtain ⟨bytes, spent⟩ := kept.copied (claimOf_mem_out found') spares
      simp only [or_true, if_true, Option.mem_def, Option.some.injEq]
      refine ⟨spent, ?_⟩
      rintro copy rfl
      rw [bytes, message]
    · exact absurd refused (room psn rfl)

/-- A destroyed Publisher has no claim out. -/
theorem Sound.abandonFrom_out (h : l.Sound node) (left : Nat) (all : k + left = l.claims.length)
    (before : ∀ i < k, l.claims[i]? = some none) : (l.abandonFrom k left).out = [] := by
  induction left generalizing l k with
  | zero =>
    apply List.eq_nil_iff_forall_not_mem.mpr
    intro c mem
    obtain ⟨i, entry⟩ := List.mem_iff_getElem?.mp (mem_out.mp mem)
    have below := (List.getElem?_eq_some_iff.mp entry).1
    rw [Lender.abandonFrom] at entry below
    rw [before i (by omega)] at entry
    cases entry
  | succ left ih =>
    unfold Lender.abandonFrom
    split
    · next none_out =>
      rw [h.counted] at none_out
      exact List.length_eq_zero_iff.mp none_out
    · split
      · next c joined =>
        have entry : l.claims[k]? = some (some c) := Option.join_eq_some_iff.mp joined
        obtain ⟨k', c', found⟩ := claimOf_of_mem (mem_out.mpr (List.mem_of_getElem? entry))
        -- the entries before this one are empty, so that it is the one found
        have same : k' = k := by
          obtain ⟨i, first, at_i⟩ := Option.bind_eq_some_iff.mp found
          obtain ⟨claim, -, pair⟩ := Option.map_eq_some_iff.mp at_i
          cases pair
          obtain ⟨below, -, least⟩ := List.findIdx?_eq_some_iff_getElem.mp first
          obtain ⟨below_k, entry_k⟩ := List.getElem?_eq_some_iff.mp entry
          by_contra other
          rcases Nat.lt_or_gt_of_ne other with earlier | later
          · have taken := (claimOf_eq_some found).1
            rw [before k' earlier] at taken
            cases taken
          · have not_k := least k later
            simp [entry_k] at not_k
        subst same
        simp only [Lender.abandonClaim, found]
        apply ih (h.release (claimOf_eq_some found).1 false)
        · simpa [claimRelease] using by omega
        · intro i below
          simp only [claimRelease]
          rw [List.getElem?_set]
          split
          · rw [if_pos (by omega)]
          · exact before i (by omega)
      · next joined =>
        apply ih h (by omega)
        intro i below
        by_cases last : i = k
        · subst last
          have inside : i < l.claims.length := by omega
          rw [List.getElem?_eq_getElem inside] at joined ⊢
          rw [Option.join_some] at joined
          rw [joined]
        · exact before i (by omega)

theorem Sound.abandonAll_out (h : l.Sound node) : l.abandonAll.out = [] :=
  h.abandonFrom_out l.claims.length (Nat.zero_add _) fun _ below => absurd below (Nat.not_lt_zero _)

/-- In every state of every run the claims out are counted and held with what was written, every claim made
is out or was given back once, and a publish answers as it leaves the claim exactly when its copy is not
refused for room. -/
theorem reached_keptOrSpent (opts : PublisherOptions) {size publisherClaims : Nat} (h : publisherClaims ≤ size)
    (slots : Nat → LentSlot) (events : List LendEvent) {l : Lender}
    (reached : l = Run.after (step node) (create opts size publisherClaims slots) events) :
    l.claimsOut = l.out.length ∧
    (l.out.map PublisherClaim.ticket ++ l.givenBack).Perm (List.range l.issued) ∧
    (∀ c ∈ l.out, (l.slots c.payload).use = .held ∧ (l.slots c.payload).bytes = l.wrote c.payload) ∧
    l.abandonAll.out = [] ∧
    (∀ payload length call, l.KeptOrSpent payload (l.publishClaimed node payload length call) ↔
      ¬ l.RefusedCopy node payload length call) ∧
    ∀ payload k c, l.claimOf payload = some (k, c) →
      ∀ inplaceBytes (psn : Option (List UInt8)) call meanwhile,
        (∀ bytes ∈ psn, bytes.length = psnShortBytes ∧
          ¬ (l.fill payload 0 bytes).RefusedCopy node payload (psnShortBytes + inplaceBytes) call) →
        (∀ event ∈ meanwhile, Spares payload event) →
        (l.publishSlotLoan node payload inplaceBytes psn call meanwhile).2.claimOf payload = none ∧
          ∀ copy ∈ (l.publishSlotLoan node payload inplaceBytes psn call meanwhile).1,
            copy = ((l.wrote payload).drop psnShortBytes).take inplaceBytes := by
  have sound : l.Sound node := by
    rw [reached]
    exact Run.always (fun _ event sound => sound.step event) (create_sound opts h slots) events
  refine ⟨sound.counted, sound.once, fun c mem => ⟨sound.held c mem, sound.intact c mem⟩, sound.abandonAll_out,
    fun payload length call => keptOrSpent_iff sound payload length call, ?_⟩
  intro payload k c found inplaceBytes psn call meanwhile short spares
  exact sound.publishSlotLoan found (fun bytes mem => (short bytes mem).1) inplaceBytes
    (fun bytes mem => (short bytes mem).2) spares

/-- One Subscriber; a slot of 40 bytes claimed and filled, and 40 bytes published beside it. -/
def lentBeside : List LendEvent :=
  [.writer (.matched 7 9 0), .claim 40 (.slot 1 7 0), .fill 1 0 (List.replicate 40 5),
    .writer (.publish (List.replicate 40 0) Publisher.plainRoute)]

/-- A Publisher of an arena of `arenaSize` bytes, of which the rings' slots are of 64. -/
def lendingFrom (arenaSize : Nat) : Lender :=
  create (Publisher.keepAllHistory arenaSize) 4 4 fun _ => ⟨.free, List.replicate 64 0⟩

/-- With room for both samples the claim is published from a copy and spent. -/
theorem reached_keptOrSpent_copied :
    (Run.after (step Publisher.smallLink) (lendingFrom 200) lentBeside).KeptOrSpent 1
      ((Run.after (step Publisher.smallLink) (lendingFrom 200) lentBeside).publishClaimed Publisher.smallLink 1 40
        ⟨false, none, .full, Publisher.plainRoute⟩) := by
  refine ((reached_keptOrSpent (Publisher.keepAllHistory 200) (by decide) _ lentBeside rfl).2.2.2.2.1 1 40 _).mpr ?_
  rintro ⟨k, c, -, -, -, -, -, refused⟩
  revert refused
  decide +kernel

/-- The destination has changed and KEEP_ALL has no room for the copy: WOULD_BLOCK, and the claim is gone. -/
theorem copied_claim_lost :
    ((Run.after (step Publisher.smallLink) (lendingFrom 100) lentBeside).claimOf 1).isSome = true ∧
    ((Run.after (step Publisher.smallLink) (lendingFrom 100) lentBeside).publishClaimed Publisher.smallLink 1 40
      ⟨false, none, .full, Publisher.plainRoute⟩).1 = .wouldBlock ∧
    ((Run.after (step Publisher.smallLink) (lendingFrom 100) lentBeside).publishClaimed Publisher.smallLink 1 40
      ⟨false, none, .full, Publisher.plainRoute⟩).2.claimOf 1 = none ∧
    (((Run.after (step Publisher.smallLink) (lendingFrom 100) lentBeside).publishClaimed Publisher.smallLink 1 40
      ⟨false, none, .full, Publisher.plainRoute⟩).2.slots 1).use = .free := by
  decide +kernel

end Lender

end Tickle
