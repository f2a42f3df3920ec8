import Tickle.Reader.Settled

/-! # A DATA at the ring

A Subscriber stays in order (`Sorted`) through every DATA that keeps what a drain relies on: the walk, one window long,
meets everything held up to where the watermark goes, and the DATA does not come late while a sample is half there, or
under a seq_no that a fragment claims.
-/

namespace Tickle

namespace Reader

open Bits Serial Subscriber

variable {but : Writer → Prop} {sub sub' : Subscriber} {writer other : Writer} {proxy proxy' : TrackedWriter}
  {held ctx : Datagram} {index span : Nat} {seqNo s : SeqNo} {track' : WriterProxy} {w w' : Nat} {r r' : Finset Nat}

/-! ## The watermark moves -/

theorem Watched.bit_iff {track : WriterProxy} (watched : Watched track w r) (j : Nat) :
    bit track.receivedBitmap j = true ↔ j < track.windowBits ∧ w + j ∈ r := by
  rw [watched.tracks.bits, windowBits_eq]

/-- What is held stays recorded when the watermark moves on. -/
theorem Ahead.moved {far far' : Nat} {ring : Nat → Option Datagram} (ahead : Ahead far ring proxy)
    (watched : Watched proxy.track w r) (watched' : Watched track' w' r') (words : track'.words = proxy.track.words)
    (le : w ≤ w') (kept : ∀ p ∈ r, p ∈ r') (fits : far + (w' - w) ≤ 2 ^ 32)
    (near : steps proxy.reorderCursor track'.ackSeqNo < far') : Ahead far' ring { proxy with track := track' } := by
  have lag := ahead.lag
  have moved := watched.moved watched' le (by omega)
  have total : steps proxy.reorderCursor track'.ackSeqNo = steps proxy.reorderCursor proxy.track.ackSeqNo + (w' - w) := by
    have := steps_trans (show steps proxy.reorderCursor proxy.track.ackSeqNo +
      steps proxy.track.ackSeqNo track'.ackSeqNo < 2 ^ 32 by omega)
    omega
  have window : track'.windowBits = proxy.track.windowBits := by rw [windowBits_eq, windowBits_eq, words]
  refine ⟨?_, ?_, ?_⟩
  · exact near
  · intro i held here own
    have := ahead.ahead i held here own
    change steps proxy.reorderCursor held.seqNo < steps proxy.reorderCursor track'.ackSeqNo + track'.windowBits
    omega
  · intro i held here own past
    change steps proxy.reorderCursor track'.ackSeqNo ≤ steps proxy.reorderCursor held.seqNo at past
    change bit track'.receivedBitmap (steps track'.ackSeqNo held.seqNo) = true
    have set := ahead.recorded i held here own (by omega)
    have old := steps_split (show steps proxy.reorderCursor proxy.track.ackSeqNo ≤
      steps proxy.reorderCursor held.seqNo by omega)
    have new := steps_split past
    have inside := ahead.ahead i held here own
    obtain ⟨_, member⟩ := (watched.bit_iff _).mp set
    rw [watched'.bit_iff]
    refine ⟨by omega, ?_⟩
    have same : w' + steps track'.ackSeqNo held.seqNo = w + steps proxy.track.ackSeqNo held.seqNo := by omega
    rw [same]
    exact kept _ member

/-- A watermark moved: the writer is being dealt with. -/
theorem Sorted.moved {new : TrackedWriter} (h : Sorted nobody sub) (found : sub.findWriterProxy writer = some proxy)
    (place : new = { proxy with track := track' }) (sets : Sets sub writer new sub') (watched : Watched proxy.track w r)
    (watched' : Watched track' w' r') (words : track'.words = proxy.track.words) (le : w ≤ w')
    (fits : farthest + (w' - w) ≤ 2 ^ 32)
    (near : ∀ fast, sub.fast = some fast → fast.writer = writer → steps fast.seqNo track'.ackSeqNo < 2 ^ 31) :
    Sorted (· = writer) sub' := by
  subst place
  unfold farthest at fits
  have moved := watched.moved watched' le (by omega)
  have placed := h.placed writer proxy found
  apply h.sets sets (fun _ _ => False.elim)
  · exact ⟨words.trans (h.watched writer proxy found).1, w', r', watched'⟩
  · exact ⟨placed.base, placed.place, placed.reach⟩
  · intro no
    exact absurd rfl no
  · intro fast here own
    obtain ⟨p, scratch, bound⟩ := h.scratch fast here
    have found' := scratch.found
    rw [own, found] at found'
    cases found'
    have bound := bound id
    have far := placed_window (lt_of_lt_of_le scratch.open_ scratch.few) h.tracking.2
    have behind := scratch.behind
    have total : steps fast.seqNo track'.ackSeqNo = steps fast.seqNo proxy.track.ackSeqNo + (w' - w) := by
      unfold farthest at far
      have := steps_trans (show steps fast.seqNo proxy.track.ackSeqNo +
        steps proxy.track.ackSeqNo track'.ackSeqNo < 2 ^ 32 by omega)
      omega
    unfold farthest at far
    refine ⟨?_, ?_, fun no => absurd rfl no⟩
    · change fast.placed ≤ steps fast.seqNo track'.ackSeqNo
      omega
    · exact near fast here own

/-- A watermark that stays: nothing to drain. -/
theorem Sorted.stays {new : TrackedWriter} (h : Sorted nobody sub) (found : sub.findWriterProxy writer = some proxy)
    (place : new = { proxy with track := track' }) (sets : Sets sub writer new sub') (watched : Watched proxy.track w r)
    (watched' : Watched track' w r') (words : track'.words = proxy.track.words) (kept : ∀ p ∈ r, p ∈ r') :
    Sorted nobody sub' := by
  subst place
  have ack : track'.ackSeqNo = proxy.track.ackSeqNo := by rw [watched.tracks.ack, watched'.tracks.ack]
  have placed := h.placed writer proxy found
  apply h.sets sets (fun _ _ => id)
  · exact ⟨words.trans (h.watched writer proxy found).1, w, r', watched'⟩
  · exact ⟨placed.base, placed.place, placed.reach⟩
  · intro no idle
    obtain ⟨ahead, waits⟩ := h.ahead writer proxy found no idle
    have lag := ahead.lag
    rw [← ack] at lag
    refine ⟨ahead.moved watched watched' words (Nat.le_refl _) kept (by unfold farthest; omega) lag, ?_⟩
    intro behind
    change proxy.reorderCursor ≠ track'.ackSeqNo at behind
    rw [ack] at behind
    obtain ⟨held, here⟩ := waits behind
    refine ⟨held, ?_⟩
    rw [heldAt_same_places found sets.found sets.same.ring (by rw [sets.same.slots]; rfl)]
    exact here
  · intro fast here own
    obtain ⟨p, scratch, bound⟩ := h.scratch fast here
    have found' := scratch.found
    rw [own, found] at found'
    cases found'
    change _ ≤ steps fast.seqNo track'.ackSeqNo ∧ steps fast.seqNo track'.ackSeqNo < _ ∧
      (_ → steps fast.seqNo track'.ackSeqNo ≤ _)
    rw [ack]
    exact ⟨scratch.behind, scratch.near, fun _ => bound id⟩

/-! ## A drain, whatever is held -/

/-- A drain of a writer none of whose datagrams is held. -/
theorem Sorted.drainBare (h : Sorted (· = writer) sub) (found : sub.findWriterProxy writer = some proxy)
    (idle : sub.fragFastHolds writer = false) (none_ : ∀ i held, sub.ring i = some held → held.writer ≠ writer)
    (arriving : Option Datagram) (own : ∀ ctx, arriving = some ctx → ctx.writer = writer) :
    Sorted nobody (sub.drainReorderWith writer arriving) := by
  have scratch : ∀ fast, sub.fast = some fast → fast.writer = writer →
      steps fast.seqNo proxy.track.ackSeqNo ≤ fast.placed * (64 * sub.words) := by
    intro fast busy same
    rw [← Bool.not_eq_true, fragFastHolds_iff] at idle
    exact absurd ⟨fast, busy, same⟩ idle
  have quiet := fragFastSpillIfOvertaken_other idle
  by_cases none_held : sub.reorderHeld = 0
  · exact h.drainEmpty found none_held quiet scratch arriving own
  · obtain ⟨m, walked⟩ := drainReorderWalk_spec (Nat.min_le_left (steps proxy.reorderCursor proxy.track.ackSeqNo)
      proxy.track.windowBits) (min (steps proxy.reorderCursor proxy.track.ackSeqNo) proxy.track.windowBits) 0 arriving sub
      (by omega) h.counted h.short (fun ctx here => ⟨own ctx here, ⟨by
        cases at_ : sub.heldAt writer ctx.seqNo with
        | none => rfl
        | some held => exact absurd (heldAt_some at_).2.2 (none_ _ held (heldAt_some at_).1),
        fun i held there mine => absurd mine (none_ i held there)⟩⟩)
    unfold drainReorderWith
    rw [quiet]
    dsimp only
    rw [found]
    dsimp only
    rw [if_pos ⟨none_held, h.counted.usable⟩]
    rw [Nat.sub_zero, plus_zero] at walked
    generalize drainReorderWalk writer proxy.track.ackSeqNo _ _ proxy.reorderCursor arriving sub = drained at walked ⊢
    have shed := walked.shed
    have none' : ∀ i held, drained.sub.ring i = some held → held.writer ≠ writer :=
      fun i held here => none_ i held (shed.ring_of here)
    have stop : drained.stop = proxy.track.ackSeqNo := by
      rcases walked.stop with ⟨stop, _⟩ | ⟨_, _, first, here, _⟩
      · exact stop
      · exact absurd (heldAt_some here).2.2 (none' _ first (heldAt_some here).1)
    obtain ⟨high, found'⟩ := shed.own proxy found
    have order := sameOrder_delivered proxy high
    generalize { proxy with track := { proxy.track with highestDelivered := high } } = proxy₁ at found' order
    have handed := (h.shed rfl shed).handOver found' none'
      (by rw [shed.fast, shed.words, order.track.ack]; exact scratch) drained.arriving
      (fun ctx here => by
        rcases walked.hand with same | gone
        · exact own ctx (same.symm.trans here)
        · rw [gone] at here
          cases here)
    rw [order.track.ack] at handed
    rw [stop]
    cases turn : drained.arriving with
    | none =>
      rw [turn] at handed
      exact handed
    | some ctx =>
      rw [turn] at handed
      dsimp only
      rw [if_pos rfl]
      exact handed

/-- A drain, when the walk reaches what is held, and the sample in hand is nobody else's. -/
theorem Sorted.drain (h : Sorted (· = writer) sub) (found : sub.findWriterProxy writer = some proxy)
    (ahead : (∃ i held, sub.ring i = some held ∧ held.writer = writer) → Ahead (2 ^ 31) sub.ring proxy)
    (reaches : Reaches sub proxy proxy.track.ackSeqNo) (arriving : Option Datagram)
    (hand : ∀ ctx, arriving = some ctx → ctx.writer = writer ∧ (sub.reorderHeld ≠ 0 → InHand sub proxy ctx) ∧
      ∀ fast, sub.fast = some fast → fast.writer = writer → fast.seqNo ≠ ctx.seqNo) :
    Sorted nobody (sub.drainReorderWith writer arriving) := by
  by_cases none_ : sub.reorderHeld = 0
  · cases busy : sub.fragFastHolds writer with
    | false =>
      exact h.drainBare found busy (fun i held here => by rw [h.counted.none_held none_ i] at here; cases here) arriving
        (fun ctx here => (hand ctx here).1)
    | true =>
      obtain ⟨fast, there, own⟩ := fragFastHolds_iff.mp busy
      subst own
      obtain ⟨p, scratch, _⟩ := h.scratch fast there
      have same := scratch.found
      rw [found] at same
      cases same
      by_cases level : proxy.track.ackSeqNo = plus fast.seqNo fast.placed
      · have quiet : sub.fragFastSpillIfOvertaken fast.writer = sub := by
          unfold fragFastSpillIfOvertaken
          rw [there, found]
          exact if_neg fun both => both.2 level
        apply h.drainEmpty found none_ quiet
        · intro other here _
          rw [there] at here
          cases here
          have few := scratch.few
          have open_ := scratch.open_
          rw [level, steps_plus _ (by omega)]
          exact Nat.le_mul_of_pos_right _ (by have := h.tracking.1; omega)
        · exact fun ctx here => (hand ctx here).1
      · exact h.drainOvertaken there found level arriving fun ctx here =>
          ⟨(hand ctx here).1, (hand ctx here).2.2 fast there rfl⟩
  · have idle : sub.fast = none := by
      cases busy : sub.fast with
      | none => rfl
      | some fast => exact absurd (h.counted.alone (by rw [busy]; rfl)) none_
    by_cases some_ : ∃ i held, sub.ring i = some held ∧ held.writer = writer
    · exact h.drainHeld found none_ (ahead some_) reaches arriving fun ctx here => (hand ctx here).2.1 none_
    · exact h.drainBare found (fragFastHolds_idle idle writer) (fun i held here own => some_ ⟨i, held, here, own⟩) arriving
        fun ctx here => (hand ctx here).1

/-! ## Holding past the watermark -/

theorem holdForReorder_spill (idle : sub.fragFastSpill.fast = none) :
    sub.holdForReorder ctx = sub.fragFastSpill.holdForReorder ctx := by
  unfold holdForReorder
  rw [fragFastSpill_idle idle]

/-- A datagram recorded past the watermark, not held yet, with nothing in the scratch. -/
theorem Sorted.holdAhead (h : Sorted nobody sub) (idle : sub.fast = none)
    (found : sub.findWriterProxy ctx.writer = some proxy)
    (absent : ∀ i held, sub.ring i = some held → held.writer = ctx.writer → held.seqNo ≠ ctx.seqNo)
    (near : steps proxy.track.ackSeqNo ctx.seqNo < proxy.track.windowBits)
    (set : bit proxy.track.receivedBitmap (steps proxy.track.ackSeqNo ctx.seqNo) = true) :
    Sorted nobody (sub.holdForReorder ctx) := by
  have name := find_writer found
  obtain ⟨ahead, _⟩ := h.ahead _ proxy found id (fragFastHolds_idle idle _)
  obtain ⟨_, w, r, watched⟩ := h.watched _ proxy found
  have window := watched.windowBits_le
  have lag := ahead.lag
  unfold farthest at lag
  have total := steps_trans (show steps proxy.reorderCursor proxy.track.ackSeqNo +
    steps proxy.track.ackSeqNo ctx.seqNo < 2 ^ 32 by omega)
  apply (h.holdIdle idle found absent ?_ (fun _ => by omega) (fun _ _ => set)).1
  intro i held here own
  have := ahead.ahead i held here (own.trans name.symm)
  have c : steps proxy.reorderCursor held.seqNo < 2 ^ 29 := by omega
  exact close_of c (by omega)

theorem Sorted.hold (h : Sorted nobody sub) (found : sub.findWriterProxy ctx.writer = some proxy)
    (absent : ∀ i held, sub.ring i = some held → held.writer = ctx.writer → held.seqNo ≠ ctx.seqNo)
    (near : steps proxy.track.ackSeqNo ctx.seqNo < proxy.track.windowBits)
    (set : bit proxy.track.receivedBitmap (steps proxy.track.ackSeqNo ctx.seqNo) = true) :
    Sorted nobody (sub.holdForReorder ctx) := by
  cases busy : sub.fast with
  | none => exact h.holdAhead busy found absent near set
  | some fast =>
    obtain ⟨p, scratch, bound⟩ := h.scratch fast busy
    obtain ⟨p', back⟩ := fragFastSpill_spec h.counted busy scratch.found (h.placed _ _ scratch.found).base
    rw [holdForReorder_spill back.idle]
    by_cases own : ctx.writer = fast.writer
    · have same := scratch.found
      rw [← own, found] at same
      cases same
      have found' := back.found
      rw [← own] at found'
      obtain ⟨_, w, r, watched⟩ := h.watched _ proxy found
      have window := watched.windowBits_le
      apply h.spill.holdAhead back.idle found'
      · -- the fragments of the scratch lie before the watermark
        intro i held here _ same
        obtain ⟨j, lt, part, _⟩ := back.ring i held here
        rw [part] at same
        have seq : plus fast.seqNo j = ctx.seqNo := same
        have few := scratch.few
        have open_ := scratch.open_
        have behind := scratch.behind
        have far := scratch.near
        have total := steps_trans (show steps fast.seqNo proxy.track.ackSeqNo +
          steps proxy.track.ackSeqNo ctx.seqNo < 2 ^ 32 by omega)
        rw [← seq, steps_plus _ (by omega)] at total
        omega
      · rw [back.track]
        exact near
      · rw [back.track]
        exact set
    · have found' : sub.fragFastSpill.findWriterProxy ctx.writer = some proxy := by
        rw [back.others _ own]
        exact found
      apply h.spill.holdAhead back.idle found'
      · intro i held here mine
        obtain ⟨j, _, part, _⟩ := back.ring i held here
        rw [part] at mine
        exact absurd mine.symm own
      · exact near
      · exact set

/-! ## The first contact -/

theorem find_append (fresh : sub.findWriterProxy proxy.writer = none) :
    { sub with writers := sub.writers ++ [proxy] }.findWriterProxy proxy.writer = some proxy ∧
      ∀ other, other ≠ proxy.writer →
        { sub with writers := sub.writers ++ [proxy] }.findWriterProxy other = sub.findWriterProxy other := by
  unfold findWriterProxy at *
  constructor
  · rw [List.find?_append, fresh]
    simp
  · intro other ne
    have ne : ¬ proxy.writer = other := fun same => ne same.symm
    rw [List.find?_append]
    cases sub.writers.find? fun proxy => decide (proxy.writer = other) with
    | none => simp [ne]
    | some p => rfl

/-- A writer not tracked has nothing in the ring or the scratch. -/
theorem Sorted.strange (h : Sorted but sub) (fresh : sub.findWriterProxy writer = none) :
    (∀ i held, sub.ring i = some held → held.writer ≠ writer) ∧ sub.fragFastHolds writer = false := by
  constructor
  · intro i held here own
    obtain ⟨p, found⟩ := h.tracked i held here
    rw [own, fresh] at found
    cases found
  · rw [← Bool.not_eq_true, fragFastHolds_iff]
    rintro ⟨fast, busy, own⟩
    obtain ⟨p, scratch, _⟩ := h.scratch fast busy
    have found := scratch.found
    rw [own, fresh] at found
    cases found

/-- A proxy more in the table: the others stand as they did. -/
theorem Sorted.append (h : Sorted nobody sub) (fresh : sub.findWriterProxy proxy.writer = none)
    (words : proxy.track.words = sub.words) (watched : Watched proxy.track w r)
    (base : proxy.reorderBase < sub.reorderSlots) :
    Sorted (· = proxy.writer) { sub with writers := sub.writers ++ [proxy] } := by
  obtain ⟨found, others⟩ := find_append fresh
  obtain ⟨none_, idle⟩ := h.strange fresh
  have same : SameRing sub { sub with writers := sub.writers ++ [proxy] } := ⟨rfl, rfl, rfl, rfl, rfl, rfl, rfl, rfl, rfl⟩
  refine ⟨same.counted h.counted, h.tracking, h.short, ?_, ?_, ?_, ?_, ?_⟩
  · intro i held here
    rw [others _ (none_ i held here)]
    exact h.tracked i held here
  · intro other p found'
    by_cases own : other = proxy.writer
    · rw [own, found] at found'
      cases found'
      exact ⟨words, w, r, watched⟩
    · rw [others other own] at found'
      exact h.watched other p found'
  · intro other p found'
    by_cases own : other = proxy.writer
    · rw [own, found] at found'
      cases found'
      exact Placed.empty none_ base
    · rw [others other own] at found'
      exact h.placed other p found'
  · intro other p found' no idle'
    rw [others other no] at found'
    obtain ⟨ahead, waits⟩ := h.ahead other p found' id idle'
    refine ⟨ahead, ?_⟩
    intro behind
    obtain ⟨held, here⟩ := waits behind
    refine ⟨held, ?_⟩
    have found'' : { sub with writers := sub.writers ++ [proxy] }.findWriterProxy other = some p :=
      (others other no).trans found'
    rw [heldAt_same_places found' found'' rfl rfl]
    exact here
  · intro fast busy
    obtain ⟨p, scratch, bound⟩ := h.scratch fast busy
    have ne : fast.writer ≠ proxy.writer := by
      intro own
      have found := scratch.found
      rw [own, fresh] at found
      cases found
    refine ⟨p, ⟨?_, scratch.some_, scratch.open_, scratch.few, scratch.behind, scratch.near⟩, fun _ => bound id⟩
    rw [others _ ne]
    exact scratch.found

/-- The writer dealt with is in order too. -/
theorem Sorted.settled (h : Sorted (· = writer) sub) (found : sub.findWriterProxy writer = some proxy)
    (ahead : Ahead farthest sub.ring proxy) (level : proxy.reorderCursor = proxy.track.ackSeqNo)
    (idle : sub.fragFastHolds writer = false) : Sorted nobody sub := by
  apply h.sets ⟨SameRing.refl sub, found, fun _ _ => rfl, rfl⟩ (fun other ne yes => absurd yes ne)
  · exact h.watched writer proxy found
  · exact h.placed writer proxy found
  · intro _ _
    exact ⟨ahead, fun behind => absurd level behind⟩
  · intro fast busy own
    rw [← Bool.not_eq_true, fragFastHolds_iff] at idle
    exact absurd ⟨fast, busy, own⟩ idle

/-- The proxy of a writer's first datagram. -/
structure Met (sub : Subscriber) (writer : Writer) (seqNo : SeqNo) (proxy : TrackedWriter) : Prop where
  table : sub.firstContact writer seqNo = { sub with writers := sub.writers ++ [proxy] }
  name : proxy.writer = writer
  level : proxy.reorderCursor = proxy.track.ackSeqNo
  words : proxy.track.words = sub.words
  watched : ∃ w, Watched proxy.track w ∅
  pivot : proxy.reorderPivot = seqNo
  base : proxy.reorderBase = (seqNo + reorderSalt writer).toNat % sub.reorderSlots
  near : steps proxy.track.ackSeqNo seqNo < proxy.track.windowBits

theorem firstContact_spec (counted : sub.Counted) (tracking : 0 < sub.words ∧ sub.words < 2 ^ 16)
    (fresh : sub.findWriterProxy writer = none) (room : sub.writers.length < sub.peers) (seqNo : SeqNo) :
    ∃ proxy, Met sub writer seqNo proxy := by
  have follows := (contact_follows (.data tracking.1 tracking.2 sub.durable seqNo)).1
  have window : (WriterProxy.create sub.words).windowBits = 64 * sub.words := windowBits_eq _
  have some_ : sub.reorderSlots ≠ 0 := Nat.pos_iff_ne_zero.mp counted.some_
  refine ⟨reorderPlacePivot sub.reorderSlots
    (Subscriber.takeFirstContactBaseline sub.durable (sub.newProxy writer) seqNo) seqNo, ?_, rfl, ?_, ?_, ?_, rfl,
    if_pos some_, ?_⟩
  · unfold firstContact
    rw [if_neg]
    rintro (known | full)
    · rw [fresh] at known
      cases known
    · omega
  · change (if (sub.durable = true ∧ _) then (1 : SeqNo) else seqNo) =
      (WriterProxy.takeFirstContactBaseline sub.durable (WriterProxy.create sub.words) seqNo).ackSeqNo
    unfold WriterProxy.takeFirstContactBaseline
    have new : (sub.newProxy writer).track = WriterProxy.create sub.words := rfl
    rw [new]
    by_cases kept : sub.durable = true ∧
        steps (WriterProxy.create sub.words).ackSeqNo seqNo < (WriterProxy.create sub.words).windowBits
    · rw [if_pos kept, if_pos kept]
      rfl
    · rw [if_neg kept, if_neg kept]
      rfl
  · change (WriterProxy.takeFirstContactBaseline sub.durable (WriterProxy.create sub.words) seqNo).words = sub.words
    unfold WriterProxy.takeFirstContactBaseline
    split
    · rfl
    · rfl
  · change ∃ w, Watched (WriterProxy.takeFirstContactBaseline sub.durable (WriterProxy.create sub.words) seqNo) w ∅
    exact ⟨_, follows.tracks, Finset.notMem_empty _⟩
  · change steps (WriterProxy.takeFirstContactBaseline sub.durable (WriterProxy.create sub.words) seqNo).ackSeqNo seqNo <
      (WriterProxy.takeFirstContactBaseline sub.durable (WriterProxy.create sub.words) seqNo).windowBits
    unfold WriterProxy.takeFirstContactBaseline
    split
    next kept => exact kept.2
    · change steps seqNo seqNo < (WriterProxy.create sub.words).windowBits
      rw [steps_self, window]
      omega

/-- A writer just met is in order. -/
theorem Sorted.met (h : Sorted nobody sub) (fresh : sub.findWriterProxy writer = none) (met : Met sub writer seqNo proxy) :
    Sorted nobody (sub.firstContact writer seqNo) ∧
      (sub.firstContact writer seqNo).findWriterProxy writer = some proxy := by
  obtain ⟨w, watched⟩ := met.watched
  have name := met.name
  subst name
  have base : proxy.reorderBase < sub.reorderSlots := by
    rw [met.base]
    exact Nat.mod_lt _ h.counted.some_
  obtain ⟨none_, idle⟩ := h.strange fresh
  have found := (find_append fresh).1
  have sorted := h.append fresh met.words watched base
  rw [met.table]
  have lag : steps proxy.reorderCursor proxy.track.ackSeqNo < farthest := by
    rw [met.level, steps_self]
    decide
  exact ⟨sorted.settled found (Ahead.empty none_ lag) met.level idle, found⟩

/-! ## DATA -/

/-- The watermark of a writer once the datagram is recorded. -/
def watermarkAfter (proxy : TrackedWriter) (seqNo : SeqNo) (span : Nat) : SeqNo :=
  (proxy.track.updateReliableAck seqNo span).1.ackSeqNo

/-- Where a drain of the writer starts: at its cursor, or at the sample in the scratch once that is back in the ring. -/
def drainStart (sub : Subscriber) (proxy : TrackedWriter) : SeqNo :=
  match sub.fast with
  | none => proxy.reorderCursor
  | some fast => if fast.writer = proxy.writer then fast.seqNo else proxy.reorderCursor

/-- Something of the writer waits, in the ring or in the scratch. -/
def Waits (sub : Subscriber) (writer : Writer) : Prop :=
  (∃ i held, sub.ring i = some held ∧ held.writer = writer) ∨ sub.fragFastHolds writer = true

/-- A DATA of a tracked writer that the drain can take: it does not come late while a sample is half there, the walk
reaches what is held up to where it moves the watermark, and no fragment claims its seq_no. -/
structure MeetsData (sub : Subscriber) (proxy : TrackedWriter) (ctx : Datagram) (span : Nat) : Prop where
  late : seqDelta ctx.seqNo proxy.track.ackSeqNo < 0 →
    proxy.reorderCursor = proxy.track.ackSeqNo ∨ sub.reorderHeld = 0
  near : Waits sub proxy.writer → steps (drainStart sub proxy) (watermarkAfter proxy ctx.seqNo span) < 2 ^ 31
  reaches : seqDelta ctx.seqNo proxy.track.ackSeqNo < 0 ∨ watermarkAfter proxy ctx.seqNo span ≠ proxy.track.ackSeqNo →
    Reaches sub proxy (watermarkAfter proxy ctx.seqNo span)
  unclaimed : watermarkAfter proxy ctx.seqNo span ≠ proxy.track.ackSeqNo →
    ∀ i held, sub.ring i = some held → held.writer = proxy.writer → held.fragIndex = 0 →
      held.fragCount ≤ steps held.seqNo ctx.seqNo
  scratch : ∀ fast, sub.fast = some fast → fast.writer = proxy.writer → fast.seqNo ≠ ctx.seqNo

theorem drainStart_idle (idle : sub.fast = none) : drainStart sub proxy = proxy.reorderCursor := by
  unfold drainStart
  rw [idle]

theorem drainStart_fast {fast : FastSample} (busy : sub.fast = some fast) (own : fast.writer = proxy.writer) :
    drainStart sub proxy = fast.seqNo := by
  unfold drainStart
  rw [busy]
  exact if_pos own

/-- What is held of a writer is recorded, so a datagram not recorded is not held. -/
theorem Sorted.not_held (h : Sorted nobody sub) (found : sub.findWriterProxy writer = some proxy)
    (past : 0 ≤ seqDelta seqNo proxy.track.ackSeqNo)
    (unset : steps proxy.track.ackSeqNo seqNo < proxy.track.windowBits →
      bit proxy.track.receivedBitmap (steps proxy.track.ackSeqNo seqNo) ≠ true) :
    ∀ i held, sub.ring i = some held → held.writer = writer → held.seqNo ≠ seqNo := by
  intro i held here own same
  have idle := fragFastHolds_idle (h.counted.fast_none here) writer
  obtain ⟨ahead, _⟩ := h.ahead writer proxy found id idle
  have own := own.trans (find_writer found).symm
  have inside := ahead.ahead i held here own
  have lag := ahead.lag
  unfold farthest at lag
  have near := (seqDelta_nonneg _ _).mp past
  have total := steps_trans (show steps proxy.reorderCursor proxy.track.ackSeqNo +
    steps proxy.track.ackSeqNo seqNo < 2 ^ 32 by omega)
  rw [same] at inside
  apply unset (by omega)
  rw [← same]
  exact ahead.recorded i held here own (by rw [same]; omega)

theorem recordArrival_new {track : WriterProxy} (ne : seqNo ≠ track.ackSeqNo)
    (near : steps track.ackSeqNo seqNo < track.windowBits) (new : (track.recordArrival seqNo span).2.1 = true) :
    bit track.receivedBitmap (steps track.ackSeqNo seqNo) ≠ true := by
  unfold WriterProxy.recordArrival at new
  rw [if_neg ne] at new
  dsimp only at new
  rw [if_pos near] at new
  unfold WriterProxy.recordOutOfOrderArrival at new
  rw [bitmapTestBit_eq] at new
  intro set
  rw [if_pos set] at new
  cases new

theorem updateReliableAck_new {track : WriterProxy} (ahead : 0 ≤ seqDelta seqNo track.ackSeqNo) :
    (track.updateReliableAck seqNo span).2.1 = (track.recordArrival seqNo span).2.1 := by
  unfold WriterProxy.updateReliableAck
  rw [if_neg (not_lt.mpr ahead)]

/-- The sample in hand of a DATA that moved the watermark. -/
theorem Sorted.inHand (h : Sorted nobody sub) (found : sub.findWriterProxy ctx.writer = some proxy)
    (some_ : sub.reorderHeld ≠ 0) (past : 0 ≤ seqDelta ctx.seqNo proxy.track.ackSeqNo)
    (watched : Watched proxy.track w r) (watched' : Watched track' w' r')
    (arrived : Arrived proxy.track.windowBits w r (steps proxy.track.ackSeqNo ctx.seqNo) w' r')
    (moved : ¬ (0 < steps proxy.track.ackSeqNo ctx.seqNo ∧ steps proxy.track.ackSeqNo ctx.seqNo < proxy.track.windowBits))
    (clear : ∀ i held, sub.ring i = some held → held.writer = ctx.writer → held.fragIndex = 0 →
      held.fragCount ≤ steps held.seqNo ctx.seqNo)
    (sets : Sets sub ctx.writer { proxy with track := track' } sub') (fits : farthest + (w' - w) ≤ 2 ^ 32) :
    InHand sub' { proxy with track := track' } ctx := by
  have name := find_writer found
  have idle : sub.fast = none := by
    cases busy : sub.fast with
    | none => rfl
    | some fast => exact absurd (h.counted.alone (by rw [busy]; rfl)) some_
  obtain ⟨ahead, _⟩ := h.ahead _ proxy found id (fragFastHolds_idle idle _)
  have lag := ahead.lag
  unfold farthest at lag fits
  have close := (seqDelta_nonneg _ _).mp past
  have window := watched.windowBits_le
  have settled := watched.settled
  have absent := h.not_held found past (fun inside => by
    intro set
    have zero : steps proxy.track.ackSeqNo ctx.seqNo = 0 := by omega
    rw [zero, watched.bit_iff, Nat.add_zero] at set
    exact settled set.2)
  refine ⟨name.symm, ⟨?_, ?_⟩, ?_⟩
  · change sub'.heldAt proxy.writer ctx.seqNo = none
    rw [name]
    cases here : sub'.heldAt ctx.writer ctx.seqNo with
    | none => rfl
    | some held =>
      obtain ⟨there, seq, own⟩ := heldAt_some here
      rw [sets.same.ring] at there
      exact absurd seq (absent _ held there own)
  · intro i held here own
    rw [sets.same.ring] at here
    exact clear i held here (own.trans name)
  · intro _
    change steps proxy.reorderCursor ctx.seqNo < steps proxy.reorderCursor track'.ackSeqNo
    have passed := arrived.passed moved
    have step := watched.moved watched' arrived.le (by omega)
    have total := steps_trans (show steps proxy.reorderCursor proxy.track.ackSeqNo +
      steps proxy.track.ackSeqNo ctx.seqNo < 2 ^ 32 by omega)
    have total' := steps_trans (show steps proxy.reorderCursor proxy.track.ackSeqNo +
      steps proxy.track.ackSeqNo track'.ackSeqNo < 2 ^ 32 by omega)
    omega

theorem firstContact_known (found : sub.findWriterProxy writer = some proxy) (seqNo : SeqNo) :
    sub.firstContact writer seqNo = sub := by
  unfold firstContact
  rw [if_pos (.inl (by rw [found]; rfl))]

theorem updateReliableAck_met (table : sub.firstContact writer seqNo = sub')
    (found : sub'.findWriterProxy writer = some proxy) (span : Nat) :
    sub.updateReliableAck writer seqNo span =
      (sub'.setProxy { proxy with track := (proxy.track.updateReliableAck seqNo span).1 },
        (proxy.track.updateReliableAck seqNo span).2.1) := by
  unfold Subscriber.updateReliableAck
  rw [table]
  dsimp only
  rw [found]

theorem updateReliableAck_known (found : sub.findWriterProxy writer = some proxy) (seqNo : SeqNo) (span : Nat) :
    sub.updateReliableAck writer seqNo span =
      (sub.setProxy { proxy with track := (proxy.track.updateReliableAck seqNo span).1 },
        (proxy.track.updateReliableAck seqNo span).2.1) :=
  updateReliableAck_met (firstContact_known found seqNo) found span

theorem Ahead.mono {far far' : Nat} {ring : Nat → Option Datagram} (ahead : Ahead far ring proxy) (le : far ≤ far') :
    Ahead far' ring proxy := ⟨ahead.lag.trans_le le, ahead.ahead, ahead.recorded⟩

/-- A DATA behind the watermark, with the cursor there. -/
theorem Sorted.inHand_late (h : Sorted nobody sub) (found : sub.findWriterProxy ctx.writer = some proxy)
    (late : seqDelta ctx.seqNo proxy.track.ackSeqNo < 0) (level : proxy.reorderCursor = proxy.track.ackSeqNo) :
    InHand sub proxy ctx := by
  have name := find_writer found
  obtain ⟨_, w, r, watched⟩ := h.watched _ proxy found
  have window := watched.windowBits_le
  have behind := (seqDelta_neg _ _).mp late
  rw [← level] at behind
  have near : ∀ i held, sub.ring i = some held → held.writer = proxy.writer →
      steps proxy.reorderCursor held.seqNo < proxy.track.windowBits := by
    intro i held here own
    have idle := fragFastHolds_idle (h.counted.fast_none here) ctx.writer
    have := (h.ahead _ proxy found id idle).1.ahead i held here own
    rw [← level, steps_self] at this
    omega
  refine ⟨name.symm, ⟨?_, ?_⟩, fun ne => absurd level ne⟩
  · cases here : sub.heldAt proxy.writer ctx.seqNo with
    | none => rfl
    | some held =>
      obtain ⟨there, seq, own⟩ := heldAt_some here
      have := near _ held there own
      rw [seq] at this
      omega
  · intro i held here own _
    have := near i held here own
    have few := h.short i held here
    have := steps_split (show steps proxy.reorderCursor held.seqNo ≤ steps proxy.reorderCursor ctx.seqNo by omega)
    omega

theorem Sorted.data_late (h : Sorted nobody sub) (found : sub.findWriterProxy ctx.writer = some proxy)
    (meets : MeetsData sub proxy ctx span) (late : seqDelta ctx.seqNo proxy.track.ackSeqNo < 0) :
    Sorted nobody (sub.deliverDataToSubscriber ctx span true) := by
  have same : proxy.track.updateReliableAck ctx.seqNo span = (proxy.track, true, []) := by
    unfold WriterProxy.updateReliableAck
    exact if_pos late
  have name := find_writer found
  have sets := sets_setProxy found name
  have reaches := meets.reaches (.inl late)
  unfold watermarkAfter at reaches
  unfold deliverDataToSubscriber
  rw [if_neg (by decide), updateReliableAck_known found, same]
  rw [same] at reaches
  dsimp only at reaches ⊢
  rw [if_neg (by decide), sets.found]
  dsimp only
  rw [if_neg (not_le.mpr late)]
  have order : SameOrder proxy proxy := ⟨rfl, rfl, rfl, rfl, ⟨rfl, rfl, rfl, rfl⟩⟩
  have sorted := h.same_order found order sets
  apply (sorted.weaken fun _ => False.elim).drain sets.found
  · rintro ⟨i, held, here, _⟩
    have idle := fragFastHolds_idle (sorted.counted.fast_none here) ctx.writer
    exact (sorted.ahead _ proxy sets.found id idle).1.mono (by decide)
  · unfold Reaches
    rw [sets.same.ring]
    exact reaches
  · intro c here
    cases here
    refine ⟨rfl, ?_, ?_⟩
    · rw [sets.same.held]
      intro some_
      rcases meets.late late with level | none_
      · exact sorted.inHand_late sets.found late level
      · exact absurd none_ some_
    · rw [sets.same.fast, ← name]
      exact meets.scratch

theorem Sorted.data_ahead (h : Sorted nobody sub) (found : sub.findWriterProxy ctx.writer = some proxy)
    (meets : MeetsData sub proxy ctx span) (past : 0 ≤ seqDelta ctx.seqNo proxy.track.ackSeqNo) :
    Sorted nobody (sub.deliverDataToSubscriber ctx span true) := by
  have name := find_writer found
  obtain ⟨words, w, r, watched⟩ := h.watched _ proxy found
  obtain ⟨w', r', watched', arrived⟩ := watched.update span past
  have words' := words_updateReliableAck proxy.track ctx.seqNo span
  have fits : farthest + (w' - w) ≤ 2 ^ 32 := by
    have close := (seqDelta_nonneg _ _).mp past
    have window := watched.windowBits_le
    have := arrived.near
    unfold farthest
    omega
  have near := meets.near
  have reaches := meets.reaches
  have clear := meets.unclaimed
  have new : (proxy.track.updateReliableAck ctx.seqNo span).2.1 = _ := updateReliableAck_new past
  unfold watermarkAfter at near reaches clear
  rw [name] at near clear
  unfold deliverDataToSubscriber
  rw [if_neg (by decide), updateReliableAck_known found]
  dsimp only
  rw [new]
  generalize (proxy.track.updateReliableAck ctx.seqNo span).1 = track' at *
  have sets := sets_setProxy found (show ({ proxy with track := track' } : TrackedWriter).writer = ctx.writer from name)
  have window : track'.windowBits = proxy.track.windowBits := by rw [windowBits_eq, windowBits_eq, words']
  have moved := watched.moved watched' arrived.le (by unfold farthest at fits; omega)
  rw [sets.found]
  dsimp only
  by_cases ahead : 0 < steps proxy.track.ackSeqNo ctx.seqNo ∧ steps proxy.track.ackSeqNo ctx.seqNo < proxy.track.windowBits
  · -- past the watermark: recorded, and held
    have still := arrived.still ahead.1 ahead.2
    subst still
    have ack : track'.ackSeqNo = proxy.track.ackSeqNo := by rw [watched.tracks.ack, watched'.tracks.ack]
    have sorted := h.stays found rfl sets watched watched' words' arrived.kept
    by_cases dup : (proxy.track.recordArrival ctx.seqNo span).2.1 = false
    · rw [if_pos dup]
      exact sorted
    · rw [if_neg dup]
      have past' : 0 ≤ seqDelta ctx.seqNo track'.ackSeqNo := by rw [ack]; exact past
      rw [if_pos past']
      have ne : ctx.seqNo ≠ proxy.track.ackSeqNo := by
        intro same
        rw [same, steps_self] at ahead
        omega
      apply sorted.hold sets.found
      · rw [sets.same.ring]
        exact h.not_held found past fun _ => recordArrival_new ne ahead.2 (by simpa using dup)
      · change steps track'.ackSeqNo ctx.seqNo < track'.windowBits
        rw [ack, window]
        exact ahead.2
      · change bit track'.receivedBitmap (steps track'.ackSeqNo ctx.seqNo) = true
        rw [ack, watched'.bit_iff, window]
        exact ⟨ahead.2, arrived.recorded ahead.2⟩
  · -- the watermark passes the datagram, and the drain delivers it in its turn
    have passed := arrived.passed ahead
    have fresh : ¬ (proxy.track.recordArrival ctx.seqNo span).2.1 = false := by
      unfold WriterProxy.recordArrival
      split
      · simp
      next ne =>
        dsimp only
        split
        next inside =>
          have zero : steps proxy.track.ackSeqNo ctx.seqNo = 0 := by omega
          exact absurd (steps_eq_zero.mp zero).symm ne
        · simp
    rw [if_neg fresh]
    have close := (seqDelta_nonneg _ _).mp past
    have beyond : ¬ 0 ≤ seqDelta ctx.seqNo track'.ackSeqNo := by
      have close' := arrived.near
      have narrow := watched.windowBits_le
      have split_ := steps_split (show steps proxy.track.ackSeqNo ctx.seqNo ≤
        steps proxy.track.ackSeqNo track'.ackSeqNo by omega)
      have ne : ctx.seqNo ≠ track'.ackSeqNo := by
        intro same
        rw [same, steps_self] at split_
        rw [same] at passed
        omega
      have := steps_swap ne
      rw [seqDelta_nonneg]
      omega
    rw [if_neg beyond]
    have changed : track'.ackSeqNo ≠ proxy.track.ackSeqNo := by
      intro same
      rw [same, steps_self] at moved
      omega
    have sorted := h.moved found rfl sets watched watched' words' arrived.le fits (fun fast busy own => by
      have := near (.inr (fragFastHolds_iff.mpr ⟨fast, busy, own⟩))
      rw [drainStart_fast busy (own.trans name.symm)] at this
      exact this)
    apply sorted.drain sets.found
    · rintro ⟨i, held, here, own⟩
      rw [sets.same.ring] at here ⊢
      have idle := h.counted.fast_none here
      have lag := near (.inl ⟨i, held, here, own⟩)
      rw [drainStart_idle idle] at lag
      exact (h.ahead _ proxy found id (fragFastHolds_idle idle _)).1.moved watched watched' words' arrived.le arrived.kept
        fits lag
    · intro i held here own
      rw [sets.same.ring] at here
      have := reaches (.inr changed) i held here own
      unfold Reached at this ⊢
      change steps proxy.reorderCursor held.seqNo < min (steps proxy.reorderCursor track'.ackSeqNo) track'.windowBits ∨ _
      rw [window]
      exact this
    · intro c here
      cases here
      refine ⟨rfl, ?_, ?_⟩
      · rw [sets.same.held]
        intro some_
        exact h.inHand found some_ past watched watched' arrived ahead (clear changed) sets fits
      · rw [sets.same.fast, ← name]
        exact meets.scratch

end Reader

end Tickle
