import Tickle.Reader.Ordered

/-! # A drain leaves the ring in order

The drain of a writer whose watermark has just moved: the ring is in order again when everything the writer holds lies
where the walk reaches it or past the watermark, and the sample in hand is not claimed by a fragment held.
-/

namespace Tickle

namespace Reader

open Bits Serial Subscriber

variable {but : Writer → Prop} {sub sub' : Subscriber} {writer other : Writer} {proxy proxy' : TrackedWriter}
  {held ctx : Datagram} {index : Nat} {seqNo s : SeqNo}

/-! ## Slots given back -/

/-- Another writer's datagrams stay. -/
theorem Subscriber.Shed.heldAt_other (shed : Shed writer sub sub') (ne : other ≠ writer) (seqNo : SeqNo) :
    sub'.heldAt other seqNo = sub.heldAt other seqNo := by
  cases here : sub.heldAt other seqNo with
  | none => exact shed.heldAt_none here
  | some held =>
    obtain ⟨there, name, own⟩ := heldAt_some here
    rcases shed.ring (sub.reorderWriterSlot other seqNo) with same | ⟨_, d, was, own'⟩
    · unfold heldAt
      rw [shed.slot, same, there]
      simp [name, own]
    · rw [was] at there
      cases there
      exact absurd (own.symm.trans own') ne

theorem Placed.shed {slots : Nat} (placed : Placed slots sub.ring proxy) (shed : Shed writer sub sub') :
    Placed slots sub'.ring proxy :=
  ⟨placed.base, fun i held here => placed.place i held (shed.ring_of here),
    fun i held here => placed.reach i held (shed.ring_of here)⟩

theorem Ahead.shed {far : Nat} (ahead : Ahead far sub.ring proxy) (shed : Shed writer sub sub') :
    Ahead far sub'.ring proxy :=
  ⟨ahead.lag, fun i held here => ahead.ahead i held (shed.ring_of here),
    fun i held here => ahead.recorded i held (shed.ring_of here)⟩

theorem sameOrder_delivered (proxy : TrackedWriter) (high : SeqNo) :
    SameOrder proxy { proxy with track := { proxy.track with highestDelivered := high } } :=
  ⟨rfl, rfl, rfl, rfl, ⟨rfl, rfl, rfl, rfl⟩⟩

/-- Slots of a writer that is being dealt with are given back. -/
theorem Sorted.shed (h : Sorted but sub) (yes : but writer) (shed : Shed writer sub sub') : Sorted but sub' := by
  have own : ∀ proxy', sub'.findWriterProxy writer = some proxy' →
      ∃ proxy, sub.findWriterProxy writer = some proxy ∧ SameOrder proxy proxy' := by
    intro proxy' found'
    cases found : sub.findWriterProxy writer with
    | none =>
      rw [shed.strange found] at found'
      cases found'
    | some proxy =>
      obtain ⟨high, there⟩ := shed.own proxy found
      rw [there] at found'
      cases found'
      exact ⟨proxy, rfl, sameOrder_delivered proxy high⟩
  refine ⟨shed.counted h.counted, shed.words ▸ h.tracking, fun i held here => h.short i held (shed.ring_of here), ?_, ?_,
    ?_, ?_, ?_⟩
  · intro i held here
    obtain ⟨proxy, found⟩ := h.tracked i held (shed.ring_of here)
    have some_ := shed.tracked held.writer
    rw [found] at some_
    exact Option.isSome_iff_exists.mp some_
  · intro other proxy' found'
    rw [shed.words]
    by_cases same : other = writer
    · obtain ⟨proxy, found, order⟩ := own proxy' (same ▸ found')
      obtain ⟨words, w, r, watched⟩ := h.watched writer proxy found
      exact ⟨order.track.words.trans words, w, r, watched.same order.track⟩
    · rw [shed.others other same] at found'
      exact h.watched other proxy' found'
  · intro other proxy' found'
    rw [shed.slots]
    by_cases same : other = writer
    · obtain ⟨proxy, found, order⟩ := own proxy' (same ▸ found')
      exact order.placed ((h.placed writer proxy found).shed shed)
    · rw [shed.others other same] at found'
      exact (h.placed other proxy' found').shed shed
  · intro other proxy' found' no idle
    by_cases same : other = writer
    · exact absurd (same ▸ yes) no
    · rw [shed.others other same] at found'
      have idle' : sub.fragFastHolds other = false := by
        unfold fragFastHolds at idle ⊢
        rwa [shed.fast] at idle
      obtain ⟨ahead, waits⟩ := h.ahead other proxy' found' no idle'
      refine ⟨ahead.shed shed, ?_⟩
      rw [shed.heldAt_other same]
      exact waits
  · intro fast here
    rw [shed.fast] at here
    rw [shed.words]
    obtain ⟨proxy, scratch, near⟩ := h.scratch fast here
    by_cases same : fast.writer = writer
    · obtain ⟨high, there⟩ := shed.own proxy (same ▸ scratch.found)
      have found' := there
      rw [← same] at found'
      exact ⟨_, ⟨found', scratch.some_, scratch.open_, scratch.few, scratch.behind, scratch.near⟩, near⟩
    · refine ⟨proxy, ⟨?_, scratch.some_, scratch.open_, scratch.few, scratch.behind, scratch.near⟩, near⟩
      rw [shed.others _ same]
      exact scratch.found

/-! ## The cursor put where the drain stopped -/

/-- Nobody is being dealt with. -/
def nobody : Writer → Prop := fun _ => False

/-- A writer dealt with, once its cursor is put at `seqNo`. -/
theorem Sorted.putCursor (h : Sorted (· = writer) sub) (found : sub.findWriterProxy writer = some proxy)
    (ahead : sub.fragFastHolds writer = false → Ahead farthest sub.ring { proxy with reorderCursor := seqNo } ∧
      (seqNo ≠ proxy.track.ackSeqNo → ∃ held, sub.heldAt writer seqNo = some held))
    (scratch : ∀ fast, sub.fast = some fast → fast.writer = writer →
      steps fast.seqNo proxy.track.ackSeqNo ≤ fast.placed * (64 * sub.words)) :
    Sorted nobody (sub.putCursor writer seqNo) := by
  have sets := sets_putCursor found seqNo
  have placed := h.placed writer proxy found
  apply h.sets sets (fun other ne yes => absurd yes ne)
  · exact h.watched writer proxy found
  · exact ⟨placed.base, placed.place, placed.reach⟩
  · intro _ idle
    obtain ⟨ahead, waits⟩ := ahead idle
    refine ⟨ahead, ?_⟩
    intro behind
    rw [heldAt_same_places found sets.found sets.same.ring (by rw [sets.same.slots]; rfl)]
    exact waits behind
  · intro fast here own
    obtain ⟨p, old, _⟩ := h.scratch fast here
    have found' := old.found
    rw [own, found] at found'
    cases found'
    exact ⟨old.behind, old.near, fun _ => scratch fast here own⟩

/-! ## The walk -/

/-- A drain up to the watermark `ack` meets the seq_no on its walk, or the seq_no lies past the watermark. -/
def Reached (proxy : TrackedWriter) (ack seqNo : SeqNo) : Prop :=
  steps proxy.reorderCursor seqNo < min (steps proxy.reorderCursor ack) proxy.track.windowBits ∨
    steps proxy.reorderCursor ack ≤ steps proxy.reorderCursor seqNo

/-- Everything the writer has held. -/
def Reaches (sub : Subscriber) (proxy : TrackedWriter) (ack : SeqNo) : Prop :=
  ∀ i held, sub.ring i = some held → held.writer = proxy.writer → Reached proxy ack held.seqNo

/-- A fragment past the watermark is that close to where the walk stopped. -/
theorem waiting_near {stop ack : SeqNo} (near : steps stop ack < 2 ^ 31)
    (still : 0 ≤ seqDelta (plus stop index) ack) (few : index < 64) : steps stop ack ≤ index := by
  by_contra lt
  rw [seqDelta_nonneg] at still
  have there : steps stop (plus stop index) = index := steps_plus stop (by omega)
  have back : steps (plus stop index) ack = steps stop ack - index := by
    have := steps_split (show steps stop (plus stop index) ≤ steps stop ack by omega)
    omega
  have ne : plus stop index ≠ ack := by
    intro same
    rw [same, steps_self] at back
    omega
  have := steps_swap ne
  omega

theorem fragFastSpillIfOvertaken_other (idle : sub.fragFastHolds writer = false) :
    sub.fragFastSpillIfOvertaken writer = sub := by
  unfold fragFastSpillIfOvertaken
  split
  next fast proxy busy found =>
    rw [if_neg]
    rintro ⟨own, _⟩
    rw [← Bool.not_eq_true, fragFastHolds_iff] at idle
    exact idle ⟨fast, busy, own⟩
  · rfl

/-- What is held of the writer lies no earlier than the places the walk has emptied. -/
theorem Subscriber.Walked.not_before {arriving : Option Datagram} {base ack : SeqNo} {n m : Nat} {drained : Drained}
    (walked : Walked writer sub arriving base ack 0 n drained m)
    (placed : Placed drained.sub.reorderSlots drained.sub.ring proxy)
    (found : drained.sub.findWriterProxy writer = some proxy) (here : drained.sub.ring index = some held)
    (own : held.writer = writer) : m ≤ steps base held.seqNo := by
  by_contra before
  have empty := walked.emptied (steps base held.seqNo) (Nat.zero_le _) (by omega)
  rw [plus_steps, placed.found found here own] at empty
  cases empty

/-- A sample in hand that the drain may deliver or hold: no fragment held claims its seq_no, and it lies between the
cursor and the watermark, unless these are one. -/
structure InHand (sub : Subscriber) (proxy : TrackedWriter) (ctx : Datagram) : Prop where
  own : ctx.writer = proxy.writer
  unclaimed : Unclaimed proxy.writer sub ctx
  between : proxy.reorderCursor ≠ proxy.track.ackSeqNo →
    steps proxy.reorderCursor ctx.seqNo < steps proxy.reorderCursor proxy.track.ackSeqNo

/-- The cursor put `m` on, at most a sample behind the watermark, with nothing held before it. -/
theorem Sorted.stopAt (h : Sorted (· = writer) sub) (found : sub.findWriterProxy writer = some proxy)
    (idle : sub.fast = none) (ahead : Ahead (2 ^ 31) sub.ring proxy) {m : Nat}
    (before : m ≤ steps proxy.reorderCursor proxy.track.ackSeqNo)
    (near : steps proxy.reorderCursor proxy.track.ackSeqNo < m + 64)
    (after : ∀ i held, sub.ring i = some held → held.writer = writer → m ≤ steps proxy.reorderCursor held.seqNo)
    (there : plus proxy.reorderCursor m ≠ proxy.track.ackSeqNo →
      ∃ held, sub.heldAt writer (plus proxy.reorderCursor m) = some held) :
    Sorted nobody (sub.putCursor writer (plus proxy.reorderCursor m)) := by
  have name := find_writer found
  have bound := ahead.lag
  have here : steps proxy.reorderCursor (plus proxy.reorderCursor m) = m := steps_plus _ (by omega)
  have ack := steps_split (show steps proxy.reorderCursor (plus proxy.reorderCursor m) ≤
    steps proxy.reorderCursor proxy.track.ackSeqNo by omega)
  have rest : ∀ i held, sub.ring i = some held → held.writer = proxy.writer →
      steps proxy.reorderCursor held.seqNo = m + steps (plus proxy.reorderCursor m) held.seqNo := by
    intro i held there own
    have past := after i held there (own.trans name)
    have := steps_split (show steps proxy.reorderCursor (plus proxy.reorderCursor m) ≤
      steps proxy.reorderCursor held.seqNo by omega)
    omega
  apply h.putCursor found
  · intro _
    refine ⟨⟨?_, ?_, ?_⟩, there⟩
    · change steps (plus proxy.reorderCursor m) proxy.track.ackSeqNo < farthest
      unfold farthest
      omega
    · intro i held there own
      have := rest i held there own
      have := ahead.ahead i held there own
      change steps (plus proxy.reorderCursor m) held.seqNo <
        steps (plus proxy.reorderCursor m) proxy.track.ackSeqNo + proxy.track.windowBits
      omega
    · intro i held there own past
      change steps (plus proxy.reorderCursor m) proxy.track.ackSeqNo ≤
        steps (plus proxy.reorderCursor m) held.seqNo at past
      have := rest i held there own
      exact ahead.recorded i held there own (by omega)
  · intro fast busy
    rw [idle] at busy
    cases busy

theorem Sorted.drainHeld (h : Sorted (· = writer) sub) (found : sub.findWriterProxy writer = some proxy)
    (some_ : sub.reorderHeld ≠ 0) (ahead : Ahead (2 ^ 31) sub.ring proxy)
    (reaches : Reaches sub proxy proxy.track.ackSeqNo) (arriving : Option Datagram)
    (hand : ∀ ctx, arriving = some ctx → InHand sub proxy ctx) : Sorted nobody (sub.drainReorderWith writer arriving) := by
  have name := find_writer found
  have idle : sub.fast = none := by
    cases busy : sub.fast with
    | none => rfl
    | some fast => exact absurd (h.counted.alone (by rw [busy]; rfl)) some_
  obtain ⟨_, w, r, watched⟩ := h.watched writer proxy found
  have window := watched.windowBits_le
  have bound := ahead.lag
  obtain ⟨m, walked⟩ := drainReorderWalk_spec (Nat.min_le_left (steps proxy.reorderCursor proxy.track.ackSeqNo)
    proxy.track.windowBits) (min (steps proxy.reorderCursor proxy.track.ackSeqNo) proxy.track.windowBits) 0 arriving sub
    (by omega) h.counted h.short (fun ctx here => ⟨(hand ctx here).own.trans name, name ▸ (hand ctx here).unclaimed⟩)
  unfold drainReorderWith
  rw [fragFastSpillIfOvertaken_other (fragFastHolds_idle idle writer)]
  dsimp only
  rw [found]
  dsimp only
  rw [if_pos ⟨some_, h.counted.usable⟩]
  rw [Nat.sub_zero, plus_zero] at walked
  generalize drainReorderWalk writer proxy.track.ackSeqNo _ _ proxy.reorderCursor arriving sub = drained at walked ⊢
  have shed := walked.shed
  have sorted := h.shed rfl shed
  obtain ⟨high, found₁⟩ := shed.own proxy found
  have order := sameOrder_delivered proxy high
  generalize { proxy with track := { proxy.track with highestDelivered := high } } = proxy₁ at found₁ order
  have ahead₁ := order.ahead (ahead.shed shed)
  have placed₁ := sorted.placed writer proxy₁ found₁
  have after : ∀ i held, drained.sub.ring i = some held → held.writer = writer →
      m ≤ steps proxy.reorderCursor held.seqNo :=
    fun i held here own => walked.not_before placed₁ found₁ here own
  have idle₁ : drained.sub.fast = none := shed.fast.trans idle
  have cursor₁ : proxy₁.reorderCursor = proxy.reorderCursor := order.cursor
  have ack₁ : proxy₁.track.ackSeqNo = proxy.track.ackSeqNo := order.track.ack
  rcases walked.stop with ⟨stop, all⟩ | ⟨before, stop, waiting⟩
  · -- the walk has come to the watermark, and the sample in hand goes last
    have past : ∀ i held, drained.sub.ring i = some held → held.writer = writer →
        steps proxy.reorderCursor proxy.track.ackSeqNo ≤ steps proxy.reorderCursor held.seqNo := by
      intro i held here own
      have := after i held here own
      rcases reaches i held (shed.ring_of here) (own.trans name.symm) with within | beyond
      · omega
      · exact beyond
    have finish : ∀ {sub₂ : Subscriber}, Shed writer drained.sub sub₂ → Sorted nobody (sub₂.putCursor writer drained.stop) := by
      intro sub₂ given
      obtain ⟨high₂, found₂⟩ := given.own proxy₁ found₁
      have order₂ := sameOrder_delivered proxy₁ high₂
      have stopped := (sorted.shed rfl given).stopAt found₂ (given.fast.trans idle₁)
        (order₂.ahead (ahead₁.shed given)) (Nat.le_refl _) (by omega)
        (fun i held here own => by
          change steps proxy₁.reorderCursor proxy₁.track.ackSeqNo ≤ steps proxy₁.reorderCursor held.seqNo
          rw [cursor₁, ack₁]
          exact past i held (given.ring_of here) own)
        (fun ne => absurd (plus_steps _ _) ne)
      rw [plus_steps] at stopped
      change Sorted nobody (sub₂.putCursor writer proxy₁.track.ackSeqNo) at stopped
      rw [ack₁] at stopped
      rw [stop]
      exact stopped
    cases turn : drained.arriving with
    | none => exact finish (Shed.refl _ _)
    | some ctx =>
      dsimp only
      rw [if_pos stop]
      have given := shed_deliverInOrder drained.sub ctx.sample
      have same : arriving = some ctx := by
        rcases walked.hand with same | gone
        · exact same.symm.trans turn
        · rw [gone] at turn
          cases turn
      have own : ctx.sample.writer = writer := (hand ctx same).own.trans name
      rw [own] at given
      exact finish given
  · -- the walk stops at a sample not whole, and the sample in hand waits behind it
    have below : m < steps proxy.reorderCursor proxy.track.ackSeqNo := by omega
    have at_ : steps proxy.reorderCursor (plus proxy.reorderCursor m) = m := steps_plus _ (by omega)
    have left := steps_split (show steps proxy.reorderCursor (plus proxy.reorderCursor m) ≤
      steps proxy.reorderCursor proxy.track.ackSeqNo by omega)
    rw [stop] at waiting
    obtain ⟨first, here, _, index, lt, still⟩ := waiting
    have few := sorted.short _ first (heldAt_some here).1
    have near := waiting_near (by omega) still (by omega)
    have ne : drained.stop ≠ proxy.track.ackSeqNo := by
      rw [stop]
      intro same
      rw [same] at at_
      omega
    cases turn : drained.arriving with
    | none =>
      dsimp only
      rw [stop, ← cursor₁]
      exact sorted.stopAt found₁ idle₁ ahead₁ (by rw [cursor₁, ack₁]; omega) (by rw [cursor₁, ack₁]; omega)
        (by rw [cursor₁]; exact after) (fun _ => ⟨first, by rw [cursor₁]; exact here⟩)
    | some ctx =>
      dsimp only
      rw [if_neg ne]
      have same : arriving = some ctx := by
        rcases walked.hand with same | gone
        · exact same.symm.trans turn
        · rw [gone] at turn
          cases turn
      obtain ⟨own, unclaimed, between⟩ := hand ctx same
      have own' : ctx.writer = writer := own.trans name
      have between := between (by
        intro level
        rw [level, steps_self] at below
        omega)
      have place : m ≤ steps proxy.reorderCursor ctx.seqNo := by
        by_contra early
        exact walked.passed ctx turn _ (Nat.zero_le _) (by omega) (plus_steps _ _)
      have found' : drained.sub.findWriterProxy ctx.writer = some proxy₁ := by rw [own']; exact found₁
      have absent : ∀ i held, drained.sub.ring i = some held → held.writer = ctx.writer → held.seqNo ≠ ctx.seqNo := by
        intro i held there mine same
        have found := placed₁.found found₁ there (mine.trans own')
        rw [same, shed.heldAt_none (name ▸ unclaimed.absent)] at found
        cases found
      have close : ∀ i held, drained.sub.ring i = some held → held.writer = ctx.writer → Close held.seqNo ctx.seqNo := by
        intro i held there mine
        have := ahead.ahead i held (shed.ring_of there) (mine.trans own)
        have c : steps proxy.reorderCursor held.seqNo < 2 ^ 29 := by omega
        exact close_of c (by omega)
      obtain ⟨sorted₂, proxy₂, holds⟩ := sorted.holdIdle idle₁ found' absent close
        (fun no => absurd own' no) (fun no => absurd own' no)
      have found₂ : (drained.sub.holdForReorder ctx).findWriterProxy writer = some proxy₂ := own' ▸ holds.found
      have cursor₂ : proxy₂.reorderCursor = proxy.reorderCursor := holds.cursor.trans cursor₁
      have ack₂ : proxy₂.track.ackSeqNo = proxy.track.ackSeqNo := holds.ack.trans ack₁
      have name₂ := find_writer found₂
      have window₂ : proxy₂.track.windowBits = proxy₁.track.windowBits := by
        rw [windowBits_eq, windowBits_eq, holds.words]
      have placed₂ := sorted₂.placed writer proxy₂ found₂
      have idle₂ : (drained.sub.holdForReorder ctx).fast = none := by
        cases busy : (drained.sub.holdForReorder ctx).fast with
        | none => rfl
        | some fast =>
          have := holds.kept _ first (heldAt_some here).1
          rw [sorted₂.counted.fast_none this] at busy
          cases busy
      rw [stop, ← cursor₂]
      apply sorted₂.stopAt found₂ idle₂
      · refine ⟨?_, ?_, ?_⟩
        · rw [cursor₂, ack₂]
          exact bound
        · intro i held there mine
          rw [holds.cursor, holds.ack, window₂]
          rcases holds.ring i held there with old | ⟨_, new⟩
          · exact ahead₁.ahead i held old (mine.trans (name₂.trans (find_writer found₁).symm))
          · rw [new, cursor₁, ack₁]
            omega
        · intro i held there mine past
          rw [holds.cursor, holds.ack] at past
          rw [holds.ack]
          rcases holds.ring i held there with old | ⟨_, new⟩
          · have own₁ := mine.trans (name₂.trans (find_writer found₁).symm)
            exact holds.bits _ (absent i held old (mine.trans (name₂.trans own'.symm)))
              (ahead₁.recorded i held old own₁ past)
          · rw [new, cursor₁, ack₁] at past
            omega
      · rw [cursor₂, ack₂]
        omega
      · rw [cursor₂, ack₂]
        omega
      · intro i held there mine
        rw [cursor₂]
        rcases holds.ring i held there with old | ⟨_, new⟩
        · exact after i held old mine
        · rw [new]
          exact place
      · intro _
        obtain ⟨there, seq, mine⟩ := heldAt_some here
        refine ⟨first, ?_⟩
        rw [cursor₂, ← seq]
        exact placed₂.found found₂ (holds.kept _ first there) mine

/-! ## Nothing held -/

theorem Ahead.level {far : Nat} {ring : Nat → Option Datagram} (some_ : 0 < far)
    (none_ : ∀ i held, ring i = some held → held.writer ≠ proxy.writer) :
    Ahead far ring { proxy with reorderCursor := proxy.track.ackSeqNo } where
  lag := by
    change steps proxy.track.ackSeqNo proxy.track.ackSeqNo < far
    rw [steps_self]
    exact some_
  ahead := fun i held here own => absurd own (none_ i held here)
  recorded := fun i held here own => absurd own (none_ i held here)

/-- The cursor of a writer with nothing held goes to the watermark. -/
theorem Sorted.level (h : Sorted (· = writer) sub) (found : sub.findWriterProxy writer = some proxy)
    (none_ : ∀ i held, sub.ring i = some held → held.writer ≠ writer)
    (scratch : ∀ fast, sub.fast = some fast → fast.writer = writer →
      steps fast.seqNo proxy.track.ackSeqNo ≤ fast.placed * (64 * sub.words)) :
    Sorted nobody (sub.putCursor writer proxy.track.ackSeqNo) := by
  apply h.putCursor found
  · intro _
    refine ⟨Ahead.level (by decide) ?_, fun ne => absurd rfl ne⟩
    rw [find_writer found]
    exact none_
  · exact scratch

/-- The sample in hand handed over, and the cursor at the watermark. -/
theorem Sorted.handOver (h : Sorted (· = writer) sub) (found : sub.findWriterProxy writer = some proxy)
    (none_ : ∀ i held, sub.ring i = some held → held.writer ≠ writer)
    (scratch : ∀ fast, sub.fast = some fast → fast.writer = writer →
      steps fast.seqNo proxy.track.ackSeqNo ≤ fast.placed * (64 * sub.words))
    (arriving : Option Datagram) (own : ∀ ctx, arriving = some ctx → ctx.writer = writer) :
    Sorted nobody ((match arriving with
      | none => sub
      | some ctx => sub.deliverInOrder ctx.sample).putCursor writer proxy.track.ackSeqNo) := by
  cases arriving with
  | none => exact h.level found none_ scratch
  | some ctx =>
    have given := shed_deliverInOrder sub ctx.sample
    have name : ctx.sample.writer = writer := own ctx rfl
    rw [name] at given
    obtain ⟨high, found'⟩ := given.own proxy found
    have order := sameOrder_delivered proxy high
    generalize { proxy with track := { proxy.track with highestDelivered := high } } = proxy₁ at found' order
    have level := (h.shed rfl given).level found' (fun i held here => none_ i held (given.ring_of here))
      (by rw [given.fast, given.words, order.track.ack]; exact scratch)
    rw [order.track.ack] at level
    exact level

theorem Sorted.drainEmpty (h : Sorted (· = writer) sub) (found : sub.findWriterProxy writer = some proxy)
    (none_ : sub.reorderHeld = 0) (quiet : sub.fragFastSpillIfOvertaken writer = sub)
    (scratch : ∀ fast, sub.fast = some fast → fast.writer = writer →
      steps fast.seqNo proxy.track.ackSeqNo ≤ fast.placed * (64 * sub.words))
    (arriving : Option Datagram) (own : ∀ ctx, arriving = some ctx → ctx.writer = writer) :
    Sorted nobody (sub.drainReorderWith writer arriving) := by
  have handed := h.handOver found
    (fun i held here => by rw [h.counted.none_held none_ i] at here; cases here) scratch arriving own
  unfold drainReorderWith
  rw [quiet]
  dsimp only
  rw [found]
  dsimp only
  rw [if_neg (fun both => both.1 none_)]
  dsimp only
  cases arriving with
  | none => exact handed
  | some ctx =>
    dsimp only
    rw [if_pos rfl]
    exact handed

/-! ## A sample in the scratch overtaken -/

/-- The sample put back lacks a fragment below the watermark: all of it is given up. -/
theorem drainRingAt_overtaken {fast : FastSample} {sub₁ : Subscriber} {ack : SeqNo}
    (back : PutBack sub fast proxy sub₁ proxy') (scratch : Scratch sub fast proxy)
    (placed : Placed sub₁.reorderSlots sub₁.ring proxy') (passed : fast.placed < steps fast.seqNo ack)
    (near : steps fast.seqNo ack < 2 ^ 31) :
    ∃ dealt, sub₁.drainRingAt fast.writer fast.seqNo ack = some dealt ∧ Shed fast.writer sub₁ dealt.1 ∧ 0 < dealt.2 ∧
      ∀ i, dealt.1.ring i = none := by
  have some_ := scratch.some_
  have few := scratch.few
  have open_ := scratch.open_
  have first := back.first some_
  unfold drainRingAt
  rw [first]
  dsimp only
  have parts : (fast.fragment 0).fragCount ≠ 0 := by
    change fast.count ≠ 0
    omega
  rw [if_pos parts]
  -- the next fragment has not come, so the first one missing is no later
  have next : (sub₁.heldPart fast.writer fast.seqNo fast.count fast.placed).isNone = true := by
    unfold heldPart
    cases here : sub₁.heldAt fast.writer (plus fast.seqNo fast.placed) with
    | none => rfl
    | some held =>
      obtain ⟨there, name, _⟩ := heldAt_some here
      obtain ⟨j, lt, same, _⟩ := back.ring _ held there
      rw [same] at name
      have : j = fast.placed := plus_injective (by omega) (by omega) name
      omega
  cases missing : (List.range fast.count).find?
      fun index => (sub₁.heldPart fast.writer fast.seqNo fast.count index).isNone with
  | none =>
    have := List.find?_eq_none.mp missing fast.placed (List.mem_range.mpr open_)
    exact absurd next this
  | some index =>
    obtain ⟨_, _, earlier⟩ := List.find?_range_eq_some.mp missing
    have le : index ≤ fast.placed := by
      by_contra late
      have := earlier fast.placed (by omega)
      rw [next] at this
      cases this
    have gone : ¬ 0 ≤ seqDelta (plus fast.seqNo index) ack := by
      intro still
      have := waiting_near near still (by omega)
      omega
    obtain ⟨shed, none_⟩ := shed_abandon fast.writer
      ((List.range (min (steps fast.seqNo ack) fast.count)).map (plus fast.seqNo)) sub₁
    refine ⟨_, drainFragmentedSample_missing rfl missing gone, shed, by change 0 < min _ fast.count; omega, ?_⟩
    change ∀ i, (((List.range (min (steps fast.seqNo ack) fast.count)).map (plus fast.seqNo)).foldl
      (abandonAt fast.writer) sub₁).ring i = none
    intro i
    generalize ((List.range (min (steps fast.seqNo ack) fast.count)).map (plus fast.seqNo)).foldl
      (abandonAt fast.writer) sub₁ = sub₂ at shed none_ ⊢
    cases here : sub₂.ring i with
    | none => rfl
    | some held =>
      obtain ⟨j, lt, same, _⟩ := back.ring i held (shed.ring_of here)
      have empty := none_ (plus fast.seqNo j) (List.mem_map.mpr ⟨j, List.mem_range.mpr (by omega), rfl⟩)
      obtain ⟨high, found⟩ := shed.own proxy' back.found
      have placed₂ := (sameOrder_delivered proxy' high).placed (placed.shed shed)
      rw [← shed.slots] at placed₂
      have own : held.writer = fast.writer := by rw [same]; rfl
      have seq : held.seqNo = plus fast.seqNo j := by rw [same]; rfl
      have there := placed₂.found found here own
      rw [seq, empty] at there
      cases there

/-- The first round of a walk, where the ring has something to deal with and the sample in hand is elsewhere. -/
theorem drainReorderWalk_first {ack : SeqNo} {rounds : Nat} {arriving : Option Datagram} {dealt : Subscriber × Nat}
    (elsewhere : ∀ ctx, arriving = some ctx → seqNo ≠ ctx.seqNo) (deals : sub.drainRingAt writer seqNo ack = some dealt) :
    drainReorderWalk writer ack (rounds + 1) (rounds + 1) seqNo arriving sub =
      drainReorderWalk writer ack rounds (rounds + 1 - dealt.2) (plus seqNo dealt.2) arriving dealt.1 := by
  conv_lhs => unfold drainReorderWalk
  rw [if_neg (Nat.succ_ne_zero rounds)]
  cases arriving with
  | none =>
    dsimp only
    rw [deals]
  | some ctx =>
    dsimp only
    rw [if_neg (elsewhere ctx rfl), deals]

theorem Sorted.drainOvertaken {fast : FastSample} (h : Sorted (· = fast.writer) sub) (busy : sub.fast = some fast)
    (found : sub.findWriterProxy fast.writer = some proxy)
    (overtaken : proxy.track.ackSeqNo ≠ plus fast.seqNo fast.placed) (arriving : Option Datagram)
    (hand : ∀ ctx, arriving = some ctx → ctx.writer = fast.writer ∧ fast.seqNo ≠ ctx.seqNo) :
    Sorted nobody (sub.drainReorderWith fast.writer arriving) := by
  obtain ⟨p, scratch, _⟩ := h.scratch fast busy
  have same := scratch.found
  rw [found] at same
  cases same
  have passed : fast.placed < steps fast.seqNo proxy.track.ackSeqNo := by
    have := scratch.behind
    by_contra le
    have level : steps fast.seqNo proxy.track.ackSeqNo = fast.placed := by omega
    exact overtaken (by rw [← level, plus_steps])
  obtain ⟨proxy₁, back⟩ := fragFastSpill_spec h.counted busy found (h.placed _ _ found).base
  have sorted₁ := h.spill
  have placed₁ := sorted₁.placed _ proxy₁ back.found
  obtain ⟨_, w, r, watched⟩ := sorted₁.watched _ proxy₁ back.found
  have window := watched.windowBits_le
  have near : steps fast.seqNo proxy.track.ackSeqNo < 2 ^ 31 := scratch.near
  obtain ⟨dealt, deals, shed, used, empty⟩ := drainRingAt_overtaken back scratch placed₁ passed near
  have spill : sub.fragFastSpillIfOvertaken fast.writer = sub.fragFastSpill := by
    unfold fragFastSpillIfOvertaken
    rw [busy, found]
    exact if_pos ⟨rfl, overtaken⟩
  have some_ : sub.fragFastSpill.reorderHeld ≠ 0 :=
    sorted₁.counted.some_held (heldAt_some (back.first scratch.some_)).1
  unfold drainReorderWith
  rw [spill]
  dsimp only
  rw [back.found]
  dsimp only
  rw [if_pos ⟨some_, sorted₁.counted.usable⟩, back.cursor, back.track]
  rw [back.track] at window
  generalize span : min (steps fast.seqNo proxy.track.ackSeqNo) proxy.track.windowBits = n
  obtain ⟨rounds, size⟩ : ∃ rounds, n = rounds + 1 := ⟨n - 1, by omega⟩
  rw [size, drainReorderWalk_first (fun ctx here => (hand ctx here).2) deals]
  have total : rounds + 1 ≤ steps fast.seqNo proxy.track.ackSeqNo := by omega
  obtain ⟨m, walked⟩ := drainReorderWalk_spec total rounds dealt.2 arriving dealt.1 (by omega)
    (shed.counted sorted₁.counted) (fun i held here => by rw [empty i] at here; cases here)
    (fun ctx here => ⟨(hand ctx here).1, ⟨by
      unfold heldAt
      rw [empty], fun i held there => by rw [empty i] at there; cases there⟩⟩)
  generalize drainReorderWalk fast.writer proxy.track.ackSeqNo rounds _ _ arriving dealt.1 = drained at walked ⊢
  have all := shed.trans walked.shed
  have none_ : ∀ i held, drained.sub.ring i = some held → held.writer ≠ fast.writer := by
    intro i held here
    have := walked.shed.ring_of here
    rw [empty i] at this
    cases this
  have stop : drained.stop = proxy.track.ackSeqNo := by
    rcases walked.stop with ⟨stop, _⟩ | ⟨_, _, first, here, _⟩
    · exact stop
    · exact absurd (heldAt_some here).2.2 (none_ _ first (heldAt_some here).1)
  obtain ⟨high, found₂⟩ := all.own proxy₁ back.found
  have order := sameOrder_delivered proxy₁ high
  generalize { proxy₁ with track := { proxy₁.track with highestDelivered := high } } = proxy₂ at found₂ order
  have handed := (sorted₁.shed rfl all).handOver found₂ none_
    (fun f there => by rw [all.fast, back.idle] at there; cases there) drained.arriving
    (fun ctx here => by
      rcases walked.hand with same | gone
      · exact (hand ctx (same.symm.trans here)).1
      · rw [gone] at here
        cases here)
  rw [order.track.ack, back.track] at handed
  rw [stop]
  cases turn : drained.arriving with
  | none =>
    rw [turn] at handed
    exact handed
  | some ctx =>
    rw [turn] at handed
    dsimp only
    rw [if_pos rfl]
    exact handed

end Reader

end Tickle
