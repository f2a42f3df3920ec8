import Tickle.Reader.Drain
import Tickle.Reader.Watched

/-! # Every datagram of the ring in its place

`Sorted` is what a Subscriber keeps from one arrival to the next, for every writer it tracks: each held datagram lies in
the slot its seq_no maps to, from the writer's cursor on, within a window of the watermark and recorded past it; a cursor
behind the watermark has a fragment to wait behind. While one writer is being dealt with, what is said of its cursor and
watermark is left open (`but`).
-/

namespace Tickle

namespace Reader

open Bits Serial Watermark

/-! ## The pivot -/

/-- Two seq_nos of one stretch of a stream. -/
def Close (s t : SeqNo) : Prop := steps s t < 2 ^ 29 ∨ steps t s < 2 ^ 29

theorem pivot_moved {pivot seqNo s : SeqNo} (far : 2 ^ 30 ≤ steps pivot seqNo) (ahead : steps pivot s < 2 ^ 31)
    (close : Close s seqNo) :
    (steps pivot s : Int) = steps (seqNo - 0x20000000#32) s + seqDelta (seqNo - 0x20000000#32) pivot ∧
      steps (seqNo - 0x20000000#32) s < 2 ^ 31 := by
  unfold Close at close
  unfold seqDelta steps at *
  rw [BitVec.toInt_eq_toNat_cond]
  constructor
  · split <;> bv_omega
  · bv_omega

/-- The base moved by as much as the pivot, modulo the slots. -/
theorem tmod_step {slots b x x' : Nat} {d : Int} (some_ : 0 < slots) (same : (x : Int) = x' + d) :
    (x' + ((((b : Int) + d.tmod slots + slots).tmod slots).toNat)) % slots = (x + b) % slots := by
  have pos : (0 : Int) < slots := by exact_mod_cast some_
  have low : -(slots : Int) < d.tmod slots := Int.lt_tmod_of_pos _ pos
  have nonneg : 0 ≤ (b : Int) + d.tmod slots + slots := by omega
  rw [Int.tmod_eq_emod_of_nonneg nonneg]
  have split_ := Int.mul_tdiv_add_tmod d slots
  have rest := Int.mul_ediv_add_emod ((b : Int) + d.tmod slots + slots) slots
  have small := Int.emod_nonneg ((b : Int) + d.tmod slots + slots) pos.ne'
  zify
  rw [Int.toNat_of_nonneg small]
  have whole : (x' : Int) + ((b : Int) + d.tmod slots + slots) % slots =
      (x + b) + slots * (1 - d.tdiv slots - ((b : Int) + d.tmod slots + slots) / slots) := by
    rw [mul_sub, mul_sub]
    linarith
  rw [whole, Int.add_mul_emod_self_left]

variable {slots : Nat} {proxy proxy' : TrackedWriter} {seqNo s : SeqNo}

theorem slot_eq (base : proxy.reorderBase < 2 ^ 16) (ahead : steps proxy.reorderPivot s < 2 ^ 31) :
    proxy.slot slots s = (steps proxy.reorderPivot s + proxy.reorderBase) % slots := by
  unfold TrackedWriter.slot
  unfold steps at *
  have base' : proxy.reorderBase < 2 ^ 32 := by omega
  have sum : (s - proxy.reorderPivot).toNat + proxy.reorderBase < 2 ^ 32 := by omega
  rw [BitVec.toNat_add, BitVec.toNat_ofNat, Nat.mod_eq_of_lt base', Nat.mod_eq_of_lt sum]

/-- What `reorder_follow_pivot` keeps: the slot of every seq_no close to the one it follows. -/
structure FollowedTo (slots : Nat) (proxy : TrackedWriter) (seqNo : SeqNo) (proxy' : TrackedWriter) : Prop where
  writer : proxy'.writer = proxy.writer
  track : proxy'.track = proxy.track
  cursor : proxy'.reorderCursor = proxy.reorderCursor
  base : proxy'.reorderBase < slots
  reach : steps proxy'.reorderPivot seqNo < 2 ^ 30
  keeps : ∀ s, steps proxy.reorderPivot s < 2 ^ 31 → Close s seqNo →
    proxy'.slot slots s = proxy.slot slots s ∧ steps proxy'.reorderPivot s < 2 ^ 31

theorem pivotFollowed_spec (some_ : 0 < slots) (few : slots < 2 ^ 16) (base : proxy.reorderBase < slots) (seqNo : SeqNo) :
    FollowedTo slots proxy seqNo (Subscriber.pivotFollowed slots proxy seqNo) := by
  unfold Subscriber.pivotFollowed
  by_cases near : steps proxy.reorderPivot seqNo < Subscriber.reorderPivotReach
  · rw [if_pos (.inr near)]
    exact ⟨rfl, rfl, rfl, base, near, fun s ahead _ => ⟨rfl, ahead⟩⟩
  · rw [if_neg (by rintro (none_ | reach) <;> omega)]
    dsimp only
    generalize lead : seqNo - Subscriber.reorderPivotLead = pivot
    have pos : (0 : Int) < slots := by exact_mod_cast some_
    have small := Int.tmod_lt_of_pos ((proxy.reorderBase : Int) + (seqDelta pivot proxy.reorderPivot).tmod slots + slots)
      pos
    generalize moved : (((proxy.reorderBase : Int) + (seqDelta pivot proxy.reorderPivot).tmod slots + slots).tmod
      slots).toNat = base' at small
    have inside : base' < slots := by omega
    refine ⟨rfl, rfl, rfl, inside, ?_, ?_⟩
    · rw [← lead]
      unfold steps Subscriber.reorderPivotLead
      bv_omega
    · intro s ahead close
      obtain ⟨same, ahead'⟩ := pivot_moved (not_lt.mp near) ahead close
      have lead' : seqNo - 0x20000000#32 = pivot := lead
      rw [lead'] at same ahead'
      have there : steps ({ proxy with reorderBase := base', reorderPivot := pivot } : TrackedWriter).reorderPivot s <
          2 ^ 31 := ahead'
      refine ⟨?_, ahead'⟩
      rw [slot_eq (inside.trans few) there, slot_eq (base.trans few) ahead, ← moved]
      exact tmod_step some_ same

/-! ## The invariant -/

/-- The writer's datagrams lie where their seq_nos map to, from the pivot on. -/
structure Placed (slots : Nat) (ring : Nat → Option Datagram) (proxy : TrackedWriter) : Prop where
  base : proxy.reorderBase < slots
  place : ∀ i held, ring i = some held → held.writer = proxy.writer → i = proxy.slot slots held.seqNo
  reach : ∀ i held, ring i = some held → held.writer = proxy.writer → steps proxy.reorderPivot held.seqNo < 2 ^ 31

/-- The writer's datagrams lie from its cursor on to a window past its watermark, and past the watermark they are
recorded; the watermark is less than `far` past the cursor. -/
structure Ahead (far : Nat) (ring : Nat → Option Datagram) (proxy : TrackedWriter) : Prop where
  lag : steps proxy.reorderCursor proxy.track.ackSeqNo < far
  ahead : ∀ i held, ring i = some held → held.writer = proxy.writer →
    steps proxy.reorderCursor held.seqNo < steps proxy.reorderCursor proxy.track.ackSeqNo + proxy.track.windowBits
  recorded : ∀ i held, ring i = some held → held.writer = proxy.writer →
    steps proxy.reorderCursor proxy.track.ackSeqNo ≤ steps proxy.reorderCursor held.seqNo →
    bit proxy.track.receivedBitmap (steps proxy.track.ackSeqNo held.seqNo) = true

/-- How far the watermark may be past a cursor between two arrivals. -/
def farthest : Nat := 2 ^ 28

/-- The sample in the scratch: its fragments came in order, one each. -/
structure Scratch (sub : Subscriber) (fast : FastSample) (proxy : TrackedWriter) : Prop where
  found : sub.findWriterProxy fast.writer = some proxy
  some_ : 0 < fast.placed
  open_ : fast.placed < fast.count
  few : fast.count ≤ 64
  behind : fast.placed ≤ steps fast.seqNo proxy.track.ackSeqNo
  near : steps fast.seqNo proxy.track.ackSeqNo < 2 ^ 31

structure Sorted (but : Writer → Prop) (sub : Subscriber) : Prop where
  counted : sub.Counted
  tracking : 0 < sub.words ∧ sub.words < 2 ^ 16
  short : ∀ i held, sub.ring i = some held → held.fragCount ≤ 64
  tracked : ∀ i held, sub.ring i = some held → ∃ proxy, sub.findWriterProxy held.writer = some proxy
  watched : ∀ writer proxy, sub.findWriterProxy writer = some proxy →
    proxy.track.words = sub.words ∧ ∃ w r, Watched proxy.track w r
  placed : ∀ writer proxy, sub.findWriterProxy writer = some proxy → Placed sub.reorderSlots sub.ring proxy
  ahead : ∀ writer proxy, sub.findWriterProxy writer = some proxy → ¬ but writer → sub.fragFastHolds writer = false →
    Ahead farthest sub.ring proxy ∧
      (proxy.reorderCursor ≠ proxy.track.ackSeqNo → ∃ held, sub.heldAt writer proxy.reorderCursor = some held)
  scratch : ∀ fast, sub.fast = some fast → ∃ proxy, Scratch sub fast proxy ∧
    (¬ but fast.writer → steps fast.seqNo proxy.track.ackSeqNo ≤ fast.placed * (64 * sub.words))

variable {but : Writer → Prop} {sub sub' : Subscriber} {writer other : Writer} {held ctx : Datagram} {index : Nat}

/-- What is held of a tracked writer is found where it lies. -/
theorem Placed.found (placed : Placed sub.reorderSlots sub.ring proxy) (found : sub.findWriterProxy writer = some proxy)
    (here : sub.ring index = some held) (own : held.writer = writer) : sub.heldAt writer held.seqNo = some held := by
  rw [Subscriber.heldAt_eq found]
  have := placed.place index held here (own.trans (Subscriber.find_writer found).symm)
  rw [← this]
  exact ⟨here, rfl, own⟩

theorem Sorted.weaken {but' : Writer → Prop} (h : Sorted but sub) (more : ∀ writer, but writer → but' writer) :
    Sorted but' sub where
  counted := h.counted
  tracking := h.tracking
  short := h.short
  tracked := h.tracked
  watched := h.watched
  placed := h.placed
  ahead := fun writer proxy found no => h.ahead writer proxy found fun yes => no (more writer yes)
  scratch := by
    intro fast here
    obtain ⟨proxy, scratch, near⟩ := h.scratch fast here
    exact ⟨proxy, scratch, fun no => near fun yes => no (more _ yes)⟩

/-! ## The scratch spilled -/

namespace Subscriber

/-- The first `n` fragments of the scratch in the ring, which was empty: each in its slot, those that found it free. -/
structure Spilled (fast : FastSample) (sub : Subscriber) (n : Nat) (sub' : Subscriber) : Prop where
  words : sub'.words = sub.words
  durable : sub'.durable = sub.durable
  slots : sub'.reorderSlots = sub.reorderSlots
  slotBytes : sub'.reorderSlotBytes = sub.reorderSlotBytes
  peers : sub'.peers = sub.peers
  longest : sub'.maxSampleLength = sub.maxSampleLength
  table : sub'.writers = sub.writers
  idle : sub'.fast = none
  ring : ∀ i held, sub'.ring i = some held →
    ∃ j < n, held = fast.fragment j ∧ i = sub.reorderWriterSlot fast.writer (plus fast.seqNo j)
  first : 0 < n → sub'.ring (sub.reorderWriterSlot fast.writer fast.seqNo) = some (fast.fragment 0)
  counted : sub'.Counted

theorem spilled_range (fast : FastSample) (h : sub.Counted) (idle : sub.fast = none) (empty : ∀ i, sub.ring i = none)
    (n : Nat) : Spilled fast sub n ((List.range n).foldl (spillOne fast) sub) := by
  induction n with
  | zero =>
    refine ⟨rfl, rfl, rfl, rfl, rfl, rfl, rfl, idle, ?_, fun some_ => absurd some_ (Nat.lt_irrefl 0), h⟩
    intro i held here
    rw [List.range_zero, List.foldl_nil, empty i] at here
    cases here
  | succ n ih =>
    rw [List.range_succ, List.foldl_append, List.foldl_cons, List.foldl_nil]
    generalize (List.range n).foldl (spillOne fast) sub = mid at ih ⊢
    have slot : mid.reorderWriterSlot fast.writer (plus fast.seqNo n) =
        sub.reorderWriterSlot fast.writer (plus fast.seqNo n) := by
      unfold reorderWriterSlot findWriterProxy
      rw [ih.table, ih.slots]
    have inside := reorderWriterSlot_lt h.some_ fast.writer (plus fast.seqNo n)
    unfold spillOne
    dsimp only
    rw [slot]
    by_cases taken : (mid.ring (sub.reorderWriterSlot fast.writer (plus fast.seqNo n))).isSome
    · rw [if_pos taken]
      refine ⟨ih.words, ih.durable, ih.slots, ih.slotBytes, ih.peers, ih.longest, ih.table, ih.idle, ?_, ?_, ih.counted⟩
      · intro i held here
        obtain ⟨j, lt, there⟩ := ih.ring i held here
        exact ⟨j, by omega, there⟩
      · intro _
        by_cases some_ : 0 < n
        · exact ih.first some_
        · -- nothing is there before the first fragment
          have zero : n = 0 := by omega
          obtain ⟨held, here⟩ := Option.isSome_iff_exists.mp taken
          obtain ⟨j, lt, _⟩ := ih.ring _ held here
          omega
    · rw [if_neg taken]
      have free : mid.ring (sub.reorderWriterSlot fast.writer (plus fast.seqNo n)) = none := by simpa using taken
      refine ⟨ih.words, ih.durable, ih.slots, ih.slotBytes, ih.peers, ih.longest, ih.table, ih.idle, ?_, ?_, ?_⟩
      · intro i held here
        have here : Function.update mid.ring _ (some (fast.fragment n)) i = some held := here
        by_cases same : i = sub.reorderWriterSlot fast.writer (plus fast.seqNo n)
        · rw [same, Function.update_self] at here
          cases here
          exact ⟨n, by omega, rfl, same⟩
        · rw [Function.update_of_ne same] at here
          obtain ⟨j, lt, there⟩ := ih.ring i held here
          exact ⟨j, by omega, there⟩
      · intro _
        change Function.update mid.ring _ (some (fast.fragment n)) _ = _
        by_cases zero : n = 0
        · subst zero
          rw [plus_zero, Function.update_self]
        · have there := ih.first (Nat.pos_of_ne_zero zero)
          rw [Function.update_of_ne]
          · exact there
          · intro same
            rw [← same, there] at free
            cases free
      · exact ih.counted.occupy free (ih.slots ▸ inside) ih.idle _

/-- The scratch put back: the ring, empty before, holds its fragments, and the cursor is at its start. -/
structure PutBack (sub : Subscriber) (fast : FastSample) (proxy : TrackedWriter) (sub' : Subscriber)
    (proxy' : TrackedWriter) : Prop where
  words : sub'.words = sub.words
  durable : sub'.durable = sub.durable
  slots : sub'.reorderSlots = sub.reorderSlots
  slotBytes : sub'.reorderSlotBytes = sub.reorderSlotBytes
  peers : sub'.peers = sub.peers
  table : sub'.writers.length = sub.writers.length
  found : sub'.findWriterProxy fast.writer = some proxy'
  track : proxy'.track = proxy.track
  cursor : proxy'.reorderCursor = fast.seqNo
  base : proxy'.reorderBase < sub.reorderSlots
  reach : steps proxy'.reorderPivot fast.seqNo < 2 ^ 30
  others : ∀ other, other ≠ fast.writer → sub'.findWriterProxy other = sub.findWriterProxy other
  idle : sub'.fast = none
  ring : ∀ i held, sub'.ring i = some held →
    ∃ j < fast.placed, held = fast.fragment j ∧ i = proxy'.slot sub.reorderSlots (plus fast.seqNo j)
  first : 0 < fast.placed → sub'.heldAt fast.writer fast.seqNo = some (fast.fragment 0)
  counted : sub'.Counted

theorem fragFastSpill_spec {fast : FastSample} (h : sub.Counted) (busy : sub.fast = some fast)
    (found : sub.findWriterProxy fast.writer = some proxy) (base : proxy.reorderBase < sub.reorderSlots) :
    ∃ proxy', PutBack sub fast proxy sub.fragFastSpill proxy' := by
  have none_ : sub.reorderHeld = 0 := h.alone (by rw [busy]; rfl)
  have empty := h.none_held none_
  have followed := pivotFollowed_spec h.some_ h.few base fast.seqNo
  unfold fragFastSpill
  rw [busy]
  dsimp only
  have bare : { sub with fast := none }.findWriterProxy fast.writer = some proxy := found
  have sets := sets_reorderFollowPivot bare fast.seqNo
  have counted₀ : { sub with fast := none }.Counted :=
    ⟨h.some_, h.few, h.usable, h.within, h.held, by simp⟩
  generalize { sub with fast := none }.reorderFollowPivot fast.writer fast.seqNo = start at sets
  have idle : start.fast = none := sets.same.fast
  have spilled := spilled_range fast (sets.same.counted counted₀) idle
    (fun i => by rw [sets.same.ring]; exact empty i) fast.placed
  generalize (List.range fast.placed).foldl (spillOne fast) start = full at spilled ⊢
  have found₁ : full.findWriterProxy fast.writer = some (pivotFollowed sub.reorderSlots proxy fast.seqNo) := by
    unfold findWriterProxy
    rw [spilled.table]
    exact sets.found
  have cursor := sets_putCursor found₁ fast.seqNo
  have slot : ∀ s, start.reorderWriterSlot fast.writer s =
      (pivotFollowed sub.reorderSlots proxy fast.seqNo).slot sub.reorderSlots s := by
    intro s
    rw [reorderWriterSlot_eq sets.found, sets.same.slots]
  refine ⟨_, cursor.same.words.trans (spilled.words.trans sets.same.words),
    cursor.same.durable.trans (spilled.durable.trans sets.same.durable),
    cursor.same.slots.trans (spilled.slots.trans sets.same.slots),
    cursor.same.slotBytes.trans (spilled.slotBytes.trans sets.same.slotBytes),
    cursor.same.peers.trans (spilled.peers.trans sets.same.peers), ?_, cursor.found, followed.track, rfl, followed.base,
    followed.reach, ?_, cursor.same.fast.trans spilled.idle, ?_, ?_, cursor.same.counted spilled.counted⟩
  · rw [cursor.table, spilled.table, sets.table]
  · intro other ne
    have kept : full.findWriterProxy other = start.findWriterProxy other := by
      unfold findWriterProxy
      rw [spilled.table]
    exact (cursor.others other ne).trans (kept.trans (sets.others other ne))
  · intro i held here
    rw [cursor.same.ring] at here
    obtain ⟨j, lt, same, place⟩ := spilled.ring i held here
    exact ⟨j, lt, same, place.trans (slot _)⟩
  · intro some_
    have first := spilled.first some_
    rw [slot, ← cursor.same.ring] at first
    rw [heldAt_eq cursor.found, cursor.same.slots, spilled.slots, sets.same.slots]
    exact ⟨first, plus_zero _, rfl⟩

end Subscriber

open Subscriber

theorem fragFastHolds_iff : sub.fragFastHolds writer = true ↔ ∃ fast, sub.fast = some fast ∧ fast.writer = writer := by
  unfold fragFastHolds
  cases sub.fast with
  | none => simp
  | some fast => simp

theorem fragFastHolds_idle (idle : sub.fast = none) (writer : Writer) : sub.fragFastHolds writer = false := by
  unfold fragFastHolds
  rw [idle]

theorem Placed.empty (none_ : ∀ i held, sub.ring i = some held → held.writer ≠ proxy.writer)
    (base : proxy.reorderBase < slots) : Placed slots sub.ring proxy where
  base := base
  place := fun i held here own => absurd own (none_ i held here)
  reach := fun i held here own => absurd own (none_ i held here)

theorem Ahead.empty {far : Nat} (none_ : ∀ i held, sub.ring i = some held → held.writer ≠ proxy.writer)
    (lag : steps proxy.reorderCursor proxy.track.ackSeqNo < far) : Ahead far sub.ring proxy where
  lag := lag
  ahead := fun i held here own => absurd own (none_ i held here)
  recorded := fun i held here own => absurd own (none_ i held here)

/-- A writer with nothing in the ring or the scratch is not waiting. -/
theorem Sorted.caught_up (h : Sorted but sub) (found : sub.findWriterProxy writer = some proxy) (no : ¬ but writer)
    (idle : sub.fragFastHolds writer = false) (none_ : ∀ i held, sub.ring i = some held → held.writer ≠ writer) :
    proxy.reorderCursor = proxy.track.ackSeqNo := by
  by_contra behind
  obtain ⟨held, here⟩ := (h.ahead writer proxy found no idle).2 behind
  obtain ⟨there, _, own⟩ := heldAt_some here
  exact none_ _ held there own

theorem placed_window {placed words : Nat} (few : placed < 64) (narrow : words < 2 ^ 16) :
    placed * (64 * words) < farthest := by
  have : placed * (64 * words) ≤ 63 * (64 * words) := Nat.mul_le_mul_right _ (by omega)
  unfold farthest
  omega

theorem Sorted.putBack {fast : FastSample} (h : Sorted but sub) (busy : sub.fast = some fast)
    (scratch : Scratch sub fast proxy)
    (near : ¬ but fast.writer → steps fast.seqNo proxy.track.ackSeqNo ≤ fast.placed * (64 * sub.words))
    (back : PutBack sub fast proxy sub' proxy') : Sorted but sub' := by
  have none_ : ∀ i, sub.ring i = none := h.counted.none_held (h.counted.alone (by rw [busy]; rfl))
  have few := scratch.few
  have open_ := scratch.open_
  have behind := scratch.behind
  have name : proxy'.writer = fast.writer := find_writer back.found
  have theirs : ∀ other, other ≠ fast.writer → ∀ i held, sub'.ring i = some held → held.writer ≠ other := by
    intro other ne i held here own
    obtain ⟨j, _, same, _⟩ := back.ring i held here
    rw [same] at own
    exact ne own.symm
  have step : ∀ j < fast.placed, steps fast.seqNo (plus fast.seqNo j) = j := fun j lt => steps_plus _ (by omega)
  refine ⟨back.counted, back.words ▸ h.tracking, ?_, ?_, ?_, ?_, ?_, ?_⟩
  · intro i held here
    obtain ⟨j, _, same, _⟩ := back.ring i held here
    rw [same]
    exact few
  · intro i held here
    obtain ⟨j, _, same, _⟩ := back.ring i held here
    rw [same]
    exact ⟨proxy', back.found⟩
  · intro writer other found
    rw [back.words]
    by_cases here : writer = fast.writer
    · rw [here, back.found] at found
      cases found
      rw [back.track]
      exact h.watched _ _ scratch.found
    · rw [back.others writer here] at found
      exact h.watched writer other found
  · intro writer other found
    rw [back.slots]
    by_cases here : writer = fast.writer
    · rw [here, back.found] at found
      cases found
      refine ⟨back.base, ?_, ?_⟩
      · intro i held here _
        obtain ⟨j, _, same, place⟩ := back.ring i held here
        rw [same]
        exact place
      · intro i held here _
        obtain ⟨j, lt, same, _⟩ := back.ring i held here
        have reach := back.reach
        rw [same]
        change steps proxy'.reorderPivot (plus fast.seqNo j) < 2 ^ 31
        rw [steps_plus_of (by omega)]
        omega
    · rw [back.others writer here] at found
      apply Placed.empty
      · rw [find_writer found]
        exact theirs writer here
      · exact (h.placed writer other found).base
  · intro writer other found no _
    by_cases here : writer = fast.writer
    · rw [here, back.found] at found
      cases found
      have near := near (here ▸ no)
      have far := placed_window (show fast.placed < 64 by omega) h.tracking.2
      refine ⟨⟨?_, ?_, ?_⟩, ?_⟩
      · rw [back.cursor, back.track]
        omega
      · intro i held there _
        obtain ⟨j, lt, same, _⟩ := back.ring i held there
        rw [back.cursor, back.track, same]
        change steps fast.seqNo (plus fast.seqNo j) < _
        rw [step j lt]
        omega
      · intro i held there _ past
        obtain ⟨j, lt, same, _⟩ := back.ring i held there
        rw [back.cursor, back.track, same] at past
        change _ ≤ steps fast.seqNo (plus fast.seqNo j) at past
        rw [step j lt] at past
        omega
      · intro _
        rw [back.cursor, here]
        exact ⟨_, back.first scratch.some_⟩
    · rw [back.others writer here] at found
      have idle : sub.fragFastHolds writer = false := by
        rw [← Bool.not_eq_true, fragFastHolds_iff]
        rintro ⟨other, there, own⟩
        rw [busy] at there
        cases there
        exact here own.symm
      have level := h.caught_up found no idle (fun i held there => by rw [none_ i] at there; cases there)
      refine ⟨Ahead.empty ?_ (h.ahead writer other found no idle).1.lag, fun behind => absurd level behind⟩
      rw [find_writer found]
      exact theirs writer here
  · intro other here
    rw [back.idle] at here
    cases here

theorem Sorted.spill (h : Sorted but sub) : Sorted but sub.fragFastSpill := by
  cases busy : sub.fast with
  | none =>
    rw [fragFastSpill_idle busy]
    exact h
  | some fast =>
    obtain ⟨proxy, scratch, near⟩ := h.scratch fast busy
    obtain ⟨proxy', back⟩ := fragFastSpill_spec h.counted busy scratch.found (h.placed _ _ scratch.found).base
    exact h.putBack busy scratch near back

/-! ## One proxy written -/

theorem SameRing.fastHolds (same : SameRing sub sub') (writer : Writer) :
    sub'.fragFastHolds writer = sub.fragFastHolds writer := by
  unfold fragFastHolds
  rw [same.fast]

/-- The counters and what was delivered change. -/
theorem Sorted.same_ring (h : Sorted but sub) (same : SameRing sub sub') (table : sub'.writers = sub.writers) :
    Sorted but sub' := by
  have find : ∀ writer, sub'.findWriterProxy writer = sub.findWriterProxy writer := by
    intro writer
    unfold findWriterProxy
    rw [table]
  have places : ∀ writer seqNo, sub'.heldAt writer seqNo = sub.heldAt writer seqNo := by
    intro writer seqNo
    unfold heldAt reorderWriterSlot
    rw [find, same.ring, same.slots]
  refine ⟨same.counted h.counted, same.words ▸ h.tracking, same.ring ▸ h.short, ?_, ?_, ?_, ?_, ?_⟩
  · intro i held here
    rw [same.ring] at here
    rw [find]
    exact h.tracked i held here
  · intro writer proxy found
    rw [find] at found
    rw [same.words]
    exact h.watched writer proxy found
  · intro writer proxy found
    rw [find] at found
    rw [same.slots, same.ring]
    exact h.placed writer proxy found
  · intro writer proxy found no idle
    rw [find] at found
    rw [SameRing.fastHolds same] at idle
    rw [same.ring, places]
    exact h.ahead writer proxy found no idle
  · intro fast busy
    rw [same.fast] at busy
    obtain ⟨proxy, old, near⟩ := h.scratch fast busy
    rw [same.words]
    exact ⟨proxy, ⟨(find _).trans old.found, old.some_, old.open_, old.few, old.behind, old.near⟩, near⟩

/-- One writer's proxy is written: what is to be shown is about that writer alone. -/
theorem Sorted.sets {but' : Writer → Prop} {new : TrackedWriter} (h : Sorted but sub) (sets : Sets sub writer new sub')
    (others : ∀ other, other ≠ writer → but other → but' other)
    (watched : new.track.words = sub.words ∧ ∃ w r, Watched new.track w r) (placed : Placed sub.reorderSlots sub.ring new)
    (ahead : ¬ but' writer → sub.fragFastHolds writer = false → Ahead farthest sub.ring new ∧
      (new.reorderCursor ≠ new.track.ackSeqNo → ∃ held, sub'.heldAt writer new.reorderCursor = some held))
    (scratch : ∀ fast, sub.fast = some fast → fast.writer = writer →
      fast.placed ≤ steps fast.seqNo new.track.ackSeqNo ∧ steps fast.seqNo new.track.ackSeqNo < 2 ^ 31 ∧
        (¬ but' writer → steps fast.seqNo new.track.ackSeqNo ≤ fast.placed * (64 * sub.words))) :
    Sorted but' sub' := by
  have same := sets.same
  refine ⟨same.counted h.counted, same.words ▸ h.tracking, same.ring ▸ h.short, ?_, ?_, ?_, ?_, ?_⟩
  · intro i held here
    rw [same.ring] at here
    by_cases own : held.writer = writer
    · rw [own]
      exact ⟨new, sets.found⟩
    · rw [sets.others _ own]
      exact h.tracked i held here
  · intro other proxy found
    rw [same.words]
    by_cases own : other = writer
    · rw [own, sets.found] at found
      cases found
      exact watched
    · rw [sets.others _ own] at found
      exact h.watched other proxy found
  · intro other proxy found
    rw [same.slots, same.ring]
    by_cases own : other = writer
    · rw [own, sets.found] at found
      cases found
      exact placed
    · rw [sets.others _ own] at found
      exact h.placed other proxy found
  · intro other proxy found no idle
    rw [SameRing.fastHolds same] at idle
    by_cases own : other = writer
    · rw [own, sets.found] at found
      cases found
      rw [same.ring, own]
      exact ahead (own ▸ no) (own ▸ idle)
    · rw [sets.others _ own] at found
      rw [same.ring, sets.heldAt_other own]
      exact h.ahead other proxy found (fun yes => no (others other own yes)) idle
  · intro fast here
    rw [same.fast] at here
    rw [same.words]
    obtain ⟨proxy, old, near⟩ := h.scratch fast here
    by_cases own : fast.writer = writer
    · obtain ⟨behind, far, near'⟩ := scratch fast here own
      exact ⟨new, ⟨own ▸ sets.found, old.some_, old.open_, old.few, behind, far⟩, fun no => near' (own ▸ no)⟩
    · refine ⟨proxy, ⟨?_, old.some_, old.open_, old.few, old.behind, old.near⟩, ?_⟩
      · rw [sets.others _ own]
        exact old.found
      · exact fun no => near fun yes => no (others _ own yes)

/-- What the cursor of a writer with the same places has there. -/
theorem heldAt_same_places (found : sub.findWriterProxy writer = some proxy)
    (found' : sub'.findWriterProxy writer = some proxy') (ring : sub'.ring = sub.ring)
    (slot : proxy'.slot sub'.reorderSlots seqNo = proxy.slot sub.reorderSlots seqNo) :
    sub'.heldAt writer seqNo = sub.heldAt writer seqNo := by
  unfold heldAt
  rw [reorderWriterSlot_eq found, reorderWriterSlot_eq found', slot, ring]

/-- A proxy that differs in nothing that orders. -/
structure SameOrder (proxy proxy' : TrackedWriter) : Prop where
  writer : proxy'.writer = proxy.writer
  cursor : proxy'.reorderCursor = proxy.reorderCursor
  pivot : proxy'.reorderPivot = proxy.reorderPivot
  base : proxy'.reorderBase = proxy.reorderBase
  track : SameTrack proxy.track proxy'.track

theorem SameOrder.slot (same : SameOrder proxy proxy') (slots : Nat) (s : SeqNo) :
    proxy'.slot slots s = proxy.slot slots s := by
  unfold TrackedWriter.slot
  rw [same.pivot, same.base]

theorem SameOrder.placed (same : SameOrder proxy proxy') {ring : Nat → Option Datagram} (placed : Placed slots ring proxy) :
    Placed slots ring proxy' where
  base := same.base ▸ placed.base
  place := by
    intro i held here own
    rw [same.slot]
    exact placed.place i held here (own.trans same.writer)
  reach := by
    intro i held here own
    rw [same.pivot]
    exact placed.reach i held here (own.trans same.writer)

theorem SameTrack.windowBits {track track' : WriterProxy} (same : SameTrack track track') :
    track'.windowBits = track.windowBits := by
  rw [windowBits_eq, windowBits_eq, same.words]

theorem SameOrder.ahead {far : Nat} (same : SameOrder proxy proxy') {ring : Nat → Option Datagram}
    (ahead : Ahead far ring proxy) : Ahead far ring proxy' where
  lag := by
    rw [same.cursor, same.track.ack]
    exact ahead.lag
  ahead := by
    intro i held here own
    rw [same.cursor, same.track.ack, SameTrack.windowBits same.track]
    exact ahead.ahead i held here (own.trans same.writer)
  recorded := by
    intro i held here own past
    rw [same.cursor, same.track.ack] at past
    rw [same.track.ack, same.track.bitmap]
    exact ahead.recorded i held here (own.trans same.writer) past

/-- Fields that do not order a writer change. -/
theorem Sorted.same_order {new : TrackedWriter} (h : Sorted but sub) (found : sub.findWriterProxy writer = some proxy)
    (same : SameOrder proxy new) (sets : Sets sub writer new sub') : Sorted but sub' := by
  obtain ⟨words, w, r, watched⟩ := h.watched writer proxy found
  apply h.sets sets (fun _ _ => id)
  · exact ⟨same.track.words.trans words, w, r, watched.same same.track⟩
  · exact same.placed (h.placed writer proxy found)
  · intro no idle
    obtain ⟨ahead, waits⟩ := h.ahead writer proxy found no idle
    refine ⟨same.ahead ahead, ?_⟩
    intro behind
    rw [same.cursor, same.track.ack] at behind
    rw [same.cursor, heldAt_same_places found sets.found sets.same.ring]
    · exact waits behind
    · rw [sets.same.slots]
      exact same.slot _ _
  · intro fast here own
    rw [same.track.ack]
    obtain ⟨p, scratch, near⟩ := h.scratch fast here
    have found' := scratch.found
    rw [own, found] at found'
    cases found'
    exact ⟨scratch.behind, scratch.near, fun no => near (own ▸ no)⟩

/-- The pivot follows a seq_no close to everything the writer has held. -/
theorem Sorted.followPivot (h : Sorted but sub) (found : sub.findWriterProxy writer = some proxy)
    (close : ∀ i held, sub.ring i = some held → held.writer = writer → Close held.seqNo seqNo) :
    Sorted but (sub.reorderFollowPivot writer seqNo) := by
  have name := find_writer found
  have placed := h.placed writer proxy found
  have followed := pivotFollowed_spec h.counted.some_ h.counted.few placed.base seqNo
  have sets := sets_reorderFollowPivot found seqNo
  generalize pivotFollowed sub.reorderSlots proxy seqNo = new at followed sets
  apply h.sets sets (fun _ _ => id)
  · rw [followed.track]
    exact h.watched writer proxy found
  · refine ⟨followed.base, ?_, ?_⟩
    · intro i held here own
      have own := own.trans followed.writer
      rw [(followed.keeps _ (placed.reach i held here own) (close i held here (own.trans name))).1]
      exact placed.place i held here own
    · intro i held here own
      have own := own.trans followed.writer
      exact (followed.keeps _ (placed.reach i held here own) (close i held here (own.trans name))).2
  · intro no idle
    obtain ⟨ahead, waits⟩ := h.ahead writer proxy found no idle
    refine ⟨⟨?_, ?_, ?_⟩, ?_⟩
    · rw [followed.cursor, followed.track]
      exact ahead.lag
    · intro i held here own
      rw [followed.cursor, followed.track]
      exact ahead.ahead i held here (own.trans followed.writer)
    · intro i held here own
      rw [followed.cursor, followed.track]
      exact ahead.recorded i held here (own.trans followed.writer)
    · intro behind
      rw [followed.cursor, followed.track] at behind
      obtain ⟨held, here⟩ := waits behind
      rw [followed.cursor]
      refine ⟨held, ?_⟩
      obtain ⟨there, seq, own⟩ := heldAt_some here
      rw [heldAt_same_places found sets.found sets.same.ring]
      · exact here
      · rw [sets.same.slots]
        have reach := placed.reach _ held there (own.trans name.symm)
        have close := close _ held there own
        rw [seq] at reach close
        exact (followed.keeps _ reach close).1
  · intro fast here own
    rw [followed.track]
    obtain ⟨p, scratch, near⟩ := h.scratch fast here
    have found' := scratch.found
    rw [own, found] at found'
    cases found'
    exact ⟨scratch.behind, scratch.near, fun no => near (own ▸ no)⟩

/-! ## A slot taken, a datagram un-received -/

theorem heldAt_occupy (free : sub.ring index = none) (here : sub.heldAt writer seqNo = some held) :
    (sub.occupy index ctx).heldAt writer seqNo = some held := by
  obtain ⟨there, seq, own⟩ := heldAt_some here
  unfold heldAt
  have slot : (sub.occupy index ctx).reorderWriterSlot writer seqNo = sub.reorderWriterSlot writer seqNo := rfl
  have ne : sub.reorderWriterSlot writer seqNo ≠ index := by
    intro same
    rw [same, free] at there
    cases there
  have kept : (sub.occupy index ctx).ring (sub.reorderWriterSlot writer seqNo) =
      sub.ring (sub.reorderWriterSlot writer seqNo) := Function.update_of_ne ne _ _
  rw [slot, kept, there]
  simp [seq, own]

theorem ring_occupy {i : Nat} (here : (sub.occupy index ctx).ring i = some held) :
    i = index ∧ held = ctx ∨ sub.ring i = some held := by
  have here : Function.update sub.ring index (some ctx) i = some held := here
  by_cases same : i = index
  · rw [same, Function.update_self] at here
    cases here
    exact .inl ⟨same, rfl⟩
  · rw [Function.update_of_ne same] at here
    exact .inr here

/-- The datagram goes to the free slot its seq_no maps to. -/
theorem Sorted.occupy (h : Sorted but sub) (idle : sub.fast = none) (found : sub.findWriterProxy ctx.writer = some proxy)
    (free : sub.ring (proxy.slot sub.reorderSlots ctx.seqNo) = none) (short : ctx.fragCount ≤ 64)
    (reach : steps proxy.reorderPivot ctx.seqNo < 2 ^ 31)
    (inside : ¬ but ctx.writer →
      steps proxy.reorderCursor ctx.seqNo < steps proxy.reorderCursor proxy.track.ackSeqNo + proxy.track.windowBits)
    (recorded : ¬ but ctx.writer → steps proxy.reorderCursor proxy.track.ackSeqNo ≤ steps proxy.reorderCursor ctx.seqNo →
      bit proxy.track.receivedBitmap (steps proxy.track.ackSeqNo ctx.seqNo) = true) :
    Sorted but (sub.occupy (proxy.slot sub.reorderSlots ctx.seqNo) ctx) := by
  have slot : sub.reorderWriterSlot ctx.writer ctx.seqNo = proxy.slot sub.reorderSlots ctx.seqNo :=
    reorderWriterSlot_eq found ctx.seqNo
  have lt : proxy.slot sub.reorderSlots ctx.seqNo < sub.reorderSlots := by
    rw [← slot]
    exact reorderWriterSlot_lt h.counted.some_ _ _
  refine ⟨h.counted.occupy free lt idle ctx, h.tracking, ?_, ?_, h.watched, ?_, ?_, ?_⟩
  · intro i held here
    rcases ring_occupy here with ⟨_, same⟩ | old
    · rw [same]
      exact short
    · exact h.short i held old
  · intro i held here
    rcases ring_occupy here with ⟨_, same⟩ | old
    · rw [same]
      exact ⟨proxy, found⟩
    · exact h.tracked i held old
  · intro writer other found'
    have placed := h.placed writer other found'
    refine ⟨placed.base, ?_, ?_⟩
    · intro i held here own
      rcases ring_occupy here with ⟨place, same⟩ | old
      · rw [same] at own ⊢
        rw [find_unique found found' own]
        exact place
      · exact placed.place i held old own
    · intro i held here own
      rcases ring_occupy here with ⟨_, same⟩ | old
      · rw [same] at own ⊢
        rw [find_unique found found' own]
        exact reach
      · exact placed.reach i held old own
  · intro writer other found' no free'
    obtain ⟨ahead, waits⟩ := h.ahead writer other found' no free'
    refine ⟨⟨ahead.lag, ?_, ?_⟩, ?_⟩
    · intro i held here own
      rcases ring_occupy here with ⟨_, same⟩ | old
      · rw [same] at own ⊢
        rw [find_unique found found' own]
        rw [own, find_writer found'] at inside
        exact inside no
      · exact ahead.ahead i held old own
    · intro i held here own past
      rcases ring_occupy here with ⟨_, same⟩ | old
      · rw [same] at own past ⊢
        have unique := find_unique found found' own
        rw [own, find_writer found'] at recorded
        rw [unique] at past ⊢
        exact recorded no past
      · exact ahead.recorded i held old own past
    · intro behind
      obtain ⟨held, here⟩ := waits behind
      exact ⟨held, heldAt_occupy free here⟩
  · intro fast here
    have here : sub.fast = some fast := here
    rw [idle] at here
    cases here

theorem unreceive_fields (track : WriterProxy) (seqNo : SeqNo) :
    (track.unreceive seqNo).words = track.words ∧ (track.unreceive seqNo).ackSeqNo = track.ackSeqNo := by
  unfold WriterProxy.unreceive
  dsimp only
  split
  · exact ⟨rfl, rfl⟩
  · exact ⟨rfl, rfl⟩

/-- The bit of another datagram stays. -/
theorem Watched.bit_unreceive {track : WriterProxy} {w : Nat} {r : Finset Nat} (watched : Watched track w r)
    (ne : s ≠ seqNo) (set : bit track.receivedBitmap (steps track.ackSeqNo s) = true) :
    bit (track.unreceive seqNo).receivedBitmap (steps track.ackSeqNo s) = true := by
  obtain ⟨inside, member⟩ := (watched.tracks.bits _).mp set
  rw [(watched.unreceive seqNo).tracks.bits, (unreceive_fields track seqNo).1, Finset.mem_erase]
  refine ⟨inside, ?_, member⟩
  intro same
  apply ne
  rw [← plus_steps track.ackSeqNo s, ← plus_steps track.ackSeqNo seqNo]
  congr 1
  omega

/-- A datagram nothing holds is un-received. -/
theorem Sorted.unreceive (h : Sorted but sub) (found : sub.findWriterProxy ctx.writer = some proxy)
    (absent : ∀ i held, sub.ring i = some held → held.writer = ctx.writer → held.seqNo ≠ ctx.seqNo) :
    Sorted but (sub.unreceive ctx) := by
  obtain ⟨words, w, r, watched⟩ := h.watched _ proxy found
  have name := find_writer found
  have sets := sets_unreceive found
  obtain ⟨words', ack⟩ := unreceive_fields proxy.track ctx.seqNo
  have window : (proxy.track.unreceive ctx.seqNo).windowBits = proxy.track.windowBits := by
    rw [windowBits_eq, windowBits_eq, words']
  have placed := h.placed _ proxy found
  apply h.sets sets (fun _ _ => id)
  · exact ⟨words'.trans words, w, _, watched.unreceive ctx.seqNo⟩
  · exact ⟨placed.base, placed.place, placed.reach⟩
  · intro no idle
    obtain ⟨ahead, waits⟩ := h.ahead _ proxy found no idle
    dsimp only
    rw [ack]
    refine ⟨⟨?_, ?_, ?_⟩, ?_⟩
    · dsimp only
      rw [ack]
      exact ahead.lag
    · intro i held here own
      dsimp only
      rw [ack, window]
      exact ahead.ahead i held here own
    · intro i held here own past
      dsimp only at past ⊢
      rw [ack] at past ⊢
      exact watched.bit_unreceive (absent i held here (own.trans name)) (ahead.recorded i held here own past)
    · intro behind
      obtain ⟨held, here⟩ := waits behind
      refine ⟨held, ?_⟩
      rw [heldAt_same_places found sets.found sets.same.ring]
      · exact here
      · rw [sets.same.slots]
        rfl
  · intro fast here own
    dsimp only
    rw [ack]
    obtain ⟨p, scratch, near⟩ := h.scratch fast here
    have found' := scratch.found
    rw [own, found] at found'
    cases found'
    exact ⟨scratch.behind, scratch.near, fun no => near (own ▸ no)⟩

/-! ## Holding -/

theorem close_of {c t : SeqNo} (near : steps c s < 2 ^ 29) (near' : steps c t < 2 ^ 29) : Close s t := by
  unfold Close steps at *
  bv_omega

/-- What holding a datagram leaves: the ring has at most that datagram more, and the writer's proxy stands as it did. -/
structure Holds (sub : Subscriber) (ctx : Datagram) (proxy : TrackedWriter) (sub' : Subscriber) (proxy' : TrackedWriter) :
    Prop where
  slots : sub'.reorderSlots = sub.reorderSlots
  found : sub'.findWriterProxy ctx.writer = some proxy'
  cursor : proxy'.reorderCursor = proxy.reorderCursor
  ack : proxy'.track.ackSeqNo = proxy.track.ackSeqNo
  words : proxy'.track.words = proxy.track.words
  bits : ∀ s, s ≠ ctx.seqNo → bit proxy.track.receivedBitmap (steps proxy.track.ackSeqNo s) = true →
    bit proxy'.track.receivedBitmap (steps proxy.track.ackSeqNo s) = true
  ring : ∀ i held, sub'.ring i = some held → sub.ring i = some held ∨ held.writer = ctx.writer ∧ held.seqNo = ctx.seqNo
  kept : ∀ i held, sub.ring i = some held → sub'.ring i = some held

theorem sameTrack_noteCollision (track : WriterProxy) (held ctx : Datagram) :
    SameTrack track (noteCollision track held ctx) := by
  unfold noteCollision
  split
  · exact ⟨rfl, rfl, rfl, rfl⟩
  · exact ⟨rfl, rfl, rfl, rfl⟩

/-- A datagram not held yet, close to everything its writer has held, with nothing in the scratch. -/
theorem Sorted.holdIdle (h : Sorted but sub) (idle : sub.fast = none) (found : sub.findWriterProxy ctx.writer = some proxy)
    (absent : ∀ i held, sub.ring i = some held → held.writer = ctx.writer → held.seqNo ≠ ctx.seqNo)
    (close : ∀ i held, sub.ring i = some held → held.writer = ctx.writer → Close held.seqNo ctx.seqNo)
    (inside : ¬ but ctx.writer →
      steps proxy.reorderCursor ctx.seqNo < steps proxy.reorderCursor proxy.track.ackSeqNo + proxy.track.windowBits)
    (recorded : ¬ but ctx.writer → steps proxy.reorderCursor proxy.track.ackSeqNo ≤ steps proxy.reorderCursor ctx.seqNo →
      bit proxy.track.receivedBitmap (steps proxy.track.ackSeqNo ctx.seqNo) = true) :
    Sorted but (sub.holdForReorder ctx) ∧ ∃ proxy', Holds sub ctx proxy (sub.holdForReorder ctx) proxy' := by
  obtain ⟨_, w, r, watched⟩ := h.watched _ proxy found
  have unreceived : ∀ {sub₁ : Subscriber} {proxy₁ : TrackedWriter}, Sorted but sub₁ →
      Sets sub ctx.writer proxy₁ sub₁ → SameTrack proxy.track proxy₁.track →
      proxy₁.reorderCursor = proxy.reorderCursor →
      Sorted but (sub₁.unreceive ctx) ∧ ∃ proxy', Holds sub ctx proxy (sub₁.unreceive ctx) proxy' := by
    intro sub₁ proxy₁ sorted sets same cursor
    have lost := sets_unreceive sets.found
    obtain ⟨words, ack⟩ := unreceive_fields proxy₁.track ctx.seqNo
    refine ⟨sorted.unreceive sets.found (by rw [sets.same.ring]; exact absent), _, lost.same.slots.trans sets.same.slots,
      lost.found, cursor, ack.trans same.ack, words.trans same.words, ?_, ?_, ?_⟩
    · intro s ne set
      have watched₁ := watched.same same
      rw [← same.ack] at set ⊢
      exact watched₁.bit_unreceive ne (by rw [same.bitmap]; exact set)
    · intro i held here
      rw [lost.same.ring, sets.same.ring] at here
      exact .inl here
    · intro i held here
      rw [lost.same.ring, sets.same.ring]
      exact here
  unfold holdForReorder
  rw [fragFastSpill_idle idle]
  dsimp only
  by_cases fits : ctx.payload.length ≤ sub.reorderPayloadCapacity
  · rw [if_pos fits]
    have followed := pivotFollowed_spec h.counted.some_ h.counted.few (h.placed _ proxy found).base ctx.seqNo
    have sets := sets_reorderFollowPivot found ctx.seqNo
    have sorted := h.followPivot found close
    generalize pivotFollowed sub.reorderSlots proxy ctx.seqNo = proxy₁ at followed sets
    generalize sub.reorderFollowPivot ctx.writer ctx.seqNo = sub₁ at sets sorted ⊢
    have same : SameTrack proxy.track proxy₁.track := by
      rw [followed.track]
      exact ⟨rfl, rfl, rfl, rfl⟩
    have slot := reorderWriterSlot_eq sets.found ctx.seqNo
    have slots := sets.same.slots
    cases here : sub₁.ring (sub₁.reorderWriterSlot ctx.writer ctx.seqNo) with
    | some held =>
      dsimp only
      by_cases own : held.seqNo = ctx.seqNo ∧ held.writer = ctx.writer
      · rw [sets.same.ring] at here
        exact absurd own.1 (absent _ held here own.2)
      · rw [if_neg own]
        have noted := sets_mapTrack sets.found fun track => noteCollision track held ctx
        have order : SameOrder proxy₁ { proxy₁ with track := noteCollision proxy₁.track held ctx } :=
          ⟨rfl, rfl, rfl, rfl, sameTrack_noteCollision proxy₁.track held ctx⟩
        have sorted' := sorted.same_order sets.found order noted
        exact unreceived sorted' (sets.trans noted)
          (same.trans (sameTrack_noteCollision proxy₁.track held ctx)) followed.cursor
    | none =>
      dsimp only
      rw [slot] at here ⊢
      refine ⟨?_, proxy₁, slots, sets.found, followed.cursor, same.ack, same.words, ?_, ?_, ?_⟩
      · have reach : steps proxy₁.reorderPivot ctx.seqNo < 2 ^ 31 := followed.reach.trans (by decide)
        exact @Sorted.occupy proxy₁ but sub₁ { ctx with fragIndex := 0, fragCount := 0 } sorted
          (sets.same.fast.trans idle) sets.found here (Nat.zero_le _) reach
          (by rw [followed.cursor, followed.track]; exact inside) (by rw [followed.cursor, followed.track]; exact recorded)
      · intro s _ set
        rw [same.bitmap]
        exact set
      · intro i held there
        rcases ring_occupy there with ⟨_, same⟩ | old
        · rw [same]
          exact .inr ⟨rfl, rfl⟩
        · rw [sets.same.ring] at old
          exact .inl old
      · intro i held there
        have ne : i ≠ proxy₁.slot sub₁.reorderSlots ctx.seqNo := by
          intro same
          rw [← same, sets.same.ring, there] at here
          cases here
        change Function.update sub₁.ring _ _ i = _
        rw [Function.update_of_ne ne, sets.same.ring]
        exact there
  · rw [if_neg fits]
    exact unreceived h ⟨SameRing.refl sub, found, fun _ _ => rfl, rfl⟩ ⟨rfl, rfl, rfl, rfl⟩ rfl

end Reader

end Tickle
