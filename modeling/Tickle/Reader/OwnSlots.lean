import Tickle.Qos.Profile
import Tickle.Reader.Behind

/-! # A writer and its own slots

A datagram inside the window may find its slot taken by another of the same writer: what is held stretches from the cursor, which waits
behind a sample half there, to the end of the window past the watermark, and that may be further than the ring goes round.
-/

namespace Tickle

namespace Reader

open Bits Serial Subscriber

variable {sub : Subscriber} {writer : Writer} {proxy : TrackedWriter} {held ctx : Datagram}

/-- The Subscriber as it looks for the slot of a datagram: the scratch back in the ring, and the pivot closer. -/
def Subscriber.looking (sub : Subscriber) (ctx : Datagram) : Subscriber :=
  sub.fragFastSpill.reorderFollowPivot ctx.writer ctx.seqNo

/-- The slot of the datagram has none of its writer's other datagrams. -/
def FreeOfOwn (sub : Subscriber) (ctx : Datagram) : Prop :=
  ∀ held, (sub.looking ctx).ring ((sub.looking ctx).reorderWriterSlot ctx.writer ctx.seqNo) = some held →
    held.writer = ctx.writer → held.seqNo = ctx.seqNo

/-- None of the writer's other datagrams lies a whole number of rings away, counted from where a drain starts. -/
def NoWholeRing (sub : Subscriber) (proxy : TrackedWriter) (ctx : Datagram) : Prop :=
  ∀ i held, sub.fragFastSpill.ring i = some held → held.writer = ctx.writer → held.seqNo ≠ ctx.seqNo →
    steps (drainStart sub proxy) held.seqNo % sub.reorderSlots ≠ steps (drainStart sub proxy) ctx.seqNo % sub.reorderSlots

/-- Two seq_nos are as far apart seen from one place as from another, while neither sees them far. -/
theorem steps_apart {c p s t : SeqNo} (nearS : steps c s < 2 ^ 30) (nearT : steps c t < 2 ^ 30) (aheadS : steps p s < 2 ^ 31)
    (aheadT : steps p t < 2 ^ 31) : (steps p t : Int) - steps p s = steps c t - steps c s := by
  unfold steps at *
  bv_omega

theorem mod_apart {n b x y x' y' : Nat} (same : (y : Int) - x = y' - x') :
    (x + b) % n = (y + b) % n ↔ x' % n = y' % n := by
  have left : (x + b) % n = (y + b) % n ↔ (n : Int) ∣ (y : Int) - x := by
    rw [show (x + b) % n = (y + b) % n ↔ x + b ≡ y + b [MOD n] from Iff.rfl, Nat.modEq_iff_dvd]
    push_cast
    rw [add_sub_add_right_eq_sub]
  have right : x' % n = y' % n ↔ (n : Int) ∣ (y' : Int) - x' := Nat.modEq_iff_dvd
  rw [left, right, same]

theorem Sorted.spill_slots (h : Sorted nobody sub) : sub.fragFastSpill.reorderSlots = sub.reorderSlots := by
  cases busy : sub.fast with
  | none => rw [fragFastSpill_idle busy]
  | some fast =>
    obtain ⟨proxy, scratch, -⟩ := h.scratch fast busy
    obtain ⟨_, back⟩ := fragFastSpill_spec h.counted busy scratch.found (h.placed _ _ scratch.found).base
    exact back.slots

/-- In a state that keeps its order, a datagram inside the window finds its slot free of the writer's other ones exactly when none of
them lies a whole number of rings away. -/
theorem Sorted.freeOfOwn_iff (h : Sorted nobody sub) (found : sub.findWriterProxy ctx.writer = some proxy)
    (inside : steps proxy.track.ackSeqNo ctx.seqNo < proxy.track.windowBits) :
    FreeOfOwn sub ctx ↔ NoWholeRing sub proxy ctx := by
  have spilled := h.spill
  obtain ⟨idle, proxy₁, found₁, track, cursor, -⟩ := h.spilled found
  have slots : sub.fragFastSpill.reorderSlots = sub.reorderSlots := h.spill_slots
  unfold FreeOfOwn NoWholeRing looking
  rw [← cursor, ← slots]
  rw [← track] at inside
  generalize sub.fragFastSpill = sub₁ at *
  have name := find_writer found₁
  have placed := spilled.placed _ proxy₁ found₁
  obtain ⟨ahead, -⟩ := spilled.ahead _ proxy₁ found₁ id (fragFastHolds_idle idle _)
  obtain ⟨-, w, r, watched⟩ := spilled.watched _ proxy₁ found₁
  have narrow := watched.windowBits_le
  have lag := ahead.lag
  unfold farthest at lag
  have far := steps_trans (show steps proxy₁.reorderCursor proxy₁.track.ackSeqNo + steps proxy₁.track.ackSeqNo ctx.seqNo < 2 ^ 32
    by omega)
  have spec := pivotFollowed_spec spilled.counted.some_ spilled.counted.few placed.base ctx.seqNo
  have sets := sets_reorderFollowPivot found₁ ctx.seqNo
  rw [reorderWriterSlot_eq sets.found, sets.same.ring, sets.same.slots]
  generalize pivotFollowed sub₁.reorderSlots proxy₁ ctx.seqNo = proxy₂ at spec sets ⊢
  -- where a datagram of the writer lies, and when that is where the one looked for goes
  have shares : ∀ i held, sub₁.ring i = some held → held.writer = ctx.writer →
      (i = proxy₂.slot sub₁.reorderSlots ctx.seqNo ↔
        steps proxy₁.reorderCursor held.seqNo % sub₁.reorderSlots = steps proxy₁.reorderCursor ctx.seqNo % sub₁.reorderSlots) := by
    intro i held here own
    have mine := own.trans name.symm
    have near := ahead.ahead i held here mine
    have close : Close held.seqNo ctx.seqNo := by
      unfold Close steps at *
      bv_omega
    obtain ⟨stays, reach⟩ := spec.keeps held.seqNo (placed.reach i held here mine) close
    have few := spilled.counted.few
    have base := spec.base
    have apart := steps_apart (c := proxy₁.reorderCursor) (p := proxy₂.reorderPivot) (s := held.seqNo) (t := ctx.seqNo)
      (by omega) (by omega) reach (by have := spec.reach; omega)
    rw [placed.place i held here mine, ← stays, slot_eq (by omega) reach, slot_eq (by omega) (by have := spec.reach; omega)]
    exact mod_apart apart
  constructor
  · intro free i held here own differ same
    have there := (shares i held here own).mpr same
    exact differ (free held (there ▸ here) own)
  · intro apart held here own
    by_contra differ
    exact apart _ held here own differ ((shares _ held here own).mp rfl)

/-- DATA 1 and 5, and the first of three fragments at 2: the cursor waits there, one behind the watermark. -/
def halfThere : List Subscriber.Event :=
  [.data (someDatagram 1 0) 1 true, .data (someDatagram 5 0) 1 true, .fragment (someDatagram 2 3) true false]

end Reader

end Tickle
