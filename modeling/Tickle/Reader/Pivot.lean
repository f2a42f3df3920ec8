import Tickle.Reader.Ordered

/-! # The slots of a stream

A writer's datagrams wait in the reorder ring at the slot their seq_no maps to, measured from a pivot that follows the stream. The
stream is taken by its positions, which do not wrap: however far it goes on, and whether or not the slots divide a turn of the seq_nos,
a datagram held within a window of the watermark is found at its slot.
-/

namespace Tickle

namespace Reader

open Bits Serial

/-- One writer's part of a Subscriber: its proxy, its watermark, and the positions it has in the ring. -/
structure HeldStream where
  proxy : TrackedWriter
  watermark : Nat
  ring : Nat → Option Nat

namespace HeldStream

/-- What happens to a writer: its watermark moves on, a datagram is stored, or a slot is released. A datagram is stored after
`reorder_follow_pivot()` of a position at or `lead` before it (`frag_fast_spill()` follows the first fragment of a sample for all of
them); `free` is false where another writer's datagram has the slot. -/
inductive Event
  | moved (onto : Nat)
  | stored (position lead : Nat) (free : Bool)
  | released (slot : Nat)
  deriving DecidableEq, Repr

/-- The proxy once the pivot has followed. -/
def followed (slots : Nat) (stream : HeldStream) (position lead : Nat) : TrackedWriter :=
  Subscriber.pivotFollowed slots stream.proxy (wrap (position - lead))

def step (slots : Nat) (stream : HeldStream) : Event → HeldStream
  | .moved onto => { stream with watermark := max stream.watermark onto }
  | .stored position lead free =>
    let proxy := stream.followed slots position lead
    let slot := proxy.slot slots (wrap position)
    { stream with
      proxy
      ring := if free = true ∧ stream.ring slot = none then Function.update stream.ring slot (some position) else stream.ring }
  | .released slot => { stream with ring := Function.update stream.ring slot none }

/-- What a Subscriber stores lies no more than a window past the watermark, and what the pivot follows no more than one before it. It
lies within a window of the watermark on the other side as well, or nothing held does: the sample in the scratch, which the watermark
may have left behind when it is spilled, is there only while the ring is empty. -/
def Windowed (window : Nat) (stream : HeldStream) : Event → Prop
  | .stored position lead _ =>
    position ≤ stream.watermark + window ∧ lead ≤ window ∧ lead ≤ position ∧
      (stream.watermark ≤ position + window ∨ ∀ slot t, stream.ring slot = some t → t + window < stream.watermark)
  | _ => True

/-- The writer at first contact, `reorder_place_pivot()`. -/
def met (slots : Nat) (proxy : TrackedWriter) (first watermark : Nat) : HeldStream where
  proxy := Subscriber.reorderPlacePivot slots proxy (wrap first)
  watermark := watermark
  ring := fun _ => none

/-! ## Positions and seq_nos -/

theorem steps_wrap {t q : Nat} (before : t ≤ q) (near : q - t < 2 ^ 32) : steps (wrap t) (wrap q) = q - t := by
  have along : wrap q = plus (wrap t) (q - t) := by
    rw [← wrap_add, Nat.add_sub_cancel' before]
  rw [along, steps_plus _ near]

theorem close_wrap {t q : Nat} (after : t < q + 2 ^ 29) (before : q < t + 2 ^ 29) : Close (wrap t) (wrap q) := by
  rcases Nat.le_total t q with le | le
  · left
    rw [steps_wrap le (by omega)]
    omega
  · right
    rw [steps_wrap le (by omega)]
    omega

theorem mod_differ {slots x d : Nat} (some_ : 0 < d) (few : d < slots) : x % slots ≠ (x + d) % slots := by
  intro same
  have whole : (x + d) % slots = x % slots := same.symm
  rw [← Nat.mod_add_mod] at whole
  have small := Nat.mod_lt x (by omega : 0 < slots)
  rcases Nat.lt_or_ge (x % slots + d) slots with fits | past
  · rw [Nat.mod_eq_of_lt fits] at whole
    omega
  · rw [Nat.mod_eq_sub_mod past, Nat.mod_eq_of_lt (by omega)] at whole
    omega

variable {slots window : Nat} {stream : HeldStream} {proxy : TrackedWriter}

/-- Ahead of the pivot, positions less than the slots apart have slots of their own. -/
theorem slots_differ_ahead (few : slots < 2 ^ 16) (base : proxy.reorderBase < slots) {t p : Nat} (before : t < p)
    (apart : p - t < slots) (reach : steps proxy.reorderPivot (wrap t) < 2 ^ 31)
    (reach' : steps proxy.reorderPivot (wrap p) < 2 ^ 31) : proxy.slot slots (wrap t) ≠ proxy.slot slots (wrap p) := by
  have along : wrap p = plus (wrap t) (p - t) := by
    rw [← wrap_add, Nat.add_sub_cancel' before.le]
  have farther : steps proxy.reorderPivot (wrap p) = steps proxy.reorderPivot (wrap t) + (p - t) := by
    rw [along]
    exact steps_plus_of (by omega)
  rw [slot_eq (base.trans few) reach, slot_eq (base.trans few) reach', farther, Nat.add_right_comm]
  exact mod_differ (by omega) apart

theorem slots_differ (few : slots < 2 ^ 16) (base : proxy.reorderBase < slots) {t p : Nat} (differ : t ≠ p)
    (apart : p < t + slots) (apart' : t < p + slots) (reach : steps proxy.reorderPivot (wrap t) < 2 ^ 31)
    (reach' : steps proxy.reorderPivot (wrap p) < 2 ^ 31) : proxy.slot slots (wrap t) ≠ proxy.slot slots (wrap p) := by
  rcases Nat.lt_or_gt_of_ne differ with before | after
  · exact slots_differ_ahead few base before (by omega) reach reach'
  · exact (slots_differ_ahead few base after (by omega) reach' reach).symm

/-! ## What a run keeps -/

/-- What is held within a window of the watermark lies at its slot, ahead of the pivot. -/
structure Kept (slots window : Nat) (stream : HeldStream) : Prop where
  base : stream.proxy.reorderBase < slots
  ahead : ∀ slot t, stream.ring slot = some t → t ≤ stream.watermark + window
  place : ∀ slot t, stream.ring slot = some t → stream.watermark ≤ t + window →
    slot = stream.proxy.slot slots (wrap t) ∧ steps stream.proxy.reorderPivot (wrap t) < 2 ^ 31

theorem kept_met (some_ : 0 < slots) (proxy : TrackedWriter) (first watermark : Nat) :
    Kept slots window (met slots proxy first watermark) := by
  refine ⟨?_, fun slot t there => absurd there (by simp [met]), fun slot t there => absurd there (by simp [met])⟩
  change (if slots ≠ 0 then _ else _) < slots
  rw [if_pos some_.ne']
  exact Nat.mod_lt _ some_

/-- The pivot follows a position close to everything held. -/
theorem Kept.follow (kept : Kept slots window stream) (some_ : 0 < slots) (few : slots < 2 ^ 16) (narrow : window ≤ 2 ^ 22)
    {position lead : Nat} {free : Bool} (windowed : Windowed window stream (.stored position lead free)) :
    (stream.followed slots position lead).reorderBase < slots ∧
      steps (stream.followed slots position lead).reorderPivot (wrap position) < 2 ^ 31 ∧
      ∀ slot t, stream.ring slot = some t → stream.watermark ≤ t + window →
        (stream.followed slots position lead).slot slots (wrap t) = stream.proxy.slot slots (wrap t) ∧
          steps (stream.followed slots position lead).reorderPivot (wrap t) < 2 ^ 31 := by
  obtain ⟨ahead, short, from_, behind⟩ := windowed
  have spec := pivotFollowed_spec some_ few kept.base (wrap (position - lead))
  refine ⟨spec.base, ?_, ?_⟩
  · have along : wrap position = plus (wrap (position - lead)) lead := by
      rw [← wrap_add, Nat.sub_add_cancel from_]
    have reach := spec.reach
    unfold followed
    rw [along, steps_plus_of (by omega)]
    omega
  · intro slot t there near
    have before := kept.ahead slot t there
    have inside : stream.watermark ≤ position + window := by
      rcases behind with inside | nothing
      · exact inside
      · have := nothing slot t there
        omega
    exact spec.keeps (wrap t) (kept.place slot t there near).2 (close_wrap (by omega) (by omega))

theorem Kept.step (kept : Kept slots window stream) (some_ : 0 < slots) (few : slots < 2 ^ 16) (narrow : window ≤ 2 ^ 22)
    (event : Event) (windowed : Windowed window stream event) : Kept slots window (stream.step slots event) := by
  cases event with
  | moved onto =>
    refine ⟨kept.base, ?_, ?_⟩
    · intro slot t there
      have := kept.ahead slot t there
      change t ≤ max stream.watermark onto + window
      omega
    · intro slot t there near
      change max stream.watermark onto ≤ t + window at near
      exact kept.place slot t there (by omega)
  | stored position lead free =>
    obtain ⟨base, reach, keeps⟩ := kept.follow some_ few narrow windowed
    have old : ∀ slot t, stream.ring slot = some t → stream.watermark ≤ t + window →
        slot = (stream.followed slots position lead).slot slots (wrap t) ∧
          steps (stream.followed slots position lead).reorderPivot (wrap t) < 2 ^ 31 := by
      intro slot t there near
      obtain ⟨same, reach'⟩ := keeps slot t there near
      rw [same]
      exact ⟨(kept.place slot t there near).1, reach'⟩
    have stored : ∀ slot t, Function.update stream.ring ((stream.followed slots position lead).slot slots (wrap position))
        (some position) slot = some t →
        slot = (stream.followed slots position lead).slot slots (wrap position) ∧ t = position ∨ stream.ring slot = some t := by
      intro slot t there
      by_cases here : slot = (stream.followed slots position lead).slot slots (wrap position)
      · rw [here, Function.update_self, Option.some.injEq] at there
        exact .inl ⟨here, there.symm⟩
      · rw [Function.update_of_ne here] at there
        exact .inr there
    unfold HeldStream.step
    dsimp only
    split
    · refine ⟨base, ?_, ?_⟩
      · intro slot t there
        rcases stored slot t there with ⟨-, rfl⟩ | held
        · exact windowed.1
        · exact kept.ahead slot t held
      · intro slot t there near
        rcases stored slot t there with ⟨here, rfl⟩ | held
        · exact ⟨here, reach⟩
        · exact old slot t held near
    · exact ⟨base, kept.ahead, old⟩
  | released released =>
    have old : ∀ slot t, Function.update stream.ring released none slot = some t → stream.ring slot = some t := by
      intro slot t there
      by_cases here : slot = released
      · rw [here, Function.update_self] at there
        exact absurd there (by simp)
      · rwa [Function.update_of_ne here] at there
    exact ⟨kept.base, fun slot t there => kept.ahead slot t (old slot t there),
      fun slot t there near => kept.place slot t (old slot t there) near⟩

/-! ## A Subscriber's writer is such a stream -/

/-- The seq_no of the writer in a slot of the ring. -/
def heldOf (sub : Subscriber) (writer : Writer) (slot : Nat) : Option SeqNo :=
  ((sub.ring slot).filter fun held => held.writer = writer).map Datagram.seqNo

/-- The stream has the pivot, the base and the slots that the Subscriber has for the writer. -/
structure Shows (sub : Subscriber) (writer : Writer) (stream : HeldStream) : Prop where
  found : ∃ proxy, sub.findWriterProxy writer = some proxy ∧ proxy.reorderPivot = stream.proxy.reorderPivot ∧
    proxy.reorderBase = stream.proxy.reorderBase
  ring : ∀ slot, (stream.ring slot).map wrap = heldOf sub writer slot

theorem followed_same {proxy proxy' : TrackedWriter} (pivot : proxy.reorderPivot = proxy'.reorderPivot)
    (base : proxy.reorderBase = proxy'.reorderBase) (seqNo : SeqNo) :
    (Subscriber.pivotFollowed slots proxy seqNo).reorderPivot = (Subscriber.pivotFollowed slots proxy' seqNo).reorderPivot ∧
      (Subscriber.pivotFollowed slots proxy seqNo).reorderBase = (Subscriber.pivotFollowed slots proxy' seqNo).reorderBase := by
  unfold Subscriber.pivotFollowed
  rw [pivot, base]
  split
  · exact ⟨pivot, base⟩
  · exact ⟨rfl, rfl⟩

theorem Shows.sets {sub sub' : Subscriber} {writer : Writer} {new : TrackedWriter} (shows_ : Shows sub writer stream)
    (sets : Subscriber.Sets sub writer new sub') (pivot : new.reorderPivot = proxy.reorderPivot)
    (base : new.reorderBase = proxy.reorderBase) : Shows sub' writer { stream with proxy } := by
  refine ⟨⟨new, sets.found, pivot, base⟩, ?_⟩
  intro slot
  unfold heldOf
  rw [sets.same.ring]
  exact shows_.ring slot

theorem Shows.unreceive {sub : Subscriber} {ctx : Datagram} (shows_ : Shows sub ctx.writer stream) :
    Shows (sub.unreceive ctx) ctx.writer stream := by
  obtain ⟨proxy, found, pivot, base⟩ := shows_.found
  exact shows_.sets (Subscriber.sets_unreceive found) pivot base

/-- `hold_for_reorder()` of a datagram that fits, with nothing in the scratch, stores it or leaves it. -/
theorem Shows.holdForReorder {sub : Subscriber} {ctx : Datagram} (shows_ : Shows sub ctx.writer stream) (idle : sub.fast = none)
    (fits : ctx.payload.length ≤ sub.reorderPayloadCapacity) {position : Nat} (seqNo : ctx.seqNo = wrap position) :
    ∃ free, Shows (sub.holdForReorder ctx) ctx.writer (stream.step sub.reorderSlots (.stored position 0 free)) := by
  obtain ⟨proxy, found, pivot, base⟩ := shows_.found
  have unspilled : sub.fragFastSpill = sub := by
    unfold Subscriber.fragFastSpill
    rw [idle]
  have sets := Subscriber.sets_reorderFollowPivot found ctx.seqNo
  obtain ⟨pivot', base'⟩ := @followed_same sub.reorderSlots _ _ pivot base ctx.seqNo
  have same : Subscriber.pivotFollowed sub.reorderSlots stream.proxy ctx.seqNo =
      stream.followed sub.reorderSlots position 0 := by
    unfold followed
    rw [seqNo, Nat.sub_zero]
  rw [same] at pivot' base'
  have following : Shows (sub.reorderFollowPivot ctx.writer ctx.seqNo) ctx.writer
      { stream with proxy := stream.followed sub.reorderSlots position 0 } := shows_.sets sets pivot' base'
  have slot_ : (sub.reorderFollowPivot ctx.writer ctx.seqNo).reorderWriterSlot ctx.writer ctx.seqNo =
      (stream.followed sub.reorderSlots position 0).slot sub.reorderSlots (wrap position) := by
    rw [Subscriber.reorderWriterSlot_eq sets.found, sets.same.slots]
    unfold TrackedWriter.slot
    rw [pivot', base', seqNo]
  unfold Subscriber.holdForReorder
  dsimp only
  rw [unspilled, if_pos fits, slot_]
  obtain ⟨slot, slotDef⟩ : ∃ slot, slot = (stream.followed sub.reorderSlots position 0).slot sub.reorderSlots (wrap position) :=
    ⟨_, rfl⟩
  rw [← slotDef]
  cases there : (sub.reorderFollowPivot ctx.writer ctx.seqNo).ring slot with
  | some held =>
    -- whoever has the slot keeps it
    refine ⟨false, ?_⟩
    have stays : stream.step sub.reorderSlots (.stored position 0 false) =
        { stream with proxy := stream.followed sub.reorderSlots position 0 } := by
      unfold HeldStream.step
      simp
    rw [stays]
    dsimp only
    split
    · exact following
    · obtain ⟨proxy₂, found₂, pivot₂, base₂⟩ := following.found
      have noted := following.sets (Subscriber.sets_mapTrack found₂ fun track => Subscriber.noteCollision track held ctx) pivot₂ base₂
      exact noted.unreceive
  | none =>
    refine ⟨true, following.found, ?_⟩
    have empty : stream.ring slot = none := by
      have shown := following.ring slot
      unfold heldOf at shown
      rw [there] at shown
      exact Option.map_eq_none_iff.mp shown
    intro other
    unfold HeldStream.step
    dsimp only
    rw [← slotDef, if_pos ⟨rfl, empty⟩]
    unfold heldOf Subscriber.occupy
    dsimp only
    by_cases here : other = slot
    · rw [here, Function.update_self, Function.update_self, Option.filter_some_pos (by simp), Option.map_some, Option.map_some,
        seqNo]
    · rw [Function.update_of_ne here, Function.update_of_ne here]
      exact following.ring other

/-- `reorder_release()`. -/
theorem Shows.release {sub : Subscriber} {writer : Writer} (shows_ : Shows sub writer stream) (slot : Nat) :
    Shows (sub.reorderRelease slot) writer (stream.step slots (.released slot)) := by
  refine ⟨shows_.found, ?_⟩
  intro other
  unfold heldOf Subscriber.reorderRelease HeldStream.step
  dsimp only
  by_cases here : other = slot
  · rw [here, Function.update_self, Function.update_self]
    rfl
  · rw [Function.update_of_ne here, Function.update_of_ne here]
    exact shows_.ring other

/-! ## Every stream -/

/-- A writer not yet met. -/
def unmet : TrackedWriter := ⟨⟨0, 0⟩, .create 1, 0, 0, 0⟩

/-- A stream that goes on for 2^30 seq_nos and then has a gap. -/
def goneOn : List Event := [.moved (2 ^ 30 + 400), .stored (2 ^ 30 + 450) 0 true, .moved (2 ^ 30 + 420)]

theorem goneOn_sound : Run.Sound (step 255) (Windowed 64) (met 255 unmet 300 301) goneOn :=
  ⟨trivial, ⟨by decide, by decide, by decide, .inl (by decide)⟩, trivial, trivial⟩

end HeldStream

end Reader

end Tickle
