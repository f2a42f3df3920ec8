import Tickle.Run
import Tickle.Reader.Tracks

/-! # A reader's account of one writer's stream

`Tracker` is what a RELIABLE reader should know of a stream: the positions recorded, the watermark, and what it gave up
on. It works on positions, with no words, no bits and no wrap of the seq_no. The proxy follows it event by event
(`Follows.step`), for every width of the window and every run from the first contact on.
-/

namespace Tickle

namespace Reader

open Bits Serial Watermark

/-- What happens to a proxy in contact with its writer. -/
inductive Event where
  | arrival (seqNo : SeqNo) (span : Nat)
  | heartbeat (firstAvailableSeqNo lastSeqNo : SeqNo) (isFinal : Bool) (skips : List AcknackSkip)
  | declined (seqNo : SeqNo)
  | unreceive (seqNo : SeqNo)
  | unrecord (seqNo : SeqNo)

def WriterProxy.step (proxy : WriterProxy) : Event → WriterProxy
  | .arrival seqNo span => (proxy.updateReliableAck seqNo span).1
  | .heartbeat firstAvailableSeqNo lastSeqNo isFinal skips =>
    (proxy.informOfHeartbeat firstAvailableSeqNo lastSeqNo isFinal skips).1
  | .declined seqNo => proxy.noteDeclined seqNo
  | .unreceive seqNo => proxy.unreceive seqNo
  | .unrecord seqNo => proxy.unrecord seqNo

structure Tracker where
  window : Nat
  /-- Where the first contact put the watermark. -/
  base : Nat
  watermark : Nat
  recorded : Finset Nat
  abandoned : Nat
  evicted : Nat
  /-- Positions the watermark passed that neither arrived nor were counted. -/
  unseen : Nat
  /-- The positions below it are those the writer has shown to exist. -/
  shown : Nat

namespace Tracker

/-- What the watermark gives up on when it is put at `w'`. -/
def givenUp (t : Tracker) (w' : Nat) : Nat := w' - t.watermark - passed t.recorded t.watermark w'

/-- Datagram `p`, at or past the watermark, with the seq_nos it spans as far as the window reaches. -/
def arrive (t : Tracker) (p span : Nat) : Tracker :=
  if p < t.watermark + t.window then
    let recorded := t.recorded ∪ Finset.Ico p (min (p + max 1 span) (t.watermark + t.window))
    { t with
      recorded
      watermark := settle recorded t.watermark
      shown := max t.shown (min (p + max 1 span) (t.watermark + t.window)) }
  else
    { t with
      recorded := insert p t.recorded
      watermark := p + 1
      abandoned := t.abandoned + t.givenUp p
      shown := max t.shown (p + 1) }

/-- The writer has nothing below `p` any more. -/
def evict (t : Tracker) (p : Nat) : Tracker :=
  { t with watermark := settle t.recorded p, evicted := t.evicted + t.givenUp p }

/-- The writer has published up to `p`. -/
def announce (t : Tracker) (p : Nat) : Tracker :=
  if p < t.watermark + t.window then { t with shown := max t.shown (p + 1) }
  else
    { t with
      watermark := p + 1
      abandoned := t.abandoned + t.givenUp p
      unseen := t.unseen + 1
      shown := max t.shown (p + 1) }

def forget (t : Tracker) (p : Nat) : Tracker := { t with recorded := t.recorded.erase p }

/-- How far a seq_no lies past the watermark. -/
def offset (t : Tracker) (seqNo : SeqNo) : Nat := steps (wrap t.watermark) seqNo

def evictTo (t : Tracker) (seqNo : SeqNo) : Tracker :=
  if 1 ≤ t.offset seqNo ∧ t.offset seqNo ≤ 2 ^ 31 then t.evict (t.watermark + t.offset seqNo) else t

def announceTo (t : Tracker) (seqNo : SeqNo) : Tracker :=
  if t.offset seqNo < 2 ^ 31 then t.announce (t.watermark + t.offset seqNo) else t

def forgetAt (t : Tracker) (seqNo : SeqNo) : Tracker :=
  if t.offset seqNo < t.window then t.forget (t.watermark + t.offset seqNo) else t

/-- The writer has published up to `seqNo`, which may lie behind the watermark. -/
def show_ (t : Tracker) (seqNo : SeqNo) : Tracker :=
  if t.offset seqNo < 2 ^ 31 then { t with shown := max t.shown (t.watermark + t.offset seqNo + 1) } else t

def step (t : Tracker) : Event → Tracker
  | .arrival seqNo span => if t.offset seqNo < 2 ^ 31 then t.arrive (t.watermark + t.offset seqNo) span else t
  | .heartbeat firstAvailableSeqNo lastSeqNo _ _ => (t.evictTo firstAvailableSeqNo).announceTo lastSeqNo
  | .declined seqNo => t.show_ seqNo
  | .unreceive seqNo => t.forgetAt seqNo
  | .unrecord seqNo => t.forgetAt seqNo

/-- The state the first contact leaves. -/
def start (window base : Nat) : Tracker := ⟨window, base, base, ∅, 0, 0, 0, base⟩

end Tracker

/-! ## Fields a function leaves alone -/

/-- The proxy differs at most in what tracks. -/
structure Untouched (proxy proxy' : WriterProxy) : Prop where
  words : proxy'.words = proxy.words
  heartbeat : proxy'.heartbeatLastSeqNo = proxy.heartbeatLastSeqNo
  abandoned : proxy'.gapAbandoned = proxy.gapAbandoned
  evicted : proxy'.gapEvicted = proxy.gapEvicted

variable {proxy proxy' : WriterProxy} {w : Nat} {r : Finset Nat}

theorem Untouched.refl (proxy : WriterProxy) : Untouched proxy proxy := ⟨rfl, rfl, rfl, rfl⟩

theorem Untouched.trans {proxy'' : WriterProxy} (first : Untouched proxy proxy') (second : Untouched proxy' proxy'') :
    Untouched proxy proxy'' :=
  ⟨second.words.trans first.words, second.heartbeat.trans first.heartbeat, second.abandoned.trans first.abandoned,
    second.evicted.trans first.evicted⟩

theorem untouched_shiftReceivedOne (proxy : WriterProxy) : Untouched proxy proxy.shiftReceivedOne := by
  unfold WriterProxy.shiftReceivedOne
  split
  · exact Untouched.refl proxy
  · exact ⟨rfl, rfl, rfl, rfl⟩

theorem untouched_absorbOne (proxy : WriterProxy) : Untouched proxy proxy.absorbOne :=
  (untouched_shiftReceivedOne proxy).trans ⟨rfl, rfl, rfl, rfl⟩

theorem untouched_absorb (proxy : WriterProxy) : Untouched proxy proxy.absorb := by
  unfold WriterProxy.absorb
  apply Loop.whileN_invariant (P := Untouched proxy)
  · intro s _ kept
    exact kept.trans (untouched_absorbOne s)
  · exact Untouched.refl proxy

theorem untouched_advanceAckSeqNo (proxy : WriterProxy) : Untouched proxy proxy.advanceAckSeqNo := by
  unfold WriterProxy.advanceAckSeqNo
  have stepped : Untouched proxy { proxy with ackSeqNo := proxy.ackSeqNo + 1 } := ⟨rfl, rfl, rfl, rfl⟩
  exact (stepped.trans (untouched_shiftReceivedOne _)).trans (untouched_absorb _)

theorem untouched_absorbSeqSpanFrom (firstOffset left i : Nat) (proxy : WriterProxy) :
    Untouched proxy (WriterProxy.absorbSeqSpanFrom firstOffset left i proxy) := by
  induction left generalizing i proxy with
  | zero => exact Untouched.refl proxy
  | succ left ih =>
    unfold WriterProxy.absorbSeqSpanFrom
    split
    · exact Untouched.refl proxy
    · split
      · exact ih (i + 1) proxy
      · have marked : Untouched proxy (proxy.markReceived (firstOffset + i)) := ⟨rfl, rfl, rfl, rfl⟩
        exact marked.trans (ih (i + 1) _)

theorem untouched_recordOutOfOrderArrival (proxy : WriterProxy) (offset : Nat) :
    Untouched proxy (proxy.recordOutOfOrderArrival offset).1 := by
  unfold WriterProxy.recordOutOfOrderArrival
  split
  · exact Untouched.refl proxy
  · exact ⟨rfl, rfl, rfl, rfl⟩

/-! ## Recording and moving -/

/-- What lies behind the watermark does not show in the bitmap. -/
theorem Tracks.ahead_only {r' : Finset Nat} (tracks : Tracks proxy w r) (same : ∀ p, w ≤ p → (p ∈ r ↔ p ∈ r')) :
    Tracks proxy w r' where
  positive := tracks.positive
  narrow := tracks.narrow
  ack := tracks.ack
  bits := fun j => (tracks.bits j).trans (and_congr_right fun _ => same _ (Nat.le_add_right _ _))
  used := tracks.used
  inUse := tracks.inUse
  ahead := by
    intro p member
    by_cases past : w ≤ p
    · exact tracks.ahead p ((same p past).mpr member)
    · omega

theorem Tracks.absorbSeqSpanFrom {firstOffset left i : Nat} (tracks : Tracks proxy w r) :
    Tracks (WriterProxy.absorbSeqSpanFrom firstOffset left i proxy) w
      (r ∪ Finset.Ico (w + firstOffset + i) (min (w + firstOffset + i + left) (w + 64 * proxy.words))) := by
  induction left generalizing i proxy r with
  | zero =>
    apply tracks.ahead_only
    intro p _
    rw [Finset.mem_union, Finset.mem_Ico, or_iff_left (by omega)]
  | succ left ih =>
    unfold WriterProxy.absorbSeqSpanFrom
    rw [windowBits_eq]
    by_cases past : 64 * proxy.words ≤ firstOffset + i
    · rw [if_pos past]
      apply tracks.ahead_only
      intro p _
      rw [Finset.mem_union, Finset.mem_Ico, or_iff_left (by omega)]
    · rw [if_neg past, bitmapTestBit_eq]
      by_cases set : bit proxy.receivedBitmap (firstOffset + i) = true
      · rw [if_pos set]
        have member := (tracks.bits _).mp set
        apply (ih (i := i + 1) tracks).ahead_only
        intro p _
        simp only [Finset.mem_union, Finset.mem_Ico]
        by_cases here : p = w + (firstOffset + i)
        · rw [here]
          exact ⟨fun _ => Or.inl member.2, fun _ => Or.inl member.2⟩
        · exact or_congr_right (by omega)
      · rw [if_neg set]
        have marked := ih (i := i + 1) (tracks.mark (not_le.mp past))
        apply marked.ahead_only
        intro p _
        have words : (proxy.markReceived (firstOffset + i)).words = proxy.words := rfl
        simp only [Finset.mem_union, Finset.mem_Ico, Finset.mem_insert, words]
        rw [or_comm (a := p = _), or_assoc]
        exact or_congr_right (by omega)

theorem Tracks.advanceAckSeqNo (tracks : Tracks proxy w r) :
    Tracks proxy.advanceAckSeqNo (settle r (w + 1)) r := by
  unfold WriterProxy.advanceAckSeqNo
  apply Tracks.absorb
  have shifted := tracks.shiftOne
  apply shifted.same
  unfold WriterProxy.shiftReceivedOne
  by_cases empty : proxy.receivedWords = 0
  · simp only [empty, if_true]
    exact ⟨rfl, rfl, rfl, rfl⟩
  · simp only [empty, if_false]
    exact ⟨rfl, rfl, rfl, rfl⟩

/-- The watermark put at `w'`, past everything recorded but `w'` itself. -/
theorem Tracks.jumped {w' : Nat} (tracks : Tracks proxy w r) (past : ∀ p ∈ r, p < w') :
    Tracks (proxy.jumpAckBaseline (wrap w')) (w' + 1) r := by
  have next : settle r (w' + 1) = w' + 1 := settle_of_notMem fun member => absurd (past _ member) (by omega)
  unfold WriterProxy.jumpAckBaseline
  simp only
  rw [← next]
  apply Tracks.advanceAckSeqNo
  apply (tracks.cleared past).same
  split
  · exact ⟨rfl, rfl, rfl, rfl⟩
  · exact ⟨rfl, rfl, rfl, rfl⟩

/-! ## The announced seq_no -/

/-- A seq_no announced ahead of the watermark was shown. -/
def Announced (seqNo : SeqNo) (w shown : Nat) : Prop :=
  0 ≤ seqDelta seqNo (wrap w) → w + (seqDelta seqNo (wrap w)).toNat < shown

theorem seqDelta_wrap_add {a : SeqNo} {w n : Nat} (room : -2 ^ 31 ≤ seqDelta a (wrap w) - n) :
    seqDelta a (wrap (w + n)) = seqDelta a (wrap w) - n := by
  have range := seqDelta_range a (wrap w)
  have apart : a - wrap (w + n) = a - wrap w - BitVec.ofNat 32 n := by
    rw [wrap_add, plus, BitVec.sub_sub]
  unfold seqDelta at *
  rw [apart, BitVec.toInt_sub, BitVec.toInt_ofNat', Int.sub_bmod_bmod]
  apply Int.bmod_eq_of_le
  · omega
  · omega

/-- A watermark that moves on leaves what was announced where it is. -/
theorem Announced.move {seqNo : SeqNo} {w n shown : Nat} (known : Announced seqNo w shown)
    (room : -2 ^ 31 ≤ seqDelta seqNo (wrap w) - n) : Announced seqNo (w + n) shown := by
  intro ahead
  rw [seqDelta_wrap_add room] at ahead ⊢
  have := known (by omega)
  omega

theorem Announced.mono {seqNo : SeqNo} {w shown shown' : Nat} (known : Announced seqNo w shown) (more : shown ≤ shown') :
    Announced seqNo w shown' := fun ahead => (known ahead).trans_le more

end Reader

end Tickle
