import Tickle.Writer.Admits

/-! # KEEP_ALL

A KEEP_ALL Publisher refuses a sample rather than evict one that a matched Subscriber still lacks. The
acknowledgements are compared serially, rounded down to a whole sample (`keepAllAckedThrough_spec`) and
held against the count bound and the simulated eviction; the real eviction then stops at the first
sample that is owed (`Entered.gone_acked`).
-/

namespace Tickle

open Serial Loop RingArena

/-! ## The lowest acknowledgement -/

/-- The acknowledgements recorded. -/
def ackSeqNos (acks : List (Option PeerAck)) : List SeqNo :=
  acks.filterMap fun entry => entry.map PeerAck.ackSeqNo

/-- Serial comparison orders these as their distance from `o` does. -/
def Comparable (o : SeqNo) (xs : List SeqNo) : Prop :=
  ∀ x ∈ xs, ∀ y ∈ xs, seqDelta x y = seqDelta x o - seqDelta y o

theorem Comparable.mono {o : SeqNo} {xs ys : List SeqNo} (h : Comparable o ys)
    (hsub : ∀ x ∈ xs, x ∈ ys) : Comparable o xs :=
  fun x hx y hy => h x (hsub x hx) y (hsub y hy)

theorem foldl_peerAckLower {o : SeqNo} (acks : List (Option PeerAck)) (low : SeqNo)
    (h : Comparable o (low :: ackSeqNos acks)) :
    ∃ x, acks.foldl peerAckLower (some low) = some x ∧ x ∈ low :: ackSeqNos acks ∧
      ∀ y ∈ low :: ackSeqNos acks, seqDelta x o ≤ seqDelta y o := by
  induction acks generalizing low with
  | nil => exact ⟨low, rfl, by simp, by simp [ackSeqNos]⟩
  | cons entry acks ih =>
    cases entry with
    | none =>
      obtain ⟨x, hx, hmem, hle⟩ := ih low (h.mono (by simp [ackSeqNos]))
      exact ⟨x, hx, by simpa [ackSeqNos] using hmem, by simpa [ackSeqNos] using hle⟩
    | some ack =>
      have hall : ackSeqNos (some ack :: acks) = ack.ackSeqNo :: ackSeqNos acks := by
        simp [ackSeqNos]
      rw [hall] at h ⊢
      have hd := h ack.ackSeqNo (by simp) low (by simp)
      rw [List.foldl_cons, peerAckLower]
      split
      · next hlt =>
        obtain ⟨x, hx, hmem, hle⟩ := ih ack.ackSeqNo (h.mono fun z hz => List.mem_cons_of_mem _ hz)
        refine ⟨x, hx, List.mem_cons_of_mem _ hmem, fun y hy => ?_⟩
        rcases List.mem_cons.mp hy with rfl | hy
        · have := hle ack.ackSeqNo (by simp)
          omega
        · exact hle y hy
      · next hge =>
        obtain ⟨x, hx, hmem, hle⟩ := ih low (h.mono (by
          intro z hz
          rcases List.mem_cons.mp hz with rfl | hz
          · simp
          · simp [hz]))
        refine ⟨x, hx, ?_, fun y hy => ?_⟩
        · rcases List.mem_cons.mp hmem with rfl | hmem
          · simp
          · simp [hmem]
        · rcases List.mem_cons.mp hy with rfl | hy
          · exact hle y (by simp)
          · rcases List.mem_cons.mp hy with rfl | hy
            · have := hle low (by simp)
              omega
            · exact hle y (by simp [hy])

namespace Publisher

variable {node : Context} {pub : Publisher}

/-- The lowest acknowledgement is one of them, and none lies before it. -/
theorem peerAckLowest_spec {o : SeqNo} (hm : pub.anyPeerAckMatched = true)
    (h : Comparable o (ackSeqNos pub.peerAcks)) :
    ∃ low, pub.peerAckLowest = some low ∧ low ∈ ackSeqNos pub.peerAcks ∧
      ∀ y ∈ ackSeqNos pub.peerAcks, seqDelta low o ≤ seqDelta y o := by
  unfold peerAckLowest
  unfold anyPeerAckMatched at hm
  generalize pub.peerAcks = acks at *
  induction acks with
  | nil => simp at hm
  | cons entry acks ih =>
    cases entry with
    | none => exact ih (by simpa using hm) (by simpa [ackSeqNos] using h)
    | some ack =>
      have hall : ackSeqNos (some ack :: acks) = ack.ackSeqNo :: ackSeqNos acks := by
        simp [ackSeqNos]
      rw [hall] at h ⊢
      exact foldl_peerAckLower acks ack.ackSeqNo h

/-- Every recorded acknowledgement lies within `2 ^ 30` of the next seq_no. -/
def AckNear (pub : Publisher) : Prop :=
  ∀ x ∈ ackSeqNos pub.peerAcks,
    -2 ^ 30 < seqDelta x (pub.seqNo + 1) ∧ seqDelta x (pub.seqNo + 1) < 2 ^ 30

theorem AckNear.comparable (h : AckNear pub) :
    Comparable (pub.seqNo + 1) (ackSeqNos pub.peerAcks) := by
  intro x hx y hy
  have hx := h x hx
  have hy := h y hy
  exact seqDelta_sub (by omega) (by omega) (by omega)

end Publisher

/-! ## Rounding down to a whole sample -/

namespace ReliableCache

variable {c : ReliableCache} {d : Nat}

theorem recordContinues_eq (c : ReliableCache) (d : Nat) (x : SeqNo) :
    c.recordContinues d x = (c.retained d x).any Record.continues := by
  unfold recordContinues retained
  split
  · rfl
  · unfold entryContinues
    cases c.slotLive d x <;> simp

theorem Stored.recordContinues_iff {groups : List (List Held)} (hs : c.Stored d groups) {x : SeqNo} :
    c.recordContinues d x = true ↔ ∃ h ∈ groups.flatten, h.seqNo = x ∧ h.continues = true := by
  rw [recordContinues_eq]
  constructor
  · intro h
    cases hr : c.retained d x with
    | none => rw [hr] at h; cases h
    | some r =>
      rw [hr] at h
      obtain ⟨y, hy, hseq, hrec⟩ := hs.retained_eq.mp hr
      exact ⟨y, hy, hseq, by rw [Held.continues, hrec]; exact h⟩
  · rintro ⟨y, hy, hseq, hcont⟩
    obtain ⟨r, hr, _⟩ := hs.records y hy
    rw [hs.retained_eq.mpr ⟨y, hy, hseq, hr⟩]
    rwa [Held.continues, hr] at hcont

/-- The oldest record is no continuation. -/
theorem Stored.oldest_not_continues {groups : List (List Held)} (hs : c.Stored d groups) :
    c.recordContinues d c.oldestSeqNo = false := by
  cases hc : c.recordContinues d c.oldestSeqNo with
  | false => rfl
  | true =>
    obtain ⟨y, hy, hseq, hcont⟩ := hs.recordContinues_iff.mp hc
    rw [← hs.grouped.held] at hy
    obtain ⟨hret, i, hi, hplus, hat⟩ := mem_held hy
    have hlive := hs.grouped.settled hret
    rw [hseq, heldAt_of_live hlive, Option.some.injEq] at hat
    have hhead := flatten_head_not_continues hs.grouped.samples
    rw [← hs.grouped.held, hs.grouped.settled.held_cons hret, hat] at hhead
    simp [hcont] at hhead

end ReliableCache

namespace Publisher

variable {pub : Publisher} {old left : List (List Held)}

/-- `keep_all_acked_through()`: `r` seq_nos below the lowest acknowledgement's predecessor, across
continuations only, and no sample is cut by it. -/
theorem keepAllAckedThrough_spec {groups : List (List Held)}
    (hs : pub.reliableCache.Stored pub.reliableCache.ringDepth groups) :
    ∃ r ≤ 65536, plus pub.keepAllAckedThrough r = pub.peerAckLowest.getD (pub.seqNo + 1) - 1 ∧
      pub.reliableCache.recordContinues pub.reliableCache.ringDepth
        (pub.keepAllAckedThrough + 1) = false ∧
      ∀ j < r, pub.reliableCache.recordContinues pub.reliableCache.ringDepth
        (plus pub.keepAllAckedThrough (j + 2)) = true := by
  have hd0 := hs.grouped.ranged.depth_pos
  have hdlt := hs.grouped.ranged.depth_lt
  unfold keepAllAckedThrough
  simp only
  rw [if_neg (by omega)]
  generalize pub.peerAckLowest.getD (pub.seqNo + 1) - 1 = acked
  generalize hcd : pub.reliableCache.ringDepth = d at *
  generalize pub.reliableCache = c at *
  -- a round is taken only inside the retained run, behind its first record
  have hround : ∀ a : SeqNo, c.recordContinues d (a + 1) = true →
      c.retains = true ∧ 0 < steps c.oldestSeqNo (a + 1) ∧
        steps c.oldestSeqNo (a + 1) ≤ steps c.oldestSeqNo c.newestSeqNo := by
    intro a ha
    obtain ⟨y, hy, hseq, _⟩ := hs.recordContinues_iff.mp ha
    rw [← hs.grouped.held] at hy
    obtain ⟨hret, i, hi, hplus, _⟩ := ReliableCache.mem_held hy
    have hlt := steps_lt c.oldestSeqNo c.newestSeqNo
    have hi' : steps c.oldestSeqNo (a + 1) = i := by
      rw [← hseq, hplus, steps_plus _ (by omega)]
    refine ⟨hret, ?_, by omega⟩
    rcases Nat.eq_zero_or_pos (steps c.oldestSeqNo (a + 1)) with h0 | h0
    · rw [← steps_eq_zero.mp h0, hs.oldest_not_continues] at ha
      cases ha
    · exact h0
  have hpred : ∀ a : SeqNo, a - 1 + 1 = a := fun a => by bv_omega
  have hdown : ∀ a : SeqNo, c.recordContinues d (a + 1) = true →
      steps c.oldestSeqNo a + 1 = steps c.oldestSeqNo (a + 1) := by
    intro a ha
    have h1 := (hround a ha).2.1
    unfold steps at *
    bv_omega
  have hexit := @whileN_exit SeqNo (fun a => c.recordContinues d (a + 1)) (fun a => a - 1)
    (fun _ => True) (fun a => if c.recordContinues d (a + 1) then steps c.oldestSeqNo (a + 1) else 0)
    (fun _ _ _ => trivial) (by
      intro a ha _
      have h1 := hround a ha
      have h2 := hdown a ha
      simp only [hpred, ha, if_true]
      split <;> omega) (steps c.oldestSeqNo c.newestSeqNo + 1) acked trivial (by
      split
      · next ha =>
        have := hround acked ha
        omega
      · omega)
  -- what the rounds passed, counted down from the newest seq_no they can start at
  have hinv := @whileN_invariant SeqNo (fun a => c.recordContinues d (a + 1)) (fun a => a - 1)
    (fun a => ∃ r, plus a r = acked ∧
      (r = 0 ∨ c.retains = true ∧
        steps c.oldestSeqNo (a + 1) + r ≤ steps c.oldestSeqNo c.newestSeqNo) ∧
      ∀ j < r, c.recordContinues d (plus a (j + 2)) = true) (by
      rintro a ha ⟨r, hr, hle, hall⟩
      have h1 := hround a ha
      have h2 := hdown a ha
      refine ⟨r + 1, ?_, Or.inr ⟨h1.1, ?_⟩, ?_⟩
      · rw [plus_succ, hpred, hr]
      · rw [hpred]
        rcases hle with rfl | ⟨_, hle⟩ <;> omega
      · intro j hj
        rw [plus_succ, hpred]
        cases j with
        | zero => rw [plus_succ_right, plus_zero]; exact ha
        | succ j => exact hall j (by omega)) (steps c.oldestSeqNo c.newestSeqNo + 1) (s := acked)
    ⟨0, plus_zero _, Or.inl rfl, by omega⟩
  generalize whileN _ _ _ acked = a at *
  obtain ⟨r, hr, hle, hall⟩ := hinv
  refine ⟨r, ?_, hr, hexit, hall⟩
  rcases hle with rfl | ⟨hret, hle⟩
  · omega
  · have := hs.grouped.ranged.within hret
    omega

end Publisher

/-! ## The real eviction -/

namespace ReliableCache

variable {c c' : ReliableCache} {d : Nat} {old left : List (List Held)}

/-- The real eviction stops at the first sample past `ackedThrough`: the simulated one found room before
it, and the count bound reaches no further. -/
theorem Entered.gone_acked {first ackedThrough : SeqNo} {span : Nat} {sizes : List Nat}
    {records : List Record} {gone kept own : List (List Held)}
    (h : Entered d c c' old first span sizes records gone kept own)
    (hR : c.Ready d old left first) (hpos : 0 < sizes.sum)
    (hadmits : c.admits d sizes.sum ackedThrough = true)
    (hcount : ∀ f ∈ old.flatten, seqDelta ackedThrough f.seqNo < 0 →
      steps f.seqNo first + span ≤ d) :
    ∀ g ∈ gone, ∀ f ∈ g.head?, 0 ≤ seqDelta ackedThrough f.seqNo := by
  let p : List Held → Bool := fun g => g.head?.all fun f => decide (0 ≤ seqDelta ackedThrough f.seqNo)
  suffices hsub : ∀ g ∈ gone, g ∈ old.takeWhile p by
    intro g hg f hf
    have hp := List.mem_takeWhile_imp (hsub g hg)
    simp only [Option.mem_def] at hf
    simpa [p, hf] using hp
  have hsplit : old = old.takeWhile p ++ old.dropWhile p := (List.takeWhile_append_dropWhile).symm
  cases hb : old.dropWhile p with
  | nil =>
    intro g hg
    rw [hb, List.append_nil] at hsplit
    rw [← hsplit, h.split]
    exact List.mem_append_left _ hg
  | cons g₀ rest =>
    -- the first sample not acknowledged to its start
    have hg₀ : g₀ ∈ old := by rw [hsplit, hb]; simp
    obtain ⟨f, conts, rfl, _⟩ := hR.stored.grouped.samples g₀ (by simp [hg₀])
    have hf : seqDelta ackedThrough f.seqNo < 0 := by
      have hnot := List.head_dropWhile_not p (l := old) (by simp [hb])
      simp only [hb, List.head_cons, p, List.head?_cons, Option.all_some] at hnot
      simpa using hnot
    have hfin : f ∈ old.flatten := List.mem_flatten.mpr ⟨_, hg₀, by simp⟩
    have hall : (old ++ left).flatten =
        (old.takeWhile p).flatten ++ f :: (conts ++ rest.flatten ++ left.flatten) := by
      conv_lhs => rw [hsplit, hb]
      simp
    obtain ⟨pre', hkept⟩ := h.barrier (old.takeWhile p) ((f :: conts) :: rest) f
      (conts ++ rest.flatten) (by rw [← hb]; exact hsplit) (by simp) (hcount f hfin hf) (by
        intro hsum
        have hlaid := hR.stored.laid (by
          intro h0
          rw [List.append_eq_nil_iff] at h0
          rw [h0.1] at hg₀
          simp at hg₀)
        rcases (hR.stored.admits_iff hpos).mp hadmits with hbig | hheld
        · omega
        · obtain ⟨offset, hfit⟩ := admitsHeld_fits hheld hlaid hall hf
          have hlaid' : Laid c.arenaSize ((f :: (conts ++ rest.flatten ++ left.flatten)).map Held.seg)
              c.tail := by
            rw [hall, List.map_append] at hlaid
            have hdrop := hlaid.drop (n := ((old.takeWhile p).flatten.map Held.seg).length) (by simp)
            rwa [List.drop_left] at hdrop
          exact Room.of_fits hlaid' hfit)
    intro g hg
    have heq : (gone ++ pre') ++ (f :: conts) :: rest = old.takeWhile p ++ (f :: conts) :: rest := by
      rw [List.append_assoc, ← hkept, ← h.split, ← hb]
      exact hsplit
    rw [← List.append_cancel_right heq]
    exact List.mem_append_left _ hg

end ReliableCache

theorem sampleCacheFootprint_pos (node : Context) (cdr : List UInt8) (limit : Nat) :
    0 < sampleCacheFootprint node cdr limit := by
  rw [← sampleFootprints_sum]
  unfold sampleFootprints
  simp only
  split
  · next hm =>
    obtain ⟨k, hk⟩ : ∃ k, sampleDatagramCount node cdr limit = k + 1 :=
      ⟨sampleDatagramCount node cdr limit - 1, by omega⟩
    rw [hk, ReliableCache.fragFootprints, List.range_succ_eq_map, List.map_cons, List.sum_cons,
      fragFootprint]
    have h1 := ReliableCache.fragHeaderLength_pos 0
    have h2 := le_roundup (fragHeaderLength 0 + node.fragPayloadLength 0 (sampleCdrLength cdr))
    omega
  · have := le_roundup (recordLengthChecked cdr)
    rw [List.sum_singleton]
    rw [recordLengthChecked_eq, dataFraming] at *
    omega

/-- The records of one sample name the same first seq_no and the same span. -/
theorem sampleRecords_sample {node : Context} {first : SeqNo} {cdr : List UInt8} {limit : Nat}
    {r : Record} (h : r ∈ sampleRecords node first cdr limit) :
    r.sampleSeqNo = first ∧
      ((∃ i < r.span node, 1 < r.span node ∧ r = fragRecord node first cdr (r.span node) i ∧
        sampleRecords node first cdr limit =
          (List.range (r.span node)).map (fragRecord node first cdr (r.span node))) ∨
        r = .data first (padCdr cdr)) := by
  unfold sampleRecords at h ⊢
  simp only at h ⊢
  split at h
  · next hm =>
    obtain ⟨i, hi, rfl⟩ := List.mem_map.mp h
    rw [List.mem_range] at hi
    have hspan : (fragRecord node first cdr (sampleDatagramCount node cdr limit) i).span node =
        sampleDatagramCount node cdr limit := by
      unfold fragRecord
      split <;> rfl
    rw [hspan, if_pos hm]
    refine ⟨?_, Or.inl ⟨i, hi, hm, rfl, rfl⟩⟩
    unfold fragRecord
    split
    · rfl
    · simp [Record.sampleSeqNo, plus]
  · rw [List.mem_singleton] at h
    subst h
    exact ⟨rfl, Or.inr rfl⟩

end Tickle
