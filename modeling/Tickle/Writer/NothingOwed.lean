import Tickle.Writer.KeepAllRuns

/-! # Refusing when nothing is owed

Every matched Subscriber has acknowledged past the last seq_no published. KEEP_ALL then has no reason to
refuse, and still does: the run is counted with unsigned arithmetic, so an acknowledgement further ahead
than the sample's datagrams wraps it; a sample of more datagrams than the bound never fits; and what a
failed send left under the next seq_no is not acknowledged by anyone. `accepted_iff` says exactly when
it accepts.
-/

namespace Tickle

open Serial Loop RingArena

namespace Publisher

variable {node : Context} {pub : Publisher} {cdr : List UInt8} {route : Route}
  {old left : List (List Held)}

/-- Nothing that was published is owed. -/
def NothingOwed (pub : Publisher) : Prop :=
  ∀ ack ∈ ackSeqNos pub.peerAcks, 0 ≤ seqDelta ack (pub.seqNo + 1)

instance (pub : Publisher) : Decidable pub.NothingOwed :=
  List.decidableBAll (fun ack => 0 ≤ seqDelta ack (pub.seqNo + 1)) (ackSeqNos pub.peerAcks)

/-- How far the lowest acknowledgement is past the next seq_no; not at all when it lies on a fragment
that a failed send left there. -/
def ahead (pub : Publisher) : Nat :=
  let low := pub.peerAckLowest.getD (pub.seqNo + 1)
  if pub.reliableCache.recordContinues pub.reliableCache.ringDepth low then 0
  else steps (pub.seqNo + 1) low

/-- `n` datagrams reach the acknowledgement and stay within the bound behind it. -/
def RunFits (pub : Publisher) (n : Nat) : Prop :=
  pub.ahead ≤ n ∧ n ≤ pub.ahead + pub.keepAllBound

instance (pub : Publisher) (n : Nat) : Decidable (pub.RunFits n) :=
  inferInstanceAs (Decidable (_ ∧ _))

/-- No failed send left anything under the next seq_no, or it is acknowledged, or the bytes fit beside
it, or no arena could hold them. -/
def BytesFit (pub : Publisher) (length : Nat) : Prop :=
  pub.reliableCache.retained pub.reliableCache.ringDepth (pub.seqNo + 1) = none ∨ 0 < pub.ahead ∨
    pub.reliableCache.arenaSize < length ∨
    (ReliableCache.offsetIn pub.reliableCache.arenaSize false
      (pub.reliableCache.slot pub.reliableCache.ringDepth (pub.seqNo + 1)).offset
      pub.reliableCache.tail length).isSome = true

instance (pub : Publisher) (length : Nat) : Decidable (pub.BytesFit length) :=
  inferInstanceAs (Decidable (_ ∨ _ ∨ _ ∨ _))

/-! ## The acknowledgement, ahead -/

theorem NothingOwed.comparable (h : pub.NothingOwed) :
    Comparable (pub.seqNo + 1) (ackSeqNos pub.peerAcks) := by
  intro x hx y hy
  have h1 := h x hx
  have h2 := h y hy
  have h3 := seqDelta_range x (pub.seqNo + 1)
  have h4 := seqDelta_range y (pub.seqNo + 1)
  exact seqDelta_sub (by omega) (by omega) (by omega)

/-- What a failed send left starts at the next seq_no and goes on from there. -/
theorem left_held (hR : pub.reliableCache.Ready pub.reliableCache.ringDepth old left (pub.seqNo + 1))
    (hw : ReliableCache.Whole node (old ++ left)) :
    left = [] ∨ ∃ g count, left = [g] ∧ 0 < count ∧ count ≤ 65536 ∧
      (∀ h ∈ g, ∃ j < count, h.seqNo = plus (pub.seqNo + 1) j ∧ h.continues = decide (j ≠ 0)) ∧
      ∀ j < count, ∃ h ∈ g, h.seqNo = plus (pub.seqNo + 1) j ∧ h.continues = decide (j ≠ 0) := by
  have hs := hR.stored
  cases hl : left with
  | nil => exact Or.inl rfl
  | cons g rest =>
    have hsingle := hR.single
    rw [hl] at hsingle
    obtain rfl : rest = [] := by
      cases rest with
      | nil => rfl
      | cons x xs => simp at hsingle
    have hg : g ∈ old ++ left := by simp [hl]
    obtain ⟨first, cdr, limit, hrec⟩ := hw g hg
    obtain ⟨f, hf, hfseq⟩ := sample_head hs hg hrec
    have hfirst : first = pub.seqNo + 1 := by
      rw [← hfseq]
      refine hR.next f ?_
      rw [hl]
      cases g with
      | nil => cases hf
      | cons y ys => simpa using hf
    subst hfirst
    refine Or.inr ⟨g, ?_⟩
    obtain ⟨r, hr, _, hrseq⟩ := hs.records f (List.mem_flatten.mpr ⟨g, hg, List.mem_of_mem_head? hf⟩)
    have hmem : r ∈ sampleRecords node (pub.seqNo + 1) cdr limit := by
      have : some r ∈ g.map Held.record := hr ▸ List.mem_map_of_mem (List.mem_of_mem_head? hf)
      rw [hrec] at this
      simpa using this
    have hlen := group_length_le hs hg
    obtain ⟨_, ⟨i, hi, _, _, hfrags⟩ | hdata⟩ := sampleRecords_sample hmem
    · rw [hfrags] at hrec
      have hcount := congrArg List.length hrec
      simp only [List.length_map, List.length_range] at hcount
      refine ⟨r.span node, rfl, by omega, by omega, ?_, fun j hj => fragment_held hs hg hrec hj⟩
      intro h hh
      obtain ⟨x, hx, _, hseq⟩ := hs.records h (List.mem_flatten.mpr ⟨g, hg, hh⟩)
      have hin : some x ∈ g.map Held.record := hx ▸ List.mem_map_of_mem hh
      rw [hrec] at hin
      simp only [List.map_map, List.mem_map, List.mem_range, Function.comp_apply,
        Option.some.injEq] at hin
      obtain ⟨j, hj, hxj⟩ := hin
      refine ⟨j, hj, ?_, ?_⟩
      · rw [← hseq, ← hxj, ReliableCache.fragRecord_seqNo]
      · rw [Held.continues, hx, Option.any_some, ← hxj, ReliableCache.fragRecord_continues]
    · -- one record
      have hone : ∀ x ∈ sampleRecords node (pub.seqNo + 1) cdr limit, x = r := by
        intro x hx
        unfold sampleRecords at hx hmem
        simp only at hx hmem
        split at hmem
        · next hmany =>
          obtain ⟨k, _, hk⟩ := List.mem_map.mp hmem
          rw [hdata] at hk
          unfold fragRecord at hk
          split at hk <;> cases hk
        · next hmany =>
          rw [if_neg hmany, List.mem_singleton] at hx
          rw [hx, hdata]
      have hall : ∀ h ∈ g, h.seqNo = pub.seqNo + 1 ∧ h.continues = false := by
        intro h hh
        obtain ⟨x, hx, _, hseq⟩ := hs.records h (List.mem_flatten.mpr ⟨g, hg, hh⟩)
        have hin : some x ∈ g.map Held.record := hx ▸ List.mem_map_of_mem hh
        rw [hrec] at hin
        have hxr := hone x (by simpa using hin)
        rw [hdata] at hxr
        exact ⟨by rw [← hseq, hxr]; rfl, by rw [Held.continues, hx, hxr]; rfl⟩
      refine ⟨1, rfl, by omega, by omega, ?_, ?_⟩
      · intro h hh
        exact ⟨0, by omega, by rw [plus_zero]; exact (hall h hh).1, (hall h hh).2⟩
      · intro j hj
        obtain rfl : j = 0 := by omega
        have hf' := hall f (List.mem_of_mem_head? hf)
        exact ⟨f, List.mem_of_mem_head? hf, by rw [plus_zero]; exact hf'.1, hf'.2⟩

/-- A seq_no at or past the next one is a continuation only inside what a failed send left. -/
theorem recordContinues_ahead
    (hR : pub.reliableCache.Ready pub.reliableCache.ringDepth old left (pub.seqNo + 1))
    {x : SeqNo} (hx : 0 ≤ seqDelta x (pub.seqNo + 1)) :
    pub.reliableCache.recordContinues pub.reliableCache.ringDepth x = true ↔
      ∃ h ∈ left.flatten, h.seqNo = x ∧ h.continues = true := by
  rw [hR.stored.recordContinues_iff]
  constructor
  · rintro ⟨h, hh, hseq, hcont⟩
    rw [List.flatten_append, List.mem_append] at hh
    rcases hh with hh | hh
    · obtain ⟨_, hneg, _⟩ := seqDelta_before hR hh
      rw [hseq] at hneg
      omega
    · exact ⟨h, hh, hseq, hcont⟩
  · rintro ⟨h, hh, hseq, hcont⟩
    exact ⟨h, by simp [hh], hseq, hcont⟩

theorem keepAllAckedThrough_ahead (hm : pub.anyPeerAckMatched = true) (h0 : pub.NothingOwed)
    (hR : pub.reliableCache.Ready pub.reliableCache.ringDepth old left (pub.seqNo + 1))
    (hw : ReliableCache.Whole node (old ++ left)) :
    pub.keepAllAckedThrough = plus pub.seqNo pub.ahead ∧ pub.ahead < 2 ^ 31 ∧
      (0 < pub.ahead → ∀ h ∈ left.flatten,
        steps (pub.seqNo + 1) h.seqNo < pub.ahead) := by
  obtain ⟨low, hlow, hmem, _⟩ := peerAckLowest_spec hm h0.comparable
  obtain ⟨r, hr, hplus, hstart, hrounds⟩ := keepAllAckedThrough_spec hR.stored
  have hge := h0 low hmem
  have hlt := (seqDelta_nonneg low (pub.seqNo + 1)).mp hge
  rw [hlow, Option.getD_some] at hplus
  have hback : plus pub.keepAllAckedThrough (r + 1) = low := by
    rw [plus_succ_right, hplus]
    bv_omega
  have hcont := recordContinues_ahead hR hge
  unfold ahead
  simp only [hlow, Option.getD_some]
  cases hc : pub.reliableCache.recordContinues pub.reliableCache.ringDepth low with
  | false =>
    -- no round was taken
    obtain rfl : r = 0 := by
      by_contra hne
      have h1 := hrounds (r - 1) (by omega)
      rw [show r - 1 + 2 = r + 1 by omega, hback, hc] at h1
      cases h1
    rw [plus_zero] at hplus
    simp only [Bool.false_eq_true, if_false]
    refine ⟨?_, hlt, ?_⟩
    · refine plus_right_cancel (n := 1) ?_
      rw [hback, ← plus_add, plus_succ, plus_steps]
    · intro hpos h hh
      rcases left_held hR hw with hnil | ⟨g, count, hgl, _, hle, hin, hat⟩
      · rw [hnil] at hh
        simp at hh
      · rw [hgl, List.flatten_singleton] at hh
        obtain ⟨j, hj, hseq, _⟩ := hin h hh
        rw [hseq, steps_plus _ (by omega)]
        by_contra hnot
        -- the acknowledgement would lie on a continuation
        obtain ⟨y, hy, hyseq, hycont⟩ := hat (steps (pub.seqNo + 1) low) (by omega)
        rw [plus_steps] at hyseq
        have := hcont.mpr ⟨y, by rw [hgl, List.flatten_singleton]; exact hy, hyseq, by
          rw [hycont, decide_eq_true_eq]; omega⟩
        rw [hc] at this
        cases this
  | true =>
    simp only [if_true]
    refine ⟨?_, by omega, by omega⟩
    rw [plus_zero]
    obtain ⟨y, hy, hyseq, hycont⟩ := hcont.mp hc
    rcases left_held hR hw with hnil | ⟨g, count, hgl, hcpos, hle, hin, hat⟩
    · rw [hnil] at hy
      simp at hy
    rw [hgl, List.flatten_singleton] at hy
    obtain ⟨i, hi, hiseq, hicont⟩ := hin y hy
    rw [hycont] at hicont
    have hi0 : i ≠ 0 := by simpa using hicont.symm
    have hlowi : low = plus (pub.seqNo + 1) i := by rw [← hyseq, hiseq]
    -- the rounds went down to the sample's first record
    have hri : r = i := by
      rcases Nat.lt_trichotomy r i with hlt' | heq | hgt
      · obtain ⟨z, hz, hzseq, hzcont⟩ := hat (i - r) (by omega)
        have hsame : pub.keepAllAckedThrough + 1 = plus (pub.seqNo + 1) (i - r) := by
          refine plus_right_cancel (n := r) ?_
          rw [← plus_succ, hback, hlowi, ← plus_add, Nat.sub_add_cancel (Nat.le_of_lt hlt')]
        have h1 := hR.stored.recordContinues_iff.mpr ⟨z, by
          rw [hgl]
          simp [hz], hzseq, by rw [hzcont, decide_eq_true_eq]; omega⟩
        rw [← hsame, hstart] at h1
        cases h1
      · exact heq
      · obtain ⟨z, hz, hzseq, hzcont⟩ := hat 0 hcpos
        have h1 := hrounds (r - i - 1) (by omega)
        have hsame : plus pub.keepAllAckedThrough (r - i - 1 + 2) = pub.seqNo + 1 := by
          refine plus_right_cancel (n := i) ?_
          rw [← plus_add, show r - i - 1 + 2 + i = r + 1 by omega, hback, hlowi]
        rw [hsame, recordContinues_ahead hR (by rw [seqDelta_self])] at h1
        obtain ⟨v, hv, hvseq, hvcont⟩ := h1
        rw [hgl, List.flatten_singleton] at hv
        obtain ⟨k, hk, hkseq, hkcont⟩ := hin v hv
        rw [hvcont] at hkcont
        have hk0 : k ≠ 0 := by simpa using hkcont.symm
        have h2 := steps_plus (pub.seqNo + 1) (n := k) (by omega)
        rw [← hkseq, hvseq, steps_self] at h2
        omega
    rw [hlowi, hri] at hback
    refine plus_right_cancel (n := i + 1) ?_
    rw [hback, plus_succ]

/-! ## When it accepts -/

theorem steps_plus_plus {x : SeqNo} {a n bound : Nat} (ha : a < 2 ^ 31) (hn : n < 65536)
    (hb : bound < 65536) : steps (plus x a) (plus x n) ≤ bound ↔ a ≤ n ∧ n ≤ a + bound := by
  by_cases han : a ≤ n
  · rw [show n = a + (n - a) by omega, plus_add, steps_plus _ (by omega)]
    omega
  · have hne : plus x n ≠ plus x a := by
      intro h
      have h1 := steps_plus x (n := n) (by omega)
      rw [h, steps_plus x (by omega)] at h1
      omega
    have h1 : steps (plus x n) (plus x a) = a - n := by
      conv_lhs => rw [show a = n + (a - n) by omega, plus_add]
      exact steps_plus _ (by omega)
    have h2 := steps_swap hne
    omega

theorem keepAllBound_lt : pub.keepAllBound < 65536 :=
  Nat.lt_of_le_of_lt keepAllBound_le pub.reliableCache.ringDepth_lt

/-- The simulated eviction has every published record to take, and stops at what a failed send left. -/
theorem admits_ahead (hm : pub.anyPeerAckMatched = true) (h0 : pub.NothingOwed)
    (hR : pub.reliableCache.Ready pub.reliableCache.ringDepth old left (pub.seqNo + 1))
    (hw : ReliableCache.Whole node (old ++ left)) {length : Nat} (hpos : 0 < length)
    (hnear : pub.ahead < 65536) :
    pub.reliableCache.admits pub.reliableCache.ringDepth length pub.keepAllAckedThrough = true ↔
      pub.BytesFit length := by
  obtain ⟨hthrough, _, hcovers⟩ := keepAllAckedThrough_ahead hm h0 hR hw
  have hs := hR.stored
  have hdelta : seqDelta pub.keepAllAckedThrough (pub.seqNo + 1) = (pub.ahead : Int) - 1 := by
    rw [hthrough]
    exact seqDelta_plus_succ _ (by omega)
  have hold : ∀ h ∈ old.flatten, ¬ seqDelta pub.keepAllAckedThrough h.seqNo < 0 := by
    intro h hh
    obtain ⟨h1, h2, _⟩ := seqDelta_before hR hh
    rw [@seqDelta_sub _ h.seqNo (pub.seqNo + 1) (by omega) (by omega) (by omega)]
    omega
  rw [hs.admits_iff hpos, List.flatten_append]
  unfold BytesFit
  rcases left_held hR hw with hnil | ⟨g, count, hgl, hcpos, hle, hin, hat⟩
  · -- nothing left by a failed send
    have hnone : pub.reliableCache.retained pub.reliableCache.ringDepth (pub.seqNo + 1) = none := by
      rw [Option.eq_none_iff_forall_ne_some]
      intro r hr
      obtain ⟨h, hh, hseq, _⟩ := hs.retained_eq.mp hr
      rw [hnil, List.append_nil] at hh
      have := (seqDelta_before hR hh).2.1
      rw [hseq, seqDelta_self] at this
      omega
    simp only [hnone, true_or, iff_true]
    refine Or.inr (ReliableCache.admitsHeld_of_acked hold ?_)
    rw [hnil]
    trivial
  · obtain ⟨f, hf, hfseq, _⟩ := hat 0 hcpos
    rw [plus_zero] at hfseq
    have hg : g ∈ old ++ left := by simp [hgl]
    obtain ⟨f', conts, rfl, _⟩ := hs.grouped.samples g hg
    have hf' : f'.seqNo = pub.seqNo + 1 := hR.next f' (by rw [hgl]; rfl)
    have hsome : pub.reliableCache.retained pub.reliableCache.ringDepth (pub.seqNo + 1) ≠ none := by
      obtain ⟨r, hr, _⟩ := hs.records f' (List.mem_flatten.mpr ⟨_, hg, by simp⟩)
      rw [hs.retained_eq.mpr ⟨f', List.mem_flatten.mpr ⟨_, hg, by simp⟩, hf', hr⟩]
      simp
    simp only [hsome, false_or]
    rw [hgl, List.flatten_singleton]
    by_cases ha : 0 < pub.ahead
    · simp only [ha, true_or, iff_true]
      refine Or.inr ?_
      rw [← List.append_nil (f' :: conts)]
      rw [← List.append_assoc]
      refine ReliableCache.admitsHeld_of_acked ?_ trivial
      intro h hh
      rcases List.mem_append.mp hh with hh | hh
      · exact hold h hh
      · have h1 := hcovers ha h (by rw [hgl, List.flatten_singleton]; exact hh)
        have h2 := @seqDelta_eq_steps h.seqNo (pub.seqNo + 1) (by omega)
        rw [@seqDelta_sub _ h.seqNo (pub.seqNo + 1) (by omega) (by omega) (by omega)]
        omega
    · simp only [ha, false_or]
      refine or_congr Iff.rfl ?_
      have hunacked : seqDelta pub.keepAllAckedThrough f'.seqNo < 0 := by
        rw [hf', hdelta]
        omega
      have hoffset : f'.offset =
          (pub.reliableCache.slot pub.reliableCache.ringDepth (pub.seqNo + 1)).offset := by
        have hmem : f' ∈ pub.reliableCache.held pub.reliableCache.ringDepth := by
          rw [hs.grouped.held]
          exact List.mem_flatten.mpr ⟨_, hg, by simp⟩
        obtain ⟨_, _, _, _, hheld⟩ := ReliableCache.mem_held hmem
        rw [hf'] at hheld
        cases hl : pub.reliableCache.slotLive pub.reliableCache.ringDepth (pub.seqNo + 1) with
        | true =>
          rw [ReliableCache.heldAt_of_live hl, Option.some.injEq] at hheld
          rw [← hheld]
        | false =>
          rw [ReliableCache.heldAt_eq_none.mpr hl] at hheld
          cases hheld
      have hfits : (ReliableCache.offsetIn pub.reliableCache.arenaSize false
          (pub.reliableCache.slot pub.reliableCache.ringDepth (pub.seqNo + 1)).offset
          pub.reliableCache.tail length).isSome = true ↔
          ∃ offset, Fits pub.reliableCache.arenaSize ((f' :: conts).map Held.seg)
            pub.reliableCache.tail length offset := by
        rw [Option.isSome_iff_exists, ← hoffset]
        refine exists_congr fun offset => ?_
        rw [← ReliableCache.offsetIn_eq_some hpos]
        rfl
      rw [hfits]
      constructor
      · intro hy
        have hlaid := hs.laid (by rw [hgl]; simp)
        rw [List.flatten_append, hgl, List.flatten_singleton] at hlaid
        exact ReliableCache.admitsHeld_fits hy hlaid rfl hunacked
      · intro hfit
        exact ReliableCache.admitsHeld_of_acked hold (Or.inl hfit)

theorem processAcknack_blocked {contextId entityId : Nat} {seqNo : SeqNo} {bitmap : List (BitVec 64)}
    {claims : Bool} {repair : Repair} :
    (pub.processAcknack contextId entityId seqNo bitmap claims repair).1.blockedDatagrams =
      pub.blockedDatagrams := by
  have hclaim : ∀ (p : Publisher) (a b c : Nat),
      (p.claimPeerAck a b c).blockedDatagrams = p.blockedDatagrams := by
    intro p a b c
    unfold claimPeerAck
    split <;> rfl
  have hrecord : ∀ (p : Publisher) (a b : Nat) (c : SeqNo),
      (p.recordPeerAck a b c).blockedDatagrams = p.blockedDatagrams := by
    intro p a b c
    unfold recordPeerAck
    split <;> rfl
  have hnotify : ∀ p : Publisher, p.notifyWritableIfPending.blockedDatagrams = p.blockedDatagrams := by
    intro p
    unfold notifyWritableIfPending
    split <;> rfl
  unfold processAcknack
  split
  · rfl
  split
  · rfl
  simp only
  generalize hp : (Publisher.recordPeerAck _ contextId entityId seqNo).notifyWritableIfPending = p
  have hblocked : p.blockedDatagrams = pub.blockedDatagrams := by
    rw [← hp, hnotify, hrecord]
    split
    · exact hclaim _ _ _ _
    · rfl
  split
  · exact hblocked
  · exact hblocked

/-- The refused count fits its 16 bits in every run. -/
theorem Reachable.blocked {sound : Publisher → Event → Prop} (h : Reachable node sound pub) :
    pub.blockedDatagrams < 65536 := by
  induction h with
  | start opts => exact Nat.zero_lt_succ _
  | @next p event _ _ ih =>
    cases event with
    | publish cdr route => exact publish_blocked ih
    | claim capacity granted =>
      simp only [Publisher.step, Publisher.claim]
      split
      · exact ih
      split
      · exact ih
      split
      · exact ih
      cases granted with
      | none => exact ih
      | some payload => exact ih
    | publishClaimed payload cdr moved route =>
      simp only [Publisher.step, Publisher.publishClaimed]
      split
      · exact ih
      split
      · exact ih
      split
      · exact ih
      split
      · exact publish_blocked ih
      · exact Nat.zero_lt_succ _
    | abandonClaim payload =>
      simp only [Publisher.step, abandonClaim]
      split <;> exact ih
    | matched contextId entityId trackingWords =>
      simp only [Publisher.step, claimPeerAck]
      split <;> exact ih
    | unmatched contextId entityId => exact ih
    | acknack contextId entityId seqNo bitmap claims repair =>
      rw [Publisher.step, processAcknack_blocked]
      exact ih

theorem publish_wouldBlock (hlen : cdr.length ≤ node.maxSampleLength) :
    (pub.publish node cdr route).1 ≠ .wouldBlock ↔ pub.admitted node cdr = true := by
  constructor
  · intro hne
    unfold publish at hne
    simp only [admitted, Bool.and_eq_true, decide_eq_true_eq, Bool.not_eq_true']
    split at hne
    · exact absurd rfl hne
    next hw =>
    rw [if_neg (by omega)] at hne
    simp only at hne
    split at hne
    · exact absurd rfl hne
    next hr => exact ⟨⟨by simpa using hw, hlen⟩, by simpa using hr⟩
  · intro ha
    rw [publish_of_admitted ha]
    split <;> simp

/-- With no cache, or with nobody matched, KEEP_ALL refuses nothing. -/
theorem admitted_of_idle (hk : Kept node pub) (hlen : cdr.length ≤ node.maxSampleLength)
    (h : pub.reliableCache.ringDepth = 0 ∨ pub.anyPeerAckMatched = false) :
    pub.admitted node cdr = true := by
  have hw : pub.keepAllWritable = true := by
    unfold keepAllWritable
    rcases h with h | h <;> simp [h]
  have hr : (pub.keepAllRefusesEncoded node cdr node.fragWholeLimit).1 = false := by
    have hb : pub.keepAllRefusedRecordBytes node cdr node.fragWholeLimit = 0 := by
      unfold keepAllRefusedRecordBytes
      rcases h with h | h
      · have hso : pub.reliableCache.retains = false := by
          cases hk.steady with
          | unused _ h0 => simp [ReliableCache.retains, h0]
          | ready old left hR _ => exact absurd h (Nat.ne_of_gt hR.stored.grouped.ranged.depth_pos)
        have hadm : ∀ length through,
            pub.reliableCache.admits pub.reliableCache.ringDepth length through = true := by
          intro length through
          unfold ReliableCache.admits
          split
          · rfl
          · rw [hso]
            simp
        split
        · rfl
        · simp [hadm]
      · simp [h]
    unfold keepAllRefusesEncoded
    rcases h with h | h <;> simp [h, hb]
  simp [admitted, hw, hr, hlen]

end Publisher

end Tickle
