import Tickle.Reader.Losses

/-! # What an ACKNACK asks for

The request is built a word at a time, from the complement of the bitmap, the mask of what is worth asking for and the
runs to leave out. It names the positions that are missing, up to the highest one known, and none the writer has not
shown.
-/

namespace Tickle

namespace Reader

open Bits Serial Watermark

variable {proxy : WriterProxy} {t : Tracker} {w : Nat} {r : Finset Nat}

/-- Position `j` past the base is asked for. -/
def AckNack.Names (message : AckNack) (j : Nat) : Prop := j < 64 * message.bitmapWords ∧ bit message.bitmap j = true

/-- Position `j` lies in the run. -/
def AcknackSkip.Covers (skip : AcknackSkip) (j : Nat) : Prop := skip.lowBit ≤ (j : Int) ∧ (j : Int) ≤ skip.highBit

/-- The runs taken out of a word, one after the other. -/
theorem getLsbD_skipping (word : Nat) {k : Nat} (within : k < 64) (skips : List AcknackSkip) (request : BitVec 64) :
    (skips.foldl (fun request skip => request &&& ~~~(bitmapRangeInWord word skip.lowBit skip.highBit)) request).getLsbD k
      = true ↔ request.getLsbD k = true ∧ ∀ skip ∈ skips, ¬ skip.Covers (64 * word + k) := by
  induction skips generalizing request with
  | nil => simp
  | cons skip rest ih =>
    rw [List.foldl_cons, ih, BitVec.getLsbD_and, BitVec.getLsbD_not, getLsbD_rangeInWord word _ _ within,
      decide_eq_true within, Bool.true_and, Bool.and_eq_true, Bool.not_eq_true', decide_eq_false_iff_not, List.forall_mem_cons,
      and_assoc]
    rfl

/-- One word of a request. -/
theorem Tracks.requestWord_iff (tracks : Tracks proxy w r) (lowBit highBit : Int) (skips : List AcknackSkip) (word : Nat)
    {k : Nat} (within : k < 64) : (proxy.requestWord lowBit highBit skips word).getLsbD k = true ↔
      ((64 * word + k < 64 * proxy.words ∧ w + (64 * word + k) ∉ r) ∧ ((64 * word + k : Nat) : Int) ≤ highBit ∧
        lowBit ≤ ((64 * word + k : Nat) : Int)) ∧ ∀ skip ∈ skips, ¬ skip.Covers (64 * word + k) := by
  unfold WriterProxy.requestWord
  rw [getLsbD_skipping word within]
  refine and_congr_left fun _ => ?_
  simp only [BitVec.getLsbD_and, BitVec.getLsbD_not, getLsbD_eq_bit _ word within, bit_lowMask, within, decide_true,
    Bool.true_and, Bool.and_eq_true, Bool.not_eq_true', decide_eq_true_iff, decide_eq_false_iff_not]
  rw [← Bool.not_eq_true, tracks.bits]
  by_cases inside : 64 * word + k < 64 * proxy.words
  · simp only [inside, true_and, and_assoc]
    refine and_congr_right fun _ => and_congr_right fun _ => ?_
    omega
  · simp only [inside, false_and, and_false]

/-- What a request for `lowBit` to `highBit` names. -/
theorem Tracks.names_iff (tracks : Tracks proxy w r) (lowBit highBit : Int) (skips : List AcknackSkip) (j : Nat) :
    (proxy.sendAcknackSkipping lowBit highBit skips).Names j ↔
      ((j < 64 * proxy.words ∧ w + j ∉ r) ∧ (j : Int) ≤ highBit ∧ lowBit ≤ (j : Int)) ∧
        ∀ skip ∈ skips, ¬ skip.Covers j := by
  have within : j % 64 < 64 := Nat.mod_lt j (by decide)
  have place : 64 * (j / 64) + j % 64 = j := Nat.div_add_mod j 64
  have word := tracks.requestWord_iff lowBit highBit skips (j / 64) within
  rw [place] at word
  unfold AckNack.Names WriterProxy.sendAcknackSkipping
  simp only
  generalize reach : (if proxy.words < if highBit < 0 then 0 else highBit.toNat / wordBits + 1 then proxy.words
    else if highBit < 0 then 0 else highBit.toNat / wordBits + 1) = wireWords
  constructor
  · rintro ⟨inside, set⟩
    have short : j / 64 < wireWords := by omega
    simp only [bit, short, if_true] at set
    exact word.mp set
  · intro named
    have short : j / 64 < wireWords := by
      rw [← reach]
      unfold wordBits
      obtain ⟨⟨⟨inside, -⟩, below, -⟩, -⟩ := named
      rw [if_neg (show ¬ highBit < 0 by omega)]
      split <;> omega
    refine ⟨by omega, ?_⟩
    simp only [bit, short, if_true]
    exact word.mpr named

/-- The highest position worth asking for. -/
theorem Tracks.le_highestRelevantBit (tracks : Tracks proxy w r) {j : Nat} (inside : j < 64 * proxy.words) :
    (j : Int) ≤ proxy.highestRelevantBit ↔
      (∃ k, j ≤ k ∧ w + k ∈ r) ∨ (j : Int) ≤ seqDelta proxy.heartbeatLastSeqNo proxy.ackSeqNo := by
  obtain ⟨bounds, found⟩ := tracks.highestReceived
  have received : (j : Int) ≤ proxy.highestReceived ↔ ∃ k, j ≤ k ∧ w + k ∈ r := by
    constructor
    · intro below
      obtain none_ | ⟨k, -, same, member⟩ := found
      · omega
      · exact ⟨k, by omega, member⟩
    · rintro ⟨k, below, member⟩
      have := bounds k member
      omega
  rw [← received]
  unfold WriterProxy.highestRelevantBit WriterProxy.highestRelevantBitFrom
  rw [windowBits_eq]
  generalize seqDelta proxy.heartbeatLastSeqNo proxy.ackSeqNo = hbAhead
  simp only
  split
  · split <;> split <;> omega
  · omega

/-! ## ACKNACKs over whole runs -/

/-- Position `j` is missing, no further than the highest one recorded or announced, and in none of the runs skipped. -/
def Wanted (proxy : WriterProxy) (t : Tracker) (skips : List AcknackSkip) (j : Nat) : Prop :=
  ((j < t.window ∧ t.watermark + j ∉ t.recorded) ∧ ((∃ k, j ≤ k ∧ t.watermark + k ∈ t.recorded) ∨
    (j : Int) ≤ seqDelta proxy.heartbeatLastSeqNo proxy.ackSeqNo)) ∧ ∀ skip ∈ skips, ¬ skip.Covers j

/-- The ACKNACK names what is missing past the watermark, less the runs skipped: up to the highest position recorded or
announced, and no further than the writer has shown. -/
structure AsksForMissing (proxy : WriterProxy) (t : Tracker) (skips : List AcknackSkip) (message : AckNack) : Prop where
  base : message.seqNo = wrap t.watermark
  names : ∀ j, message.Names j ↔ Wanted proxy t skips j
  shown : ∀ j, message.Names j → t.watermark + j < t.shown

theorem Follows.known_shown (follows : Follows proxy t) {j : Nat} (known : (∃ k, j ≤ k ∧ t.watermark + k ∈ t.recorded) ∨
    (j : Int) ≤ seqDelta proxy.heartbeatLastSeqNo proxy.ackSeqNo) : t.watermark + j < t.shown := by
  obtain ⟨k, below, member⟩ | announced := known
  · have := follows.recordedShown _ member
    omega
  · rw [follows.tracks.ack] at announced
    have := follows.announced (by omega)
    omega

/-- A missing position below the highest relevant one and outside the runs is wanted, and no other. -/
theorem Follows.wanted_iff (follows : Follows proxy t) (skips : List AcknackSkip) (j : Nat) :
    Wanted proxy t skips j ↔ ((j < 64 * proxy.words ∧ t.watermark + j ∉ t.recorded) ∧
      (j : Int) ≤ proxy.highestRelevantBit ∧ 0 ≤ (j : Int)) ∧ ∀ skip ∈ skips, ¬ skip.Covers j := by
  refine and_congr_left fun _ => ?_
  rw [← follows.window, and_iff_left (Int.natCast_nonneg j)]
  exact and_congr_right fun missing => (follows.tracks.le_highestRelevantBit (follows.window ▸ missing.1)).symm

theorem Follows.asks (follows : Follows proxy t) {skips : List AcknackSkip} {message : AckNack}
    (base : message.seqNo = proxy.ackSeqNo) (names : ∀ j, message.Names j ↔ Wanted proxy t skips j) :
    AsksForMissing proxy t skips message where
  base := base.trans follows.tracks.ack
  names := names
  shown := fun j named => follows.known_shown ((names j).mp named).1.2

theorem Follows.sendAcknackSkipping (follows : Follows proxy t) (skips : List AcknackSkip) :
    AsksForMissing proxy t skips (proxy.sendAcknackSkipping 0 proxy.highestRelevantBit skips) := by
  apply follows.asks rfl
  intro j
  rw [follows.wanted_iff, follows.tracks.names_iff]

/-- `names_any_open` finds whatever is to be asked for. -/
theorem Follows.namesAnyOpen_of_wanted (follows : Follows proxy t) {skips : List AcknackSkip} {j : Nat}
    (wanted : Wanted proxy t skips j) : proxy.namesAnyOpen proxy.highestRelevantBit skips = true := by
  have within : j % 64 < 64 := Nat.mod_lt j (by decide)
  have place : 64 * (j / 64) + j % 64 = j := Nat.div_add_mod j 64
  obtain ⟨⟨⟨inside, missing⟩, below, -⟩, open_⟩ := (follows.wanted_iff skips j).mp wanted
  have set := getLsbD_skipping (j / 64) within skips
    (~~~(proxy.receivedBitmap (j / 64)) &&& bitmapRangeInWord (j / 64) 0 proxy.highestRelevantBit)
  rw [BitVec.getLsbD_and, BitVec.getLsbD_not, getLsbD_eq_bit _ _ within, getLsbD_rangeInWord _ _ _ within, place] at set
  have clear : bit proxy.receivedBitmap j = false := by
    rw [← Bool.not_eq_true, follows.tracks.bits]
    exact fun recorded => missing recorded.2
  have some_ := set.mpr ⟨by simp [within, clear, below], open_⟩
  unfold WriterProxy.namesAnyOpen
  rw [List.any_eq_true]
  refine ⟨j / 64, List.mem_range.mpr (by omega), ?_⟩
  rw [Bool.and_eq_true, decide_eq_true_iff, bne_iff_ne]
  refine ⟨by unfold wordBits; omega, ?_⟩
  intro zero
  rw [zero] at some_
  exact absurd some_ (by simp)

theorem Follows.answerAckRequest (follows : Follows proxy t) (skips : List AcknackSkip) :
    ∀ message ∈ proxy.answerAckRequest skips, AsksForMissing proxy t skips message := by
  intro message member
  unfold WriterProxy.answerAckRequest at member
  simp only at member
  split at member
  · exact absurd member List.not_mem_nil
  · split at member
    · rw [List.mem_singleton.mp member]
      exact follows.sendAcknackSkipping skips
    · next none_ =>
      rw [List.mem_singleton.mp member]
      apply follows.asks rfl
      intro j
      unfold WriterProxy.sendAcknackRange
      rw [follows.tracks.names_iff]
      constructor
      · rintro ⟨⟨-, below, after⟩, -⟩
        omega
      · intro wanted
        exact absurd (follows.namesAnyOpen_of_wanted wanted) none_

/-- The ACKNACK names nothing that has arrived and nothing the writer has not shown. -/
structure AsksOnlyMissing (t : Tracker) (message : AckNack) : Prop where
  base : message.seqNo = wrap t.watermark
  missing : ∀ j, message.Names j → t.watermark + j ∉ t.recorded
  shown : ∀ j, message.Names j → t.watermark + j < t.shown

theorem AsksForMissing.only {skips : List AcknackSkip} {message : AckNack} (asks : AsksForMissing proxy t skips message) :
    AsksOnlyMissing t message where
  base := asks.base
  missing := fun j named => ((asks.names j).mp named).1.1.2
  shown := asks.shown

/-- A request cut off below a recorded position. -/
theorem Follows.sendAcknackRange (follows : Follows proxy t) (lowBit : Int) {highBit : Int} {k : Nat}
    (below : highBit < k) (recorded : t.watermark + k ∈ t.recorded) :
    AsksOnlyMissing t (proxy.sendAcknackRange lowBit highBit) where
  base := follows.tracks.ack
  missing := fun j named => ((follows.tracks.names_iff lowBit highBit [] j).mp named).1.1.2
  shown := by
    intro j named
    obtain ⟨⟨-, high, -⟩, -⟩ := (follows.tracks.names_iff lowBit highBit [] j).mp named
    exact follows.known_shown (Or.inl ⟨k, by omega, recorded⟩)

/-- The ACKNACK that arms the timer. -/
theorem Follows.armed_asks (follows : Follows proxy t) :
    ∀ message ∈ proxy.maybeArmAcknackRetry.2.toList, AsksOnlyMissing t message := by
  intro message member
  unfold WriterProxy.maybeArmAcknackRetry at member
  simp only at member
  split at member
  · exact absurd member List.not_mem_nil
  · split at member
    · exact absurd member List.not_mem_nil
    · rw [List.mem_singleton.mp member]
      exact (follows.pin.1.sendAcknackSkipping []).only

/-- A gap is reported by a datagram inside the window, and ends below it. -/
theorem Follows.newGap (follows : Follows proxy t) {seqNo : SeqNo} {span : Nat} {gap : WriterProxy.NewGapRange}
    (opened : (proxy.recordArrival seqNo span).2.2 = some gap) :
    0 < t.offset seqNo ∧ t.offset seqNo < t.window ∧ gap.highBit < t.offset seqNo := by
  unfold WriterProxy.recordArrival at opened
  rw [follows.offset, follows.windowBits] at opened
  split at opened
  · exact absurd opened (by simp)
  · next ahead =>
    have some_ : 0 < t.offset seqNo := by
      rw [← follows.offset, Nat.pos_iff_ne_zero, Ne, steps_eq_zero]
      exact fun same => ahead same.symm
    simp only at opened
    split at opened
    · next inside =>
      refine ⟨some_, inside, ?_⟩
      simp only [WriterProxy.recordOutOfOrderArrival] at opened
      split at opened
      · exact absurd opened (by simp)
      · split at opened
        · have same := Option.some.inj opened
          rw [← same]
          simp only
          omega
        · exact absurd opened (by simp)
    · exact absurd opened (by simp)

/-- A datagram ahead of a gap is recorded and moves nothing. -/
theorem Follows.arrive_ahead (follows : Follows proxy t) (span : Nat) {offset : Nat} (ahead : 0 < offset)
    (inside : offset < t.window) : (t.arrive (t.watermark + offset) span).watermark + offset ∈
      (t.arrive (t.watermark + offset) span).recorded := by
  have within : t.watermark + offset < t.watermark + t.window := by omega
  unfold Tracker.arrive
  rw [if_pos within]
  simp only
  have gap : t.watermark ∉ t.recorded ∪ Finset.Ico (t.watermark + offset)
      (min (t.watermark + offset + max 1 span) (t.watermark + t.window)) := by
    rw [mem_arrived within]
    rintro (old | new)
    · exact follows.settled old
    · omega
  rw [settle_of_notMem gap, mem_arrived within]
  exact Or.inr (Or.inl rfl)

/-- What `extend_gap_to_watermark` leaves of the proxy and of the gap. -/
theorem extendGap_fields (proxy : WriterProxy) (gap : WriterProxy.NewGapRange) :
    SameTrack proxy (proxy.extendGapToWatermark gap).1 ∧ Untouched proxy (proxy.extendGapToWatermark gap).1 ∧
      (proxy.extendGapToWatermark gap).2.highBit = gap.highBit := by
  unfold WriterProxy.extendGapToWatermark
  split
  · exact ⟨⟨rfl, rfl, rfl, rfl⟩, ⟨rfl, rfl, rfl, rfl⟩, rfl⟩
  · exact ⟨⟨rfl, rfl, rfl, rfl⟩, ⟨rfl, rfl, rfl, rfl⟩, rfl⟩

/-- What a datagram has the reader send. -/
theorem Follows.updateReliableAck_asks (follows : Follows proxy t) (fresh : Fresh proxy) (seqNo : SeqNo) (span : Nat) :
    ∀ message ∈ (proxy.updateReliableAck seqNo span).2.2, AsksOnlyMissing (t.step (.arrival seqNo span)) message := by
  intro message member
  unfold WriterProxy.updateReliableAck at member
  by_cases near : t.offset seqNo < 2 ^ 31
  · have ahead : ¬ seqDelta seqNo proxy.ackSeqNo < 0 := by
      rw [seqDelta_neg, follows.offset]
      omega
    rw [if_neg ahead] at member
    simp only [Tracker.step]
    rw [if_pos near]
    have recorded := follows.recordArrival fresh span near
    simp only [List.mem_append] at member
    obtain armed | asked := member
    · exact recorded.armed_asks message armed
    · unfold WriterProxy.askForNewGap at asked
      split at asked
      · exact absurd asked List.not_mem_nil
      · next gap opened =>
        obtain ⟨some_, inside, below⟩ := follows.newGap opened
        have there := follows.arrive_ahead span some_ inside
        have armed := recorded.arm.1
        split at asked
        · rw [List.mem_singleton.mp asked]
          split
          · obtain ⟨track, rest, high⟩ := extendGap_fields (proxy.recordArrival seqNo span).1.maybeArmAcknackRetry.1 gap
            exact (armed.same track rest).sendAcknackRange _ (high ▸ below) there
          · exact armed.sendAcknackRange _ below there
        · exact absurd asked List.not_mem_nil
  · have late : seqDelta seqNo proxy.ackSeqNo < 0 := by
      rw [seqDelta_neg, follows.offset]
      omega
    rw [if_pos late] at member
    exact absurd member List.not_mem_nil

/-- In every state a run from the first contact on reaches, and for every set of runs skipped, the ACKNACK sent for all
that is missing, and the answer to a HEARTBEAT that asks for one, name exactly that. Those a datagram has sent at once,
which may be for the gap it opens alone, name nothing else. -/
theorem acknack_asks_for_missing (contact : Contact proxy t) (events : List Event) (skips : List AcknackSkip) :
    let proxy' := Run.after WriterProxy.step proxy events
    let t' := Run.after Tracker.step t events
    AsksForMissing proxy' t' [] proxy'.sendAcknack ∧
      AsksForMissing proxy' t' skips (proxy'.sendAcknackSkipping 0 proxy'.highestRelevantBit skips) ∧
      (∀ message ∈ proxy'.answerAckRequest skips, AsksForMissing proxy' t' skips message) ∧
      ∀ seqNo span, ∀ message ∈ (proxy'.updateReliableAck seqNo span).2.2,
        AsksOnlyMissing (t'.step (.arrival seqNo span)) message := by
  obtain ⟨follows, fresh⟩ := follows_after contact events
  exact ⟨follows.sendAcknackSkipping [], follows.sendAcknackSkipping skips, follows.answerAckRequest skips,
    fun seqNo span => follows.updateReliableAck_asks fresh seqNo span⟩

instance (message : AckNack) (j : Nat) : Decidable (message.Names j) :=
  inferInstanceAs (Decidable (j < 64 * message.bitmapWords ∧ bit message.bitmap j = true))

/-- 1 and 5 have arrived, the writer has announced 8 and 3 is on its way: 2, 4, 6, 7 and 8 are asked for. -/
theorem announced_asked : let proxy := Run.after WriterProxy.step met [.arrival 1 1, .arrival 5 1, .heartbeat 1 8 true []]
    let t := Run.after Tracker.step metAt [.arrival 1 1, .arrival 5 1, .heartbeat 1 8 true []]
    (∀ j < 70, (proxy.sendAcknackSkipping 0 proxy.highestRelevantBit [⟨1, 1⟩]).Names j ↔ j ∈ [0, 2, 4, 5, 6]) ∧
      AsksForMissing proxy t [⟨1, 1⟩] (proxy.sendAcknackSkipping 0 proxy.highestRelevantBit [⟨1, 1⟩]) := by
  refine ⟨by decide +kernel, ?_⟩
  exact (acknack_asks_for_missing met_contact [.arrival 1 1, .arrival 5 1, .heartbeat 1 8 true []] [⟨1, 1⟩]).2.1

end Reader

end Tickle
