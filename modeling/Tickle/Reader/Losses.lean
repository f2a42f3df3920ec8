import Tickle.Reader.Follows

/-! # What the bitmap means and what the counters count

The two results about a proxy over whole runs: its bits are the positions recorded and not un-received since, whatever
moved the watermark; and `gap_abandoned` and `gap_evicted` count what the watermark passed that did not arrive, but for
the seq_no a HEARTBEAT jumps to.
-/

namespace Tickle

namespace Reader

open Bits Serial Watermark

variable {proxy : WriterProxy} {t : Tracker}

/-! ## The bitmap -/

/-- The highest bit is the same in the words in use and in all of them. -/
theorem bitmapHighestBit_unused {bitmap : Words} {n m : Nat} (clear : ∀ word, n ≤ word → bitmap word = 0) (more : n ≤ m) :
    bitmapHighestBit bitmap m = bitmapHighestBit bitmap n := by
  induction m, more using Nat.le_induction with
  | base => rfl
  | succ m more ih =>
    rw [bitmapHighestBit, if_pos (clear m more)]
    exact ih

/-- What the received bitmap of a proxy says, with its watermark at position `w` and `r` recorded. -/
structure Meaning (proxy : WriterProxy) (w : Nat) (r : Finset Nat) : Prop where
  watermark : proxy.ackSeqNo = wrap w
  bits : ∀ j, bit proxy.receivedBitmap j = true ↔ j < proxy.windowBits ∧ w + j ∈ r
  lowest : bit proxy.receivedBitmap 0 = false
  unused : ∀ word, proxy.receivedWords ≤ word → proxy.receivedBitmap word = 0
  highest : proxy.highestReceived = bitmapHighestBit proxy.receivedBitmap proxy.words
  shift : proxy.shiftReceivedOne.receivedBitmap = bitmapShiftRightOne proxy.receivedBitmap proxy.words

theorem Follows.meaning (follows : Follows proxy t) : Meaning proxy t.watermark t.recorded := by
  have tracks := follows.tracks
  have unused : ∀ word, proxy.receivedWords ≤ word → proxy.receivedBitmap word = 0 := words_eq_zero.mpr tracks.used
  exact {
    watermark := tracks.ack
    bits := by
      rw [windowBits_eq]
      exact tracks.bits
    lowest := by
      rw [← Bool.not_eq_true, tracks.bits]
      exact fun set => follows.settled set.2
    unused
    highest := (bitmapHighestBit_unused unused tracks.inUse).symm
    shift := by
      have clear : ∀ i, 64 * proxy.words ≤ i → bit proxy.receivedBitmap i = false := by
        intro i past
        exact tracks.used i ((Nat.mul_le_mul_left 64 tracks.inUse).trans past)
      apply ext_bit
      intro j
      rw [tracks.bit_shiftReceivedOne, bit_shiftRightOne_clear tracks.positive.ne' clear] }

/-- After every run from the first contact on, with whatever arrived, was absorbed, un-received, jumped over or evicted,
the bitmap says what is recorded past the watermark. -/
theorem bitmap_means_recorded (contact : Contact proxy t) (events : List Event) :
    Meaning (Run.after WriterProxy.step proxy events) (Run.after Tracker.step t events).watermark
      (Run.after Tracker.step t events).recorded :=
  (follows_after contact events).1.meaning

/-- A VOLATILE reader meets the writer at seq_no 1, with a window of 256. -/
def met : WriterProxy := WriterProxy.takeFirstContactBaseline false (WriterProxy.create 4) 1

def metAt : Tracker := Tracker.start (64 * 4) met.ackSeqNo.toNat

theorem met_contact : Contact met metAt := .data (by decide) (by decide) false 1

/-- 3 and its span arrive ahead of 2, 5 goes again, and 2 comes. -/
def reordered : List Event := [.arrival 1 1, .arrival 3 3, .unreceive 5, .arrival 7 1, .arrival 2 1]

theorem reordered_meaning : (Run.after WriterProxy.step met reordered).ackSeqNo = 5 ∧
    bit (Run.after WriterProxy.step met reordered).receivedBitmap 2 = true ∧
    Meaning (Run.after WriterProxy.step met reordered) (Run.after Tracker.step metAt reordered).watermark
      (Run.after Tracker.step metAt reordered).recorded :=
  ⟨by decide +kernel, by decide +kernel, bitmap_means_recorded met_contact reordered⟩

/-! ## The counters -/

/-- The watermark has moved by what was recorded, what was counted as given up, and what was not seen. -/
structure Tracker.Accounted (t : Tracker) : Prop where
  base : t.base ≤ t.watermark
  moved : t.watermark - t.base = passed t.recorded t.base t.watermark + t.abandoned + t.evicted + t.unseen

namespace Tracker.Accounted

/-- A move over given-up positions to `p`, which counts them, and from `p` on over what is recorded. -/
theorem givenUp_add (accounted : t.Accounted) {p : Nat} (after : t.watermark ≤ p) :
    p - t.base = passed t.recorded t.base p + t.abandoned + t.evicted + t.unseen + t.givenUp p := by
  have base := accounted.base
  have moved := accounted.moved
  have split_ := passed_add (r := t.recorded) base after
  have few := passed_le t.recorded t.watermark p
  unfold Tracker.givenUp
  omega

theorem arrive (accounted : t.Accounted) {p : Nat} (after : t.watermark ≤ p) (span : Nat) :
    (t.arrive p span).Accounted := by
  have base := accounted.base
  unfold Tracker.arrive
  by_cases inside : p < t.watermark + t.window
  · rw [if_pos inside]
    generalize whole : t.recorded ∪ Finset.Ico p (min (p + max 1 span) (t.watermark + t.window)) = r'
    have old : passed r' t.base t.watermark = passed t.recorded t.base t.watermark := by
      apply passed_congr
      intro q _ before
      rw [← whole, Finset.mem_union, Finset.mem_Ico, or_iff_left (by omega)]
    have after' := le_settle r' t.watermark
    have split_ := passed_add (r := r') base after'
    have new := passed_settle r' t.watermark
    have moved := accounted.moved
    exact ⟨base.trans after', by simp only; omega⟩
  · rw [if_neg inside]
    have gone := accounted.givenUp_add after
    have old : passed (insert p t.recorded) t.base p = passed t.recorded t.base p := by
      apply passed_congr
      intro q _ before
      rw [Finset.mem_insert, or_iff_right (by omega)]
    have here : passed (insert p t.recorded) p (p + 1) = p + 1 - p := by
      apply passed_full
      intro q from_ before
      have same : q = p := by omega
      rw [same]
      exact Finset.mem_insert_self _ _
    have split_ := passed_add (r := insert p t.recorded) (base.trans after) (Nat.le_add_right p 1)
    exact ⟨by simp only; omega, by simp only; omega⟩

theorem evict (accounted : t.Accounted) {p : Nat} (after : t.watermark ≤ p) : (t.evict p).Accounted := by
  have base := accounted.base
  have gone := accounted.givenUp_add after
  have after' := le_settle t.recorded p
  have split_ := passed_add (r := t.recorded) (base.trans after) after'
  have new := passed_settle t.recorded p
  unfold Tracker.evict
  exact ⟨by simp only; omega, by simp only; omega⟩

theorem announce (accounted : t.Accounted) (ahead : ∀ p ∈ t.recorded, p < t.watermark + t.window) {p : Nat}
    (after : t.watermark ≤ p) : (t.announce p).Accounted := by
  have base := accounted.base
  unfold Tracker.announce
  by_cases inside : p < t.watermark + t.window
  · rw [if_pos inside]
    exact ⟨base, accounted.moved⟩
  · rw [if_neg inside]
    have gone := accounted.givenUp_add after
    -- Nothing is recorded a window past the watermark: `p` itself is passed unseen.
    have here : passed t.recorded p (p + 1) = 0 := by
      have none_ : passed t.recorded p (p + 1) = passed ∅ p (p + 1) := by
        apply passed_congr
        intro q from_ _
        constructor
        · intro member
          have := ahead q member
          omega
        · intro member
          exact absurd member (Finset.notMem_empty q)
      rw [none_]
      rfl
    have split_ := passed_add (r := t.recorded) (base.trans after) (Nat.le_add_right p 1)
    exact ⟨by simp only; omega, by simp only; omega⟩

theorem forget (accounted : t.Accounted) (n : Nat) : (t.forget (t.watermark + n)).Accounted := by
  have same : passed (t.recorded.erase (t.watermark + n)) t.base t.watermark = passed t.recorded t.base t.watermark := by
    apply passed_congr
    intro q _ before
    rw [Finset.mem_erase, and_iff_right (by omega)]
  refine ⟨accounted.base, ?_⟩
  change _ = passed (t.recorded.erase (t.watermark + n)) t.base t.watermark + _ + _ + _
  rw [same]
  exact accounted.moved

theorem forgetAt (accounted : t.Accounted) (seqNo : SeqNo) : (t.forgetAt seqNo).Accounted := by
  unfold Tracker.forgetAt
  split
  · exact accounted.forget _
  · exact accounted

theorem evictTo (accounted : t.Accounted) (seqNo : SeqNo) : (t.evictTo seqNo).Accounted := by
  unfold Tracker.evictTo
  split
  · exact accounted.evict (Nat.le_add_right _ _)
  · exact accounted

theorem show_ (accounted : t.Accounted) (seqNo : SeqNo) :
    (t.show_ seqNo).Accounted ∧ (t.show_ seqNo).unseen = t.unseen := by
  unfold Tracker.show_
  split
  · exact ⟨⟨accounted.base, accounted.moved⟩, rfl⟩
  · exact ⟨accounted, rfl⟩

theorem step (accounted : t.Accounted) (follows : Follows proxy t) (event : Event) : (t.step event).Accounted := by
  cases event with
  | arrival seqNo span =>
    simp only [Tracker.step]
    split
    · exact accounted.arrive (Nat.le_add_right _ _) span
    · exact accounted
  | heartbeat firstAvailableSeqNo lastSeqNo isFinal skips =>
    have evicted := accounted.evictTo firstAvailableSeqNo
    simp only [Tracker.step]
    unfold Tracker.announceTo
    split
    · exact evicted.announce (follows.evictTo firstAvailableSeqNo).recorded_ahead (Nat.le_add_right _ _)
    · exact evicted
  | declined seqNo => exact (accounted.show_ seqNo).1
  | unreceive seqNo => exact accounted.forgetAt seqNo
  | unrecord seqNo => exact accounted.forgetAt seqNo

end Tracker.Accounted

theorem start_accounted (window base : Nat) : (Tracker.start window base).Accounted where
  base := Nat.le_refl _
  moved := by simp [Tracker.start, passed_self]

theorem contact_accounted (contact : Contact proxy t) : t.Accounted ∧ t.unseen = 0 := by
  cases contact with
  | data positive narrow durable seqNo => exact ⟨start_accounted _ _, rfl⟩
  | heartbeat positive narrow durable first last isFinal skips => exact (start_accounted _ _).show_ last

/-- A HEARTBEAT announces a seq_no a window or more past the watermark: past it as the HEARTBEAT's own
`first_available_seq_no` leaves it. -/
def WriterProxy.Overshoots (proxy : WriterProxy) : Event → Prop
  | .heartbeat firstAvailableSeqNo lastSeqNo _ _ =>
    let proxy := proxy.advancePastUnavailable firstAvailableSeqNo
    0 ≤ seqDelta lastSeqNo proxy.ackSeqNo ∧ proxy.windowBits ≤ steps proxy.ackSeqNo lastSeqNo
  | _ => False

/-- Only a HEARTBEAT that overshoots has the watermark pass a seq_no unseen. -/
theorem Follows.unseen_step (follows : Follows proxy t) (event : Event) :
    t.unseen ≤ (t.step event).unseen ∧ ((t.step event).unseen = t.unseen ↔ ¬ proxy.Overshoots event) := by
  have quiet : ∀ {P : Prop}, ¬ P → ∀ n : Nat, n ≤ n ∧ (n = n ↔ ¬ P) := fun out n => ⟨Nat.le_refl n, fun _ => out, fun _ => rfl⟩
  cases event with
  | arrival seqNo span =>
    have same : (t.step (.arrival seqNo span)).unseen = t.unseen := by
      simp only [Tracker.step]
      split
      · unfold Tracker.arrive
        split
        · rfl
        · rfl
      · rfl
    rw [same]
    exact quiet id _
  | heartbeat firstAvailableSeqNo lastSeqNo isFinal skips =>
    have evicted := follows.evictTo firstAvailableSeqNo
    have same : (t.evictTo firstAvailableSeqNo).unseen = t.unseen := by
      unfold Tracker.evictTo
      split
      · rfl
      · rfl
    simp only [Tracker.step, WriterProxy.Overshoots]
    rw [seqDelta_nonneg, evicted.offset, evicted.windowBits, ← same]
    unfold Tracker.announceTo
    by_cases near : (t.evictTo firstAvailableSeqNo).offset lastSeqNo < 2 ^ 31
    · rw [if_pos near]
      unfold Tracker.announce
      by_cases inside : (t.evictTo firstAvailableSeqNo).watermark + (t.evictTo firstAvailableSeqNo).offset lastSeqNo <
          (t.evictTo firstAvailableSeqNo).watermark + (t.evictTo firstAvailableSeqNo).window
      · rw [if_pos inside]
        exact quiet (by omega) _
      · rw [if_neg inside]
        simp only
        omega
    · rw [if_neg near]
      exact quiet (by omega) _
  | declined seqNo =>
    have same : (t.step (.declined seqNo)).unseen = t.unseen := by
      simp only [Tracker.step, Tracker.show_]
      split
      · rfl
      · rfl
    rw [same]
    exact quiet id _
  | unreceive seqNo =>
    have same : (t.step (.unreceive seqNo)).unseen = t.unseen := by
      simp only [Tracker.step, Tracker.forgetAt]
      split
      · rfl
      · rfl
    rw [same]
    exact quiet id _
  | unrecord seqNo =>
    have same : (t.step (.unrecord seqNo)).unseen = t.unseen := by
      simp only [Tracker.step, Tracker.forgetAt]
      split
      · rfl
      · rfl
    rw [same]
    exact quiet id _

theorem accounted_after (follows : Follows proxy t) (fresh : Fresh proxy) (accounted : t.Accounted) (events : List Event) :
    (Run.after Tracker.step t events).Accounted ∧ t.unseen ≤ (Run.after Tracker.step t events).unseen ∧
      ((Run.after Tracker.step t events).unseen = t.unseen ↔
        Run.Sound WriterProxy.step (fun proxy event => ¬ proxy.Overshoots event) proxy events) := by
  induction events generalizing proxy t with
  | nil => exact ⟨accounted, Nat.le_refl _, fun _ => trivial, fun _ => rfl⟩
  | cons event rest ih =>
    obtain ⟨next, kept⟩ := follows.step fresh event
    obtain ⟨whole, more, same⟩ := ih next kept (accounted.step follows event)
    obtain ⟨grows, here⟩ := follows.unseen_step event
    change Tracker.Accounted (Run.after Tracker.step (t.step event) rest) ∧
      t.unseen ≤ (Run.after Tracker.step (t.step event) rest).unseen ∧
      ((Run.after Tracker.step (t.step event) rest).unseen = t.unseen ↔ ¬ proxy.Overshoots event ∧ _)
    refine ⟨whole, grows.trans more, ?_⟩
    rw [← here, ← same]
    omega

/-- Every position the watermark passed was recorded or counted as given up, and none of them twice. -/
structure LossesCounted (proxy : WriterProxy) (t : Tracker) : Prop where
  moved : t.watermark - t.base = passed t.recorded t.base t.watermark + (proxy.gapAbandoned + proxy.gapEvicted)
  missed : (Finset.Ico t.base t.watermark \ t.recorded).card = proxy.gapAbandoned + proxy.gapEvicted

theorem missed_add_passed (t : Tracker) :
    (Finset.Ico t.base t.watermark \ t.recorded).card + passed t.recorded t.base t.watermark = t.watermark - t.base := by
  have same : t.recorded.filter (fun p => t.base ≤ p ∧ p < t.watermark) = Finset.Ico t.base t.watermark ∩ t.recorded := by
    ext p
    rw [Finset.mem_filter, Finset.mem_inter, Finset.mem_Ico, and_comm]
  unfold passed
  rw [same, Finset.card_sdiff_add_card_inter, Nat.card_Ico]

/-- After a run from the first contact on, what the watermark passed is counted exactly when no HEARTBEAT of the run
announced a seq_no a window or more past it. -/
theorem losses_counted_iff (contact : Contact proxy t) (events : List Event) :
    LossesCounted (Run.after WriterProxy.step proxy events) (Run.after Tracker.step t events) ↔
      Run.Sound WriterProxy.step (fun proxy event => ¬ proxy.Overshoots event) proxy events := by
  obtain ⟨follows, fresh⟩ := contact_follows contact
  obtain ⟨accounted, none_⟩ := contact_accounted contact
  obtain ⟨whole, -, same⟩ := accounted_after follows fresh accounted events
  have final := (follows_after contact events).1
  have abandoned := final.abandoned
  have evicted := final.evicted
  have moved := whole.moved
  have both := missed_add_passed (Run.after Tracker.step t events)
  rw [← same, none_]
  constructor
  · rintro ⟨counted, -⟩
    omega
  · intro zero
    constructor
    · omega
    · omega

/-- 1 arrives, 3 does, and the writer has nothing below 4 any more. -/
def skipped : List Event := [.arrival 1 1, .arrival 3 1, .heartbeat 4 3 true []]

theorem skipped_counted : (Run.after WriterProxy.step met skipped).gapEvicted = 1 ∧
    LossesCounted (Run.after WriterProxy.step met skipped) (Run.after Tracker.step metAt skipped) := by
  refine ⟨by decide +kernel, (losses_counted_iff met_contact skipped).mpr ⟨id, id, ?_, trivial⟩⟩
  change ¬ (0 ≤ seqDelta _ _ ∧ _ ≤ steps _ _)
  decide +kernel

/-- A HEARTBEAT announces up to 257, and nothing has arrived: the watermark goes to 258, past 257 positions, and 256 are
counted. -/
theorem announced_last_uncounted : (Run.after WriterProxy.step met [.heartbeat 1 257 true []]).ackSeqNo = 258 ∧
    (Run.after WriterProxy.step met [.heartbeat 1 257 true []]).gapAbandoned = 256 ∧
    (Run.after WriterProxy.step met [.heartbeat 1 257 true []]).gapEvicted = 0 ∧
    ¬ LossesCounted (Run.after WriterProxy.step met [.heartbeat 1 257 true []])
      (Run.after Tracker.step metAt [.heartbeat 1 257 true []]) := by
  refine ⟨by decide +kernel, by decide +kernel, by decide +kernel, ?_⟩
  intro counted
  exact absurd counted.moved (by decide +kernel)

end Reader

end Tickle
