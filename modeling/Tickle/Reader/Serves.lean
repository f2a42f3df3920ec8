import Tickle.Reader.Onward

/-! # What a drain hands over, and where

A writer stands at the position of its watermark, and what was handed over last lies before it. A drain walks from the cursor to the
watermark, so what it hands over lies before the watermark; `deliver_in_order` lets through only what lies past the last one. What is
done for others, and what only holds or gives back, leaves the writer where it is (`Steady`).
-/

namespace Tickle

namespace Reader

open Bits Serial

variable {seqNo : SeqNo}

namespace Subscriber

variable {sub sub' sub'' : Subscriber} {a writer : Writer} {w n m h h' h'' : Nat} {proxy proxy' : TrackedWriter} {ack : SeqNo}
  {ctx held first : Datagram}

/-! ## What is handed over -/

/-- The watermark of `a` is at position `w`; what was handed over last lies before it, at `h`. -/
def Stands (a : Writer) (w h : Nat) (sub : Subscriber) : Prop :=
  ∃ proxy, sub.findWriterProxy a = some proxy ∧ proxy.track.ackSeqNo = wrap w ∧ proxy.track.highestDelivered = wrap h ∧ h < w

/-- The samples of `a` handed over in between lie past `h`, one after the other, the last no further than `h'`. -/
structure Goes (a : Writer) (sub : Subscriber) (h : Nat) (sub' : Subscriber) (h' : Nat) : Prop where
  high : h ≤ h'
  handed : ∃ (new : List Delivery) (ps : List Nat), sub'.delivered = sub.delivered ++ new ∧ (new.filter (·.writer = a)).map (·.seqNo) = ps.map wrap ∧
    ps.Pairwise (· < ·) ∧ ∀ p ∈ ps, h < p ∧ p ≤ h'

theorem Goes.trans (one : Goes a sub h sub' h') (two : Goes a sub' h' sub'' h'') : Goes a sub h sub'' h'' := by
  obtain ⟨new, ps, delivered, places, rising, between⟩ := one.handed
  obtain ⟨new', ps', delivered', places', rising', between'⟩ := two.handed
  refine ⟨one.high.trans two.high, new ++ new', ps ++ ps', ?_, ?_, ?_, ?_⟩
  · rw [delivered', delivered, List.append_assoc]
  · rw [List.filter_append, List.map_append, List.map_append, places, places']
  · rw [List.pairwise_append]
    refine ⟨rising, rising', ?_⟩
    intro p mem p' mem'
    exact (between p mem).2.trans_lt (between' p' mem').1
  · intro p mem
    have := one.high
    have := two.high
    rcases List.mem_append.mp mem with here | there
    · have := between p here
      omega
    · have := between' p there
      omega

theorem Goes.nothing {new : List Delivery} (delivered : sub'.delivered = sub.delivered ++ new) (others : ∀ d ∈ new, d.writer ≠ a)
    (high : h ≤ h') : Goes a sub h sub' h' := by
  refine ⟨high, new, [], delivered, ?_, List.Pairwise.nil, by simp⟩
  rw [List.filter_eq_nil_iff.mpr]
  · rfl
  · intro d mem
    simpa using others d mem

/-- From a watermark at `w`, `n` on. -/
def Serves (a : Writer) (w n : Nat) (sub sub' : Subscriber) : Prop :=
  ∀ h, sub.Stands a w h → ∃ h', sub'.Stands a (w + n) h' ∧ Goes a sub h sub' h'

theorem Serves.refl (a : Writer) (w : Nat) (sub : Subscriber) : Serves a w 0 sub sub :=
  fun h stands => ⟨h, stands, Goes.nothing (List.append_nil _).symm (by simp) (Nat.le_refl h)⟩

theorem Serves.trans (one : Serves a w n sub sub') (two : Serves a (w + n) m sub' sub'') : Serves a w (n + m) sub sub'' := by
  intro h stands
  obtain ⟨h', stands', goes⟩ := one h stands
  obtain ⟨h'', stands'', goes'⟩ := two h' stands'
  rw [Nat.add_assoc] at stands''
  exact ⟨h'', stands'', goes.trans goes'⟩

/-- The watermark stays at first. -/
theorem Serves.next (one : Serves a w 0 sub sub') (two : Serves a w m sub' sub'') : Serves a w m sub sub'' := by
  have whole := one.trans two
  rwa [Nat.zero_add] at whole

/-- The watermark moves on, and nothing is handed over. -/
theorem serves_onward (found : sub.findWriterProxy a = some proxy) (found' : sub'.findWriterProxy a = some proxy')
    (onward : Onward n proxy.track proxy'.track) (delivered : sub'.delivered = sub.delivered) : Serves a w n sub sub' := by
  rintro h ⟨old, there, ack, high, behind⟩
  rw [found] at there
  cases there
  have nothing : ∀ h', h ≤ h' → Goes a sub h sub' h' := fun h' => Goes.nothing (delivered.trans (List.append_nil _).symm) (by simp)
  have ack' : proxy'.track.ackSeqNo = wrap (w + n) := by rw [onward.ack, ack, wrap_add]
  rcases onward.high with same | ⟨j, le, moved⟩
  · exact ⟨h, ⟨proxy', found', ack', same.trans high, by omega⟩, nothing h (Nat.le_refl h)⟩
  · refine ⟨w + j - 1, ⟨proxy', found', ack', ?_, by omega⟩, nothing _ (by omega)⟩
    have next : w + j - 1 + 1 = w + j := by omega
    have whole : wrap (w + j - 1) + 1 = plus (wrap w) j := by rw [← wrap_succ, next, wrap_add]
    rw [moved, ack, ← whole]
    ring

/-- The seq_no lies before the watermark, by no more than 2^31. -/
def Past (s ack : SeqNo) : Prop := 0 < steps s ack ∧ steps s ack ≤ 2 ^ 31

/-- A seq_no before the watermark that reads as newer than the last one handed over lies between the two. -/
theorem past_position {s : SeqNo} (behind : h < w) (past : Past s (wrap w)) (newer : seqDelta (wrap h) s < 0) :
    0 < steps (wrap h) s ∧ h + steps (wrap h) s < w := by
  have far := (seqDelta_neg _ _).mp newer
  have ne : wrap h ≠ s := by
    rintro rfl
    rw [steps_self] at far
    omega
  have turn := steps_swap ne
  have less := steps_lt s (wrap h)
  refine ⟨by omega, ?_⟩
  by_contra past_
  have along : steps (wrap h) (wrap w) = w - h := by
    have : w = h + (w - h) := by omega
    rw [this, wrap_add, steps_plus _ (by omega)]
    omega
  have split := steps_split (a := wrap h) (b := wrap w) (c := s) (by omega)
  have ne' : s ≠ wrap w := by
    rintro rfl
    have := past.1
    rw [steps_self] at this
    omega
  have turn' := steps_swap ne'
  have := past.2
  omega

theorem serves_deliverInOrder {sample : Delivery} (past : sample.writer = a → Past sample.seqNo (wrap w)) :
    Serves a w 0 sub (sub.deliverInOrder sample) := by
  rintro h ⟨proxy, found, ack, high, behind⟩
  by_cases own : sample.writer = a
  · subst own
    unfold deliverInOrder
    rw [found]
    dsimp only
    split
    · exact ⟨h, ⟨proxy, found, ack, high, behind⟩, Goes.nothing (List.append_nil _).symm (by simp) (Nat.le_refl h)⟩
    · rename_i newer
      rw [high, not_le] at newer
      obtain ⟨some_, before⟩ := past_position behind (past rfl) newer
      have name := find_writer found
      have found' : { sub with delivered := sub.delivered ++ [sample] }.findWriterProxy sample.writer = some proxy := found
      have place : wrap (h + steps (wrap h) sample.seqNo) = sample.seqNo := wrap_steps h sample.seqNo
      refine ⟨h + steps (wrap h) sample.seqNo, ⟨_, find_setProxy found' name, ack, place.symm, before⟩, by omega, [sample],
        [h + steps (wrap h) sample.seqNo], rfl, ?_, List.pairwise_singleton _ _, ?_⟩
      · simp [place]
      · intro p mem
        rw [List.mem_singleton] at mem
        omega
  · have found' : (sub.deliverInOrder sample).findWriterProxy a = some proxy := by
      rw [(shed_deliverInOrder sub sample).others a (Ne.symm own)]
      exact found
    refine ⟨h, ⟨proxy, found', ack, high, behind⟩, ?_⟩
    unfold deliverInOrder
    split
    · exact Goes.nothing (List.append_nil _).symm (by simp) (Nat.le_refl h)
    · split
      · exact Goes.nothing (List.append_nil _).symm (by simp) (Nat.le_refl h)
      · have others : ∀ d ∈ [sample], d.writer ≠ a := by simpa using own
        exact Goes.nothing rfl others (Nat.le_refl h)

theorem serves_table (table : sub'.writers = sub.writers) (delivered : sub'.delivered = sub.delivered) : Serves a w 0 sub sub' := by
  rintro h ⟨proxy, found, stands⟩
  refine ⟨h, ⟨proxy, ?_, stands⟩, Goes.nothing (delivered.trans (List.append_nil _).symm) (by simp) (Nat.le_refl h)⟩
  unfold findWriterProxy at found ⊢
  rw [table]
  exact found

/-! ## The walk -/

theorem foldl_writers {α : Type} {round : Subscriber → α → Subscriber}
    (same : ∀ sub place, (round sub place).writers = sub.writers) (places : List α) (sub : Subscriber) :
    (places.foldl round sub).writers = sub.writers := by
  induction places generalizing sub with
  | nil => rfl
  | cons place rest ih => rw [List.foldl_cons, ih, same]

theorem abandonAt_writers (writer : Writer) (sub : Subscriber) (seqNo : SeqNo) :
    (abandonAt writer sub seqNo).writers = sub.writers := by
  unfold abandonAt
  split
  · rfl
  · rfl

theorem serves_abandon (places : List SeqNo) : Serves a w 0 sub (places.foldl (abandonAt writer) sub) := by
  apply serves_table
  · apply foldl_writers
    exact abandonAt_writers writer
  · apply foldl_delivered
    exact abandonAt_delivered writer

theorem serves_deliverFragments (idle : sub.fast = none) (past : writer = a → Past seqNo (wrap w)) :
    Serves a w 0 sub (sub.deliverFragments writer seqNo first) := by
  unfold deliverFragments
  rw [fragFastSpill_idle idle]
  dsimp only
  have released : Serves a w 0 sub ((List.range first.fragCount).foldl
      (fun sub index => sub.reorderRelease (sub.reorderWriterSlot writer (plus seqNo index))) sub) := by
    apply serves_table
    · apply foldl_writers
      exact fun _ _ => rfl
    · apply foldl_delivered
      exact fun _ _ => rfl
  generalize (List.range first.fragCount).foldl _ sub = left at released ⊢
  split
  · have counted : Serves a w 0 left { left with fragDropped := left.fragDropped + 1 } := serves_table rfl rfl
    exact released.next counted
  · exact released.next (serves_deliverInOrder past)

theorem serves_drainFragmentedSample (idle : sub.fast = none) (past : writer = a → Past seqNo (wrap w)) {dealt : Subscriber × Nat}
    (drains : sub.drainFragmentedSample writer seqNo ack first = some dealt) : Serves a w 0 sub dealt.1 := by
  unfold drainFragmentedSample at drains
  split at drains
  · cases drains
    exact serves_abandon [seqNo]
  · split at drains
    · cases drains
      exact serves_deliverFragments idle past
    · split at drains
      · cases drains
      · cases drains
        exact serves_abandon _

theorem serves_drainRingAt (counted : sub.Counted) (past : writer = a → Past seqNo (wrap w)) {dealt : Subscriber × Nat}
    (drains : sub.drainRingAt writer seqNo ack = some dealt) : Serves a w 0 sub dealt.1 := by
  unfold drainRingAt at drains
  split at drains
  · cases drains
    exact Serves.refl a w sub
  next held here =>
    obtain ⟨there, name, own⟩ := heldAt_some here
    split at drains
    · exact serves_drainFragmentedSample (counted.fast_none there) past drains
    · cases drains
      have released : Serves a w 0 sub (sub.reorderRelease (sub.reorderWriterSlot writer seqNo)) := serves_table rfl rfl
      apply released.next
      apply serves_deliverInOrder
      intro same
      change held.writer = a at same
      change Past held.seqNo (wrap w)
      rw [name]
      exact past (own.symm.trans same)

/-- A walk stops, short of the watermark, only at a sample that reaches to the watermark. -/
theorem drainRingAt_near (bounded : sub.Bounded) (past : Past seqNo ack) (stops : sub.drainRingAt writer seqNo ack = none) :
    steps seqNo ack ≤ 63 := by
  have before : seqNo ≠ ack := by
    rintro rfl
    have := past.1
    rw [steps_self] at this
    omega
  have spec := @drainRingAt_spec sub writer seqNo ack bounded.counted bounded.short before
  rw [stops] at spec
  obtain ⟨first, here, _, index, lt, ahead⟩ := spec
  have few := bounded.short _ _ (heldAt_some here).1
  have near := (seqDelta_nonneg _ _).mp ahead
  by_contra far
  have on : steps seqNo (plus seqNo index) = index := steps_plus _ (by omega)
  have := steps_past (a := seqNo) (b := ack) (x := plus seqNo index) (by omega)
  have := past.2
  omega

/-- What a walk of a drain does: it gives slots of its writer back, and leaves the sample in hand or hands it over. -/
structure Strolls (a writer : Writer) (w : Nat) (ack : SeqNo) (sub : Subscriber) (arriving : Option Datagram) (drained : Drained) : Prop where
  shed : Shed writer sub drained.sub
  serves : Serves a w 0 sub drained.sub
  hand : drained.arriving = arriving ∨ drained.arriving = none
  stop : writer = a → steps drained.stop ack ≤ 63
  bounded : drained.sub.Bounded

theorem Strolls.rest (bounded : sub.Bounded) (arriving : Option Datagram) {stop : SeqNo} (near : writer = a → steps stop ack ≤ 63) :
    Strolls a writer w ack sub arriving ⟨sub, arriving, stop⟩ :=
  ⟨Shed.refl _ _, Serves.refl a w sub, .inl rfl, near, bounded⟩

theorem Strolls.round {arriving : Option Datagram} {drained : Drained} (shed : Shed writer sub sub') (serves : Serves a w 0 sub sub')
    (rest : Strolls a writer w ack sub' arriving drained) : Strolls a writer w ack sub arriving drained :=
  ⟨shed.trans rest.shed, serves.next rest.serves, rest.hand, rest.stop, rest.bounded⟩

theorem strolls_drainReorderWalk (rounds left : Nat) (seqNo : SeqNo) (arriving : Option Datagram) (bounded : sub.Bounded)
    (hand : ∀ ctx, arriving = some ctx → ctx.writer = writer) (within : left ≠ 0 → left ≤ steps seqNo ack)
    (near : writer = a → ack = wrap w ∧ (left ≠ 0 → steps seqNo ack ≤ 2 ^ 31)) :
    Strolls a writer w ack sub arriving (drainReorderWalk writer ack rounds left seqNo arriving sub) := by
  have arrived : writer = a → steps ack ack ≤ 63 := by
    intro _
    rw [steps_self]
    omega
  induction rounds generalizing left seqNo arriving sub with
  | zero => exact Strolls.rest bounded arriving arrived
  | succ rounds ih =>
    unfold drainReorderWalk
    by_cases all : left = 0
    · rw [if_pos all]
      exact Strolls.rest bounded arriving arrived
    · rw [if_neg all]
      have enough := within all
      have past : writer = a → Past seqNo ack := fun own => ⟨by omega, (near own).2 all⟩
      have past' : writer = a → Past seqNo (wrap w) := by
        intro own
        rw [← (near own).1]
        exact past own
      have before : seqNo ≠ ack := by
        rintro rfl
        rw [steps_self] at enough
        omega
      -- what is left of the walk, once `n` seq_nos are dealt with
      have within' : ∀ n, left - n ≠ 0 → left - n ≤ steps (plus seqNo n) ack ∧ steps (plus seqNo n) ack ≤ steps seqNo ack := by
        intro n more
        have less := steps_lt seqNo ack
        have on : steps seqNo (plus seqNo n) = n := steps_plus _ (by omega)
        have := steps_split (a := seqNo) (b := plus seqNo n) (c := ack) (by omega)
        omega
      have onward : ∀ dealt, sub.drainRingAt writer seqNo ack = some dealt → Strolls a writer w ack sub arriving
          (drainReorderWalk writer ack rounds (left - dealt.2) (plus seqNo dealt.2) arriving dealt.1) := by
        intro dealt drain
        have spec := @drainRingAt_spec sub writer seqNo ack bounded.counted bounded.short before
        rw [drain] at spec
        have hands := hands_drainRingAt bounded drain
        apply Strolls.round spec.shed (serves_drainRingAt bounded.counted past' drain)
        exact ih (left - dealt.2) (plus seqNo dealt.2) arriving hands.bounded hand (fun more => (within' dealt.2 more).1)
          (fun own => ⟨(near own).1, fun more => (within' dealt.2 more).2.trans ((near own).2 all)⟩)
      have stops : sub.drainRingAt writer seqNo ack = none → writer = a → steps seqNo ack ≤ 63 :=
        fun none_ own => drainRingAt_near bounded (past own) none_
      cases arriving with
      | none =>
        cases drain : sub.drainRingAt writer seqNo ack with
        | none => exact Strolls.rest bounded none (stops drain)
        | some dealt => exact onward dealt drain
      | some ctx =>
        dsimp only
        split
        next turn =>
          have own : ctx.sample.writer = writer := hand ctx rfl
          have given := shed_deliverInOrder sub ctx.sample
          rw [own] at given
          have serves : Serves a w 0 sub (sub.deliverInOrder ctx.sample) := by
            apply serves_deliverInOrder
            intro same
            change Past ctx.seqNo (wrap w)
            rw [← turn]
            exact past' (own.symm.trans same)
          have rest := ih (left - 1) (seqNo + 1) none (hands_deliverInOrder bounded ctx.sample).bounded (by simp)
            (fun more => (within' 1 more).1) (fun own => ⟨(near own).1, fun more => (within' 1 more).2.trans ((near own).2 all)⟩)
          have whole := Strolls.round given serves rest
          exact ⟨whole.shed, whole.serves, .inr (by rcases whole.hand with gone | gone <;> exact gone), whole.stop, whole.bounded⟩
        · cases drain : sub.drainRingAt writer seqNo ack with
          | none => exact Strolls.rest bounded (some ctx) (stops drain)
          | some dealt => exact onward dealt drain

/-! ## Steps that leave the writer where it is -/

/-- Nothing of the writer is held, in the ring or in the scratch. -/
def Free (a : Writer) (sub : Subscriber) : Prop :=
  (∀ i held, sub.ring i = some held → held.writer ≠ a) ∧ ∀ fast, sub.fast = some fast → fast.writer ≠ a

/-- The writer's watermark moves on by `n`, and its next drain starts where it would have; nothing is put into the scratch for it. -/
structure Steady (a : Writer) (n : Nat) (sub sub' : Subscriber) : Prop where
  words : sub'.words = sub.words
  track : ∀ proxy, sub.findWriterProxy a = some proxy → ∃ proxy', sub'.findWriterProxy a = some proxy' ∧
    Onward n proxy.track proxy'.track ∧ drainStart sub' proxy' = drainStart sub proxy
  strange : sub.findWriterProxy a = none → sub'.findWriterProxy a = none
  fast : ∀ fast, sub'.fast = some fast → fast.writer = a → sub.fast = some fast
  free : sub.findWriterProxy a = none → sub.Free a → sub'.Free a
  serves : ∀ w, Serves a w n sub sub'

theorem Steady.refl (a : Writer) (sub : Subscriber) : Steady a 0 sub sub :=
  ⟨rfl, fun proxy found => ⟨proxy, found, Onward.still rfl rfl rfl, rfl⟩, id, fun _ busy _ => busy, fun _ => id,
    fun w => Serves.refl a w sub⟩

theorem Steady.trans (one : Steady a n sub sub') (two : Steady a m sub' sub'') : Steady a (n + m) sub sub'' where
  words := two.words.trans one.words
  track := by
    intro proxy found
    obtain ⟨proxy', found', onward, start⟩ := one.track proxy found
    obtain ⟨proxy'', found'', onward', start'⟩ := two.track proxy' found'
    exact ⟨proxy'', found'', onward.trans onward', start'.trans start⟩
  strange := fun none_ => two.strange (one.strange none_)
  fast := fun fast busy own => one.fast fast (two.fast fast busy own) own
  free := fun none_ free => two.free (one.strange none_) (one.free none_ free)
  serves := fun w => (one.serves w).trans (two.serves (w + n))

theorem Steady.next (one : Steady a 0 sub sub') (two : Steady a m sub' sub'') : Steady a m sub sub'' := by
  have whole := one.trans two
  rwa [Nat.zero_add] at whole

/-- Where a drain starts depends on the scratch, the cursor and the name. -/
theorem drainStart_congr (fast : sub'.fast = sub.fast) (cursor : proxy'.reorderCursor = proxy.reorderCursor)
    (name : proxy'.writer = proxy.writer) : drainStart sub' proxy' = drainStart sub proxy := by
  unfold drainStart
  rw [fast, cursor, name]

/-- The ring and the scratch stay, and so does the writer, but for its watermark. -/
theorem SameRing.steady (same : SameRing sub sub') (delivered : sub'.delivered = sub.delivered)
    (track : ∀ proxy, sub.findWriterProxy a = some proxy → ∃ proxy', sub'.findWriterProxy a = some proxy' ∧
      Onward n proxy.track proxy'.track ∧ proxy'.reorderCursor = proxy.reorderCursor ∧ proxy'.writer = proxy.writer)
    (strange : sub.findWriterProxy a = none → sub'.findWriterProxy a = none) : Steady a n sub sub' where
  words := same.words
  track := by
    intro proxy found
    obtain ⟨proxy', found', onward, cursor, name⟩ := track proxy found
    exact ⟨proxy', found', onward, drainStart_congr same.fast cursor name⟩
  strange := strange
  fast := by
    intro fast busy _
    rw [← same.fast]
    exact busy
  free := by
    intro _ free
    refine ⟨?_, ?_⟩
    · rw [same.ring]
      exact free.1
    · rw [same.fast]
      exact free.2
  serves := by
    intro w h stands
    obtain ⟨proxy, found, rest⟩ := stands
    obtain ⟨proxy', found', onward, _⟩ := track proxy found
    exact serves_onward found found' onward delivered h ⟨proxy, found, rest⟩

theorem SameRing.steady_find (same : SameRing sub sub') (delivered : sub'.delivered = sub.delivered)
    (find : sub'.findWriterProxy a = sub.findWriterProxy a) : Steady a 0 sub sub' := by
  refine same.steady delivered ?_ ?_
  · intro proxy found
    exact ⟨proxy, find.trans found, Onward.still rfl rfl rfl, rfl, rfl⟩
  · rw [find]
    exact id

/-- One writer's proxy is written; its own watermark stays. -/
theorem Sets.steady {new : TrackedWriter} (sets : Sets sub writer new sub') (delivered : sub'.delivered = sub.delivered)
    (found : sub.findWriterProxy writer = some proxy)
    (own : writer = a → Onward 0 proxy.track new.track ∧ new.reorderCursor = proxy.reorderCursor ∧ new.writer = proxy.writer) :
    Steady a 0 sub sub' := by
  by_cases here : writer = a
  · subst here
    obtain ⟨onward, cursor, name⟩ := own rfl
    refine sets.same.steady delivered ?_ ?_
    · intro old there
      rw [found] at there
      cases there
      exact ⟨new, sets.found, onward, cursor, name⟩
    · intro none_
      rw [none_] at found
      cases found
  · exact sets.same.steady_find delivered (sets.others a (Ne.symm here))

theorem steady_mapTrack {f : WriterProxy → WriterProxy} (still : ∀ track, Onward 0 track (f track)) (writer : Writer) :
    Steady a 0 sub (sub.mapTrack writer f) := by
  cases found : sub.findWriterProxy writer with
  | none =>
    unfold mapTrack
    rw [found]
    exact Steady.refl a sub
  | some proxy => exact (sets_mapTrack found f).steady (mapTrack_delivered sub writer f) found fun _ => ⟨still _, rfl, rfl⟩

theorem pivotFollowed_track (slots : Nat) (proxy : TrackedWriter) (seqNo : SeqNo) :
    (pivotFollowed slots proxy seqNo).track = proxy.track ∧ (pivotFollowed slots proxy seqNo).reorderCursor = proxy.reorderCursor := by
  unfold pivotFollowed
  split
  · exact ⟨rfl, rfl⟩
  · exact ⟨rfl, rfl⟩

theorem steady_reorderFollowPivot (writer : Writer) (seqNo : SeqNo) : Steady a 0 sub (sub.reorderFollowPivot writer seqNo) := by
  cases found : sub.findWriterProxy writer with
  | none =>
    unfold reorderFollowPivot
    rw [found]
    exact Steady.refl a sub
  | some proxy =>
    apply (sets_reorderFollowPivot found seqNo).steady (reorderFollowPivot_delivered sub writer seqNo) found
    intro _
    obtain ⟨track, cursor⟩ := pivotFollowed_track sub.reorderSlots proxy seqNo
    exact ⟨Onward.still (by rw [track]) (by rw [track]) (by rw [track]), cursor, pivotFollowed_writer _ _ _⟩

/-- The ring changes by others' datagrams, or the writer is known. -/
theorem steady_ring (table : sub'.writers = sub.writers) (delivered : sub'.delivered = sub.delivered) (words : sub'.words = sub.words)
    (fast : sub'.fast = sub.fast)
    (ring : sub.findWriterProxy a = none → sub.Free a → ∀ i held, sub'.ring i = some held → held.writer ≠ a) : Steady a 0 sub sub' := by
  have find : sub'.findWriterProxy a = sub.findWriterProxy a := by
    unfold findWriterProxy
    rw [table]
  refine ⟨words, ?_, ?_, ?_, ?_, fun w => serves_table table delivered⟩
  · intro proxy found
    exact ⟨proxy, find.trans found, Onward.still rfl rfl rfl, drainStart_congr fast rfl rfl⟩
  · rw [find]
    exact id
  · intro scratch busy _
    rw [← fast]
    exact busy
  · intro none_ free
    refine ⟨ring none_ free, ?_⟩
    rw [fast]
    exact free.2

theorem steady_occupy (index : Nat) (known : ctx.writer = a → sub.findWriterProxy a ≠ none) : Steady a 0 sub (sub.occupy index ctx) := by
  refine steady_ring rfl rfl rfl rfl ?_
  intro none_ free i held here
  rcases ring_occupy here with ⟨_, rfl⟩ | there
  · exact fun own => known own none_
  · exact free.1 i held there

theorem Steady.occupy (reached : Steady a 0 sub sub') (known : ctx.writer = a → sub.findWriterProxy a ≠ none) (index : Nat) :
    Steady a 0 sub (sub'.occupy index ctx) := by
  apply reached.next
  apply steady_occupy
  intro own none_
  obtain ⟨proxy, found⟩ := Option.ne_none_iff_exists'.mp (known own)
  obtain ⟨proxy', found', _⟩ := reached.track proxy found
  rw [none_] at found'
  cases found'

theorem steady_release (index : Nat) : Steady a 0 sub (sub.reorderRelease index) := by
  refine steady_ring rfl rfl rfl rfl ?_
  intro _ free i held here
  change Function.update sub.ring index none i = some held at here
  by_cases same : i = index
  · rw [same, Function.update_self] at here
    cases here
  · rw [Function.update_of_ne same] at here
    exact free.1 i held here

theorem find_putCursor_other (ne : a ≠ writer) (seqNo : SeqNo) : (sub.putCursor writer seqNo).findWriterProxy a = sub.findWriterProxy a := by
  cases there : sub.findWriterProxy writer with
  | none =>
    unfold putCursor
    rw [there]
  | some proxy => exact (sets_putCursor there seqNo).others a ne

/-- The scratch put back into the ring: a drain of its writer starts at its first fragment. -/
theorem steady_fragFastSpill (bounded : sub.Bounded) : Steady a 0 sub sub.fragFastSpill := by
  cases busy : sub.fast with
  | none =>
    rw [fragFastSpill_idle busy]
    exact Steady.refl a sub
  | some fast =>
    have empty := bounded.counted.none_held (bounded.counted.alone (by rw [busy]; rfl))
    have bare : { sub with fast := none }.Counted :=
      ⟨bounded.counted.some_, bounded.counted.few, bounded.counted.usable, bounded.counted.within, bounded.counted.held, by simp⟩
    have followed := sameRing_reorderFollowPivot { sub with fast := none } fast.writer fast.seqNo
    have follows : Steady a 0 { sub with fast := none } ({ sub with fast := none }.reorderFollowPivot fast.writer fast.seqNo) :=
      steady_reorderFollowPivot fast.writer fast.seqNo
    have sameDelivered := reorderFollowPivot_delivered { sub with fast := none } fast.writer fast.seqNo
    have idle := (hands_fragFastSpill bounded).2
    have spill : sub.fragFastSpill = ((List.range fast.placed).foldl (spillOne fast)
        ({ sub with fast := none }.reorderFollowPivot fast.writer fast.seqNo)).putCursor fast.writer fast.seqNo := by
      unfold fragFastSpill
      rw [busy]
    rw [spill] at idle ⊢
    generalize { sub with fast := none }.reorderFollowPivot fast.writer fast.seqNo = start at followed follows sameDelivered idle ⊢
    have spilled := spilled_range fast (followed.counted bare) followed.fast (fun i => by rw [followed.ring]; exact empty i) fast.placed
    have delivered : ((List.range fast.placed).foldl (spillOne fast) start).delivered = start.delivered := by
      apply foldl_delivered
      intro mid index
      unfold spillOne
      dsimp only
      split
      · rfl
      · rfl
    generalize (List.range fast.placed).foldl (spillOne fast) start = full at spilled delivered idle ⊢
    have same := sameRing_putCursor full fast.writer fast.seqNo
    have find : ∀ other, full.findWriterProxy other = start.findWriterProxy other := by
      intro other
      unfold findWriterProxy
      rw [spilled.table]
    -- what the spill leaves of the writer's proxy: the track, and the cursor if the scratch was not its
    have left : ∀ proxy, sub.findWriterProxy a = some proxy → ∃ proxy', (full.putCursor fast.writer fast.seqNo).findWriterProxy a =
        some proxy' ∧ Onward 0 proxy.track proxy'.track ∧
          proxy'.reorderCursor = if fast.writer = proxy.writer then fast.seqNo else proxy.reorderCursor := by
      intro proxy found
      obtain ⟨proxy', found', onward, cursor⟩ := follows.track proxy found
      rw [← find] at found'
      have name := find_writer found
      have unmoved : proxy'.reorderCursor = proxy.reorderCursor := by
        unfold drainStart at cursor
        rw [followed.fast] at cursor
        exact cursor
      by_cases own : fast.writer = a
      · subst own
        exact ⟨_, (sets_putCursor found' fast.seqNo).found, onward, by rw [if_pos name.symm]⟩
      · refine ⟨proxy', ?_, onward, by rw [name, if_neg own]; exact unmoved⟩
        exact (find_putCursor_other (Ne.symm own) fast.seqNo).trans found'
    refine ⟨same.words.trans (spilled.words.trans followed.words), ?_, ?_, ?_, ?_, ?_⟩
    · intro proxy found
      obtain ⟨proxy', found', onward, cursor⟩ := left proxy found
      refine ⟨proxy', found', onward, ?_⟩
      unfold drainStart
      rw [idle, busy]
      exact cursor
    · intro none_
      have gone := follows.strange none_
      rw [← find] at gone
      by_cases own : a = fast.writer
      · subst own
        unfold putCursor
        rw [gone]
        exact gone
      · exact (find_putCursor_other own fast.seqNo).trans gone
    · intro scratch busy' _
      rw [idle] at busy'
      cases busy'
    · intro _ free
      refine ⟨?_, by rw [idle]; simp⟩
      intro i held here
      rw [same.ring] at here
      obtain ⟨j, _, part, _⟩ := spilled.ring i held here
      rw [part]
      exact free.2 fast busy
    · intro w h stands
      obtain ⟨proxy, found, rest⟩ := stands
      obtain ⟨proxy', found', onward, _⟩ := left proxy found
      have whole : (full.putCursor fast.writer fast.seqNo).delivered = sub.delivered := by
        rw [putCursor_delivered, delivered]
        exact sameDelivered
      exact serves_onward found found' onward whole h ⟨proxy, found, rest⟩

theorem steady_fragFastSpillIfOvertaken (bounded : sub.Bounded) (writer : Writer) :
    Steady a 0 sub (sub.fragFastSpillIfOvertaken writer) := by
  unfold fragFastSpillIfOvertaken
  split
  · split
    · exact steady_fragFastSpill bounded
    · exact Steady.refl a sub
  · exact Steady.refl a sub

theorem steady_unreceive (ctx : Datagram) : Steady a 0 sub (sub.unreceive ctx) := by
  have counted : Steady a 0 sub { sub with reorderOverflow := sub.reorderOverflow + 1 } :=
    SameRing.steady_find ⟨rfl, rfl, rfl, rfl, rfl, rfl, rfl, rfl, rfl⟩ rfl rfl
  exact counted.next (steady_mapTrack (fun track => onward_unreceive track ctx.seqNo) ctx.writer)

theorem steady_holdForReorder (bounded : sub.Bounded) (known : ctx.writer = a → sub.findWriterProxy a ≠ none) :
    Steady a 0 sub (sub.holdForReorder ctx) := by
  have spills : Steady a 0 sub sub.fragFastSpill := steady_fragFastSpill bounded
  unfold holdForReorder
  dsimp only
  generalize sub.fragFastSpill = spilled at spills ⊢
  split
  · have follows : Steady a 0 spilled (spilled.reorderFollowPivot ctx.writer ctx.seqNo) := steady_reorderFollowPivot ctx.writer ctx.seqNo
    have reached := spills.next follows
    generalize spilled.reorderFollowPivot ctx.writer ctx.seqNo = followed at reached ⊢
    split
    next held _ =>
      split
      · exact reached
      · have noted : Steady a 0 followed (followed.mapTrack ctx.writer fun track => noteCollision track held ctx) :=
          steady_mapTrack (fun track => onward_noteCollision track held ctx) ctx.writer
        exact (reached.next noted).next (steady_unreceive ctx)
    · refine reached.occupy ?_ _
      exact known
  · exact spills.next (steady_unreceive ctx)

/-! ## A drain -/

theorem shed_steady (shed : Shed writer sub sub') (serves : ∀ w, Serves a w 0 sub sub') (ne : a ≠ writer) : Steady a 0 sub sub' := by
  have find := shed.others a ne
  refine ⟨shed.words, ?_, ?_, ?_, ?_, serves⟩
  · intro proxy found
    exact ⟨proxy, find.trans found, Onward.still rfl rfl rfl, drainStart_congr shed.fast rfl rfl⟩
  · rw [find]
    exact id
  · intro fast busy _
    rw [← shed.fast]
    exact busy
  · intro _ free
    refine ⟨fun i held here => free.1 i held (shed.ring_of here), ?_⟩
    rw [shed.fast]
    exact free.2

/-- The walk of a drain, if there is anything to walk over. -/
theorem strolls_drain (bounded : sub.Bounded) {arriving : Option Datagram}
    (hand : ∀ ctx, arriving = some ctx → ctx.writer = writer)
    (near : writer = a → proxy.track.ackSeqNo = wrap w ∧ (sub.fast = none → steps proxy.reorderCursor proxy.track.ackSeqNo ≤ 2 ^ 31)) :
    Strolls a writer w proxy.track.ackSeqNo sub arriving
      (if sub.reorderHeld ≠ 0 ∧ sub.reorderPayloadCapacity ≠ 0 then
        drainReorderWalk writer proxy.track.ackSeqNo (min (steps proxy.reorderCursor proxy.track.ackSeqNo) proxy.track.windowBits)
          (min (steps proxy.reorderCursor proxy.track.ackSeqNo) proxy.track.windowBits) proxy.reorderCursor arriving sub
      else ⟨sub, arriving, proxy.track.ackSeqNo⟩) := by
  split
  · rename_i some_
    have idle : sub.fast = none := by
      cases busy : sub.fast with
      | none => rfl
      | some fast => exact absurd (bounded.counted.alone (by rw [busy]; rfl)) some_.1
    refine strolls_drainReorderWalk _ _ _ _ bounded hand (fun _ => Nat.min_le_left _ _) ?_
    exact fun own => ⟨(near own).1, fun _ => (near own).2 idle⟩
  · apply Strolls.rest bounded arriving
    intro _
    rw [steps_self]
    omega

/-- Another writer's drain. -/
theorem steady_drain (bounded : sub.Bounded) {arriving : Option Datagram} (hand : ∀ ctx, arriving = some ctx → ctx.writer = writer)
    (ne : a ≠ writer) : Steady a 0 sub (sub.drainReorderWith writer arriving) := by
  have spills : Steady a 0 sub (sub.fragFastSpillIfOvertaken writer) := steady_fragFastSpillIfOvertaken bounded writer
  have still := (hands_fragFastSpillIfOvertaken bounded writer).bounded
  unfold drainReorderWith
  dsimp only
  generalize sub.fragFastSpillIfOvertaken writer = spilled at spills still ⊢
  split
  · exact spills
  next proxy found =>
    have walks : ∀ w, Strolls a writer w proxy.track.ackSeqNo spilled arriving _ :=
      fun w => strolls_drain still hand fun own => absurd own.symm ne
    generalize (if spilled.reorderHeld ≠ 0 ∧ spilled.reorderPayloadCapacity ≠ 0 then _ else _ : Drained) = drained at walks ⊢
    have walked := spills.next (shed_steady (walks 0).shed (fun w => (walks w).serves) ne)
    have put : ∀ left : Subscriber, Steady a 0 left (left.putCursor writer drained.stop) := fun left =>
      (sameRing_putCursor left writer drained.stop).steady_find (putCursor_delivered left writer drained.stop)
        (find_putCursor_other ne drained.stop)
    apply Steady.next _ (put _)
    cases left : drained.arriving with
    | none => exact walked
    | some ctx =>
      have own : ctx.writer = writer := by
        rcases (walks 0).hand with same | gone
        · exact hand ctx (same.symm.trans left)
        · rw [gone] at left
          cases left
      dsimp only
      split
      · apply walked.next
        have given := shed_deliverInOrder drained.sub ctx.sample
        have differ : a ≠ ctx.sample.writer := by
          change a ≠ ctx.writer
          rw [own]
          exact ne
        exact shed_steady given (fun w => serves_deliverInOrder fun same => absurd same.symm differ) differ
      · exact walked.next (steady_holdForReorder (walks 0).bounded fun same => absurd (own.symm.trans same).symm ne)

/-- What a drain of the writer leaves: a cursor close to the watermark, and the scratch only if that ends at the watermark. -/
structure Drains (a : Writer) (sub : Subscriber) (proxy : TrackedWriter) (sub' : Subscriber) : Prop where
  serves : ∀ w, Serves a w 0 sub sub'
  words : sub'.words = sub.words
  own : ∃ proxy', sub'.findWriterProxy a = some proxy' ∧ proxy'.track.words = proxy.track.words ∧
    proxy'.track.ackSeqNo = proxy.track.ackSeqNo ∧ steps proxy'.reorderCursor proxy.track.ackSeqNo ≤ 63
  fast : ∀ fast, sub'.fast = some fast → fast.writer = a → sub.fast = some fast ∧ proxy.track.ackSeqNo = plus fast.seqNo fast.placed

theorem spillIfOvertaken_fast (bounded : sub.Bounded) (found : sub.findWriterProxy a = some proxy) {fast : FastSample}
    (busy : (sub.fragFastSpillIfOvertaken a).fast = some fast) (own : fast.writer = a) :
    sub.fast = some fast ∧ proxy.track.ackSeqNo = plus fast.seqNo fast.placed := by
  unfold fragFastSpillIfOvertaken at busy
  rw [found] at busy
  cases there : sub.fast with
  | none =>
    rw [there] at busy
    change sub.fast = some fast at busy
    rw [there] at busy
    cases busy
  | some old =>
    rw [there] at busy
    dsimp only at busy
    split at busy
    · rw [(hands_fragFastSpill bounded).2] at busy
      cases busy
    · rename_i level
      rw [there] at busy
      cases busy
      rw [not_and, not_not] at level
      exact ⟨rfl, level own⟩

/-- The writer's own drain. -/
theorem drains_own (bounded : sub.Bounded) (found : sub.findWriterProxy a = some proxy)
    (start : steps (drainStart sub proxy) proxy.track.ackSeqNo ≤ 2 ^ 31) {arriving : Option Datagram}
    (hand : ∀ ctx, arriving = some ctx → ctx.writer = a ∧ Past ctx.seqNo proxy.track.ackSeqNo) :
    Drains a sub proxy (sub.drainReorderWith a arriving) := by
  have spills : Steady a 0 sub (sub.fragFastSpillIfOvertaken a) := steady_fragFastSpillIfOvertaken bounded a
  have still := (hands_fragFastSpillIfOvertaken bounded a).bounded
  have level := fun fast => @spillIfOvertaken_fast sub a proxy bounded found fast
  obtain ⟨spilledProxy, spilledFound, onward, same⟩ := spills.track proxy found
  have ack : spilledProxy.track.ackSeqNo = proxy.track.ackSeqNo := by rw [onward.ack, plus_zero]
  unfold drainReorderWith
  dsimp only
  generalize sub.fragFastSpillIfOvertaken a = spilled at spills still level spilledFound same ⊢
  rw [spilledFound]
  dsimp only
  have cursor : spilled.fast = none → spilledProxy.reorderCursor = drainStart sub proxy := by
    intro idle
    rw [← same]
    unfold drainStart
    rw [idle]
  have near : spilled.fast = none → steps spilledProxy.reorderCursor spilledProxy.track.ackSeqNo ≤ 2 ^ 31 := by
    intro idle
    rw [cursor idle, ack]
    exact start
  have walks : ∀ w, spilledProxy.track.ackSeqNo = wrap w → Strolls a a w spilledProxy.track.ackSeqNo spilled arriving _ :=
    fun w at_ => strolls_drain still (fun ctx there => (hand ctx there).1) fun _ => ⟨at_, near⟩
  generalize (if spilled.reorderHeld ≠ 0 ∧ spilled.reorderPayloadCapacity ≠ 0 then _ else _ : Drained) = drained at walks ⊢
  rw [ack] at walks ⊢
  have somewhere : proxy.track.ackSeqNo = wrap proxy.track.ackSeqNo.toNat := by simp [wrap]
  have walk := walks _ somewhere
  obtain ⟨high, shedFound⟩ := walk.shed.own spilledProxy spilledFound
  -- the sample in hand is handed over or held; either way the track and the scratch are as the walk left them
  have settled : ∀ left : Subscriber, (∀ w, proxy.track.ackSeqNo = wrap w → Serves a w 0 drained.sub left) → left.words = drained.sub.words →
      (∃ proxy', left.findWriterProxy a = some proxy' ∧ proxy'.track.words = spilledProxy.track.words ∧
        proxy'.track.ackSeqNo = spilledProxy.track.ackSeqNo) →
      (∀ fast, left.fast = some fast → fast.writer = a → drained.sub.fast = some fast) →
      Drains a sub proxy (left.putCursor a drained.stop) := by
    rintro left serves words ⟨leftProxy, leftFound, leftWords, leftAck⟩ fast
    have sets := sets_putCursor leftFound drained.stop
    refine ⟨?_, ?_, ?_, ?_⟩
    · intro w h stands
      have at_ : proxy.track.ackSeqNo = wrap w := by
        obtain ⟨old, there, at_, _⟩ := stands
        rw [found] at there
        cases there
        exact at_
      have put : Serves a w 0 left (left.putCursor a drained.stop) :=
        serves_onward leftFound sets.found (Onward.still rfl rfl rfl) (putCursor_delivered left a drained.stop)
      exact (((spills.serves w).next (walks w at_).serves).next (serves w at_)).next put h stands
    · exact sets.same.words.trans (words.trans (walk.shed.words.trans spills.words))
    · exact ⟨_, sets.found, leftWords.trans onward.words, leftAck.trans ack, walk.stop rfl⟩
    · intro scratch busy own
      rw [sets.same.fast] at busy
      have before := fast scratch busy own
      rw [walk.shed.fast] at before
      exact level scratch before own
  cases left : drained.arriving with
  | none => exact settled drained.sub (fun w _ => Serves.refl a w _) rfl ⟨_, shedFound, rfl, rfl⟩ fun _ busy _ => busy
  | some ctx =>
    obtain ⟨own, past⟩ : ctx.writer = a ∧ Past ctx.seqNo proxy.track.ackSeqNo := by
      rcases walk.hand with same | gone
      · exact hand ctx (same.symm.trans left)
      · rw [gone] at left
        cases left
    dsimp only
    split
    · have given := shed_deliverInOrder drained.sub ctx.sample
      have name : ctx.sample.writer = a := own
      rw [name] at given
      obtain ⟨high', givenFound⟩ := given.own _ shedFound
      refine settled _ ?_ given.words ⟨_, givenFound, rfl, rfl⟩ ?_
      · intro w at_
        apply serves_deliverInOrder
        intro _
        rw [← at_]
        exact past
      · intro fast busy _
        rw [← given.fast]
        exact busy
    · have known : ctx.writer = a → drained.sub.findWriterProxy a ≠ none := by
        intro _ none_
        rw [none_] at shedFound
        cases shedFound
      have holds := steady_holdForReorder walk.bounded known
      obtain ⟨heldProxy, heldFound, moved, _⟩ := holds.track _ shedFound
      refine settled _ (fun w _ => holds.serves w) holds.words ⟨heldProxy, heldFound, moved.words, ?_⟩ holds.fast
      rw [moved.ack, plus_zero]

end Subscriber

end Reader

end Tickle
