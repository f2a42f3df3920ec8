import Tickle.Reader.Slots

/-! # What a drain does

A drain of one writer gives slots of that writer back and hands samples over; it takes no slot and moves no other writer
(`Shed`). Its walk empties every place it passes, and stops, before the watermark, only at a sample one of whose fragments
can still come (`Walked`).
-/

namespace Tickle

namespace Reader

open Bits Serial

namespace Subscriber

variable {sub sub' : Subscriber} {writer other : Writer} {proxy : TrackedWriter} {seqNo ack : SeqNo} {index : Nat}
  {ctx held first : Datagram}

/-- Slots of `writer` given back, and its highest delivered sample moved. -/
structure Shed (writer : Writer) (sub sub' : Subscriber) : Prop where
  words : sub'.words = sub.words
  durable : sub'.durable = sub.durable
  slots : sub'.reorderSlots = sub.reorderSlots
  slotBytes : sub'.reorderSlotBytes = sub.reorderSlotBytes
  peers : sub'.peers = sub.peers
  longest : sub'.maxSampleLength = sub.maxSampleLength
  fast : sub'.fast = sub.fast
  ring : ∀ i, sub'.ring i = sub.ring i ∨ sub'.ring i = none ∧ ∃ held, sub.ring i = some held ∧ held.writer = writer
  others : ∀ other, other ≠ writer → sub'.findWriterProxy other = sub.findWriterProxy other
  own : ∀ proxy, sub.findWriterProxy writer = some proxy → ∃ high,
    sub'.findWriterProxy writer = some { proxy with track := { proxy.track with highestDelivered := high } }
  strange : sub.findWriterProxy writer = none → sub'.findWriterProxy writer = none
  counted : Counted sub → Counted sub'

theorem Shed.of_same (same : SameRing sub sub') (table : sub'.writers = sub.writers) : Shed writer sub sub' := by
  have find : ∀ other, sub'.findWriterProxy other = sub.findWriterProxy other := by
    intro other
    unfold findWriterProxy
    rw [table]
  refine ⟨same.words, same.durable, same.slots, same.slotBytes, same.peers, same.longest, same.fast, ?_, ?_, ?_, ?_,
    same.counted⟩
  · intro i
    rw [same.ring]
    exact .inl rfl
  · intro other _
    exact find other
  · intro proxy here
    exact ⟨proxy.track.highestDelivered, (find writer).trans here⟩
  · intro none_
    rw [find, none_]

theorem Shed.refl (writer : Writer) (sub : Subscriber) : Shed writer sub sub := Shed.of_same (SameRing.refl sub) rfl

theorem Shed.trans {sub'' : Subscriber} (one : Shed writer sub sub') (two : Shed writer sub' sub'') :
    Shed writer sub sub'' where
  words := two.words.trans one.words
  durable := two.durable.trans one.durable
  slots := two.slots.trans one.slots
  slotBytes := two.slotBytes.trans one.slotBytes
  peers := two.peers.trans one.peers
  longest := two.longest.trans one.longest
  fast := two.fast.trans one.fast
  ring := by
    intro i
    rcases two.ring i with same | ⟨gone, held, here, own⟩
    · rcases one.ring i with same' | ⟨gone', was⟩
      · exact .inl (same.trans same')
      · exact .inr ⟨same.trans gone', was⟩
    · rcases one.ring i with same' | ⟨gone', _⟩
      · exact .inr ⟨gone, held, same'.symm.trans here, own⟩
      · rw [gone'] at here
        cases here
  others := fun other ne => (two.others other ne).trans (one.others other ne)
  own := by
    intro proxy here
    obtain ⟨high, there⟩ := one.own proxy here
    obtain ⟨high', there'⟩ := two.own _ there
    exact ⟨high', there'⟩
  strange := fun none_ => two.strange (one.strange none_)
  counted := fun h => two.counted (one.counted h)

/-- Every writer keeps its places. -/
theorem Shed.slot (shed : Shed writer sub sub') (other : Writer) (seqNo : SeqNo) :
    sub'.reorderWriterSlot other seqNo = sub.reorderWriterSlot other seqNo := by
  unfold reorderWriterSlot
  rw [shed.slots]
  by_cases same : other = writer
  · rw [same]
    cases here : sub.findWriterProxy writer with
    | none => rw [shed.strange here]
    | some proxy =>
      obtain ⟨high, there⟩ := shed.own proxy here
      rw [there]
  · rw [shed.others other same]

theorem Shed.ring_of (shed : Shed writer sub sub') (here : sub'.ring index = some held) : sub.ring index = some held := by
  rcases shed.ring index with same | ⟨gone, _⟩
  · exact same.symm.trans here
  · rw [gone] at here
    cases here

theorem Shed.heldAt_of (shed : Shed writer sub sub') (here : sub'.heldAt other seqNo = some held) :
    sub.heldAt other seqNo = some held := by
  obtain ⟨there, name, own⟩ := heldAt_some here
  rw [shed.slot] at there
  have there := shed.ring_of there
  unfold heldAt
  rw [there]
  simp [name, own]

theorem Shed.heldAt_none (shed : Shed writer sub sub') (none_ : sub.heldAt other seqNo = none) :
    sub'.heldAt other seqNo = none := by
  cases here : sub'.heldAt other seqNo with
  | none => rfl
  | some held =>
    rw [shed.heldAt_of here] at none_
    cases none_

theorem Shed.tracked (shed : Shed writer sub sub') (other : Writer) :
    (sub'.findWriterProxy other).isSome = (sub.findWriterProxy other).isSome := by
  by_cases same : other = writer
  · rw [same]
    cases here : sub.findWriterProxy writer with
    | none => rw [shed.strange here]
    | some proxy =>
      obtain ⟨high, there⟩ := shed.own proxy here
      rw [there]
      rfl
  · rw [shed.others other same]

/-! ## Giving slots back -/

theorem heldAt_release (sub : Subscriber) (writer : Writer) (seqNo : SeqNo) :
    (sub.reorderRelease (sub.reorderWriterSlot writer seqNo)).heldAt writer seqNo = none := by
  unfold heldAt
  have same : (sub.reorderRelease (sub.reorderWriterSlot writer seqNo)).reorderWriterSlot writer seqNo =
      sub.reorderWriterSlot writer seqNo := rfl
  rw [same]
  have empty : (sub.reorderRelease (sub.reorderWriterSlot writer seqNo)).ring (sub.reorderWriterSlot writer seqNo) =
      none := Function.update_self _ _ _
  rw [empty]

theorem heldAt_release_ne (ne : sub.reorderWriterSlot writer seqNo ≠ index) :
    (sub.reorderRelease index).heldAt writer seqNo = sub.heldAt writer seqNo := by
  unfold heldAt
  have same : (sub.reorderRelease index).reorderWriterSlot writer seqNo = sub.reorderWriterSlot writer seqNo := rfl
  have kept : (sub.reorderRelease index).ring (sub.reorderWriterSlot writer seqNo) =
      sub.ring (sub.reorderWriterSlot writer seqNo) := Function.update_of_ne ne _ _
  rw [same, kept]

theorem shed_release (here : sub.heldAt writer seqNo = some held) :
    Shed writer sub (sub.reorderRelease (sub.reorderWriterSlot writer seqNo)) := by
  obtain ⟨there, _, own⟩ := heldAt_some here
  refine ⟨rfl, rfl, rfl, rfl, rfl, rfl, rfl, ?_, fun _ _ => rfl, ?_, id, fun h => h.release there⟩
  · intro i
    by_cases same : i = sub.reorderWriterSlot writer seqNo
    · rw [same]
      exact .inr ⟨Function.update_self _ _ _, held, there, own⟩
    · exact .inl (Function.update_of_ne same _ _)
  · intro proxy found
    exact ⟨proxy.track.highestDelivered, found⟩

theorem shed_deliverInOrder (sub : Subscriber) (sample : Delivery) :
    Shed sample.writer sub (sub.deliverInOrder sample) := by
  unfold deliverInOrder
  split
  · exact Shed.refl _ _
  next proxy found =>
    split
    · exact Shed.of_same ⟨rfl, rfl, rfl, rfl, rfl, rfl, rfl, rfl, rfl⟩ rfl
    · have name := find_writer found
      have found' : { sub with delivered := sub.delivered ++ [sample] }.findWriterProxy sample.writer = some proxy := found
      have same : SameRing sub ({ sub with delivered := sub.delivered ++ [sample] }.setProxy
          { proxy with track := { proxy.track with highestDelivered := sample.seqNo } }) :=
        ⟨rfl, rfl, rfl, rfl, rfl, rfl, rfl, rfl, rfl⟩
      refine ⟨rfl, rfl, rfl, rfl, rfl, rfl, rfl, fun _ => .inl rfl, ?_, ?_, ?_, same.counted⟩
      · intro other ne
        exact find_setProxy_ne name ne
      · intro p there
        rw [found] at there
        cases there
        exact ⟨sample.seqNo, find_setProxy found' name⟩
      · intro none_
        rw [none_] at found
        cases found

theorem shed_abandonAt (writer : Writer) (sub : Subscriber) (seqNo : SeqNo) :
    Shed writer sub (abandonAt writer sub seqNo) ∧ (abandonAt writer sub seqNo).heldAt writer seqNo = none := by
  unfold abandonAt
  split
  next none_ => exact ⟨Shed.refl _ _, none_⟩
  next held here =>
    have counting : Shed writer (sub.reorderRelease (sub.reorderWriterSlot writer seqNo))
        { sub.reorderRelease (sub.reorderWriterSlot writer seqNo) with reorderAbandoned := sub.reorderAbandoned + 1 } :=
      Shed.of_same ⟨rfl, rfl, rfl, rfl, rfl, rfl, rfl, rfl, rfl⟩ rfl
    exact ⟨(shed_release here).trans counting, counting.heldAt_none (heldAt_release sub writer seqNo)⟩

theorem shed_abandon (writer : Writer) (places : List SeqNo) (sub : Subscriber) :
    Shed writer sub (places.foldl (abandonAt writer) sub) ∧
      ∀ seqNo ∈ places, (places.foldl (abandonAt writer) sub).heldAt writer seqNo = none := by
  induction places generalizing sub with
  | nil => exact ⟨Shed.refl _ _, by simp⟩
  | cons place rest ih =>
    obtain ⟨shed, none_⟩ := shed_abandonAt writer sub place
    obtain ⟨shed', none'⟩ := ih (abandonAt writer sub place)
    rw [List.foldl_cons]
    refine ⟨shed.trans shed', ?_⟩
    intro seqNo member
    rcases List.mem_cons.mp member with here | later
    · rw [here]
      exact shed'.heldAt_none none_
    · exact none' seqNo later

theorem plus_injective {a : SeqNo} {m n : Nat} (hm : m < 2 ^ 32) (hn : n < 2 ^ 32) (h : plus a m = plus a n) : m = n := by
  rw [← steps_plus a hm, ← steps_plus a hn, h]

/-- A whole sample given back: its fragments lie in slots of their own. -/
theorem shed_releaseAll (writer : Writer) (seqNo : SeqNo) (parts : List Nat) (sub : Subscriber) (apart : parts.Nodup)
    (short : ∀ index ∈ parts, index < 2 ^ 32)
    (all : ∀ index ∈ parts, ∃ held, sub.heldAt writer (plus seqNo index) = some held) :
    Shed writer sub
        (parts.foldl (fun sub index => sub.reorderRelease (sub.reorderWriterSlot writer (plus seqNo index))) sub) ∧
      ∀ index ∈ parts,
        (parts.foldl (fun sub index => sub.reorderRelease (sub.reorderWriterSlot writer (plus seqNo index))) sub).heldAt
          writer (plus seqNo index) = none := by
  induction parts generalizing sub with
  | nil => exact ⟨Shed.refl _ _, by simp⟩
  | cons part rest ih =>
    obtain ⟨held, here⟩ := all part (by simp)
    obtain ⟨fresh, apart⟩ := List.nodup_cons.mp apart
    have shed := shed_release here
    -- another fragment is another seq_no, so it lies in another slot
    have rest_ : ∀ index ∈ rest, ∃ held,
        (sub.reorderRelease (sub.reorderWriterSlot writer (plus seqNo part))).heldAt writer (plus seqNo index) =
          some held := by
      intro index member
      obtain ⟨other, there⟩ := all index (by simp [member])
      refine ⟨other, ?_⟩
      rw [heldAt_release_ne, there]
      intro same
      obtain ⟨at_, name, _⟩ := heldAt_some here
      obtain ⟨at', name', _⟩ := heldAt_some there
      rw [same, at_] at at'
      cases at'
      have : part = index := plus_injective (short part (by simp)) (short index (by simp [member])) (name.symm.trans name')
      exact fresh (this ▸ member)
    obtain ⟨shed', none'⟩ := ih _ apart (fun index member => short index (by simp [member])) rest_
    rw [List.foldl_cons]
    refine ⟨shed.trans shed', ?_⟩
    intro index member
    rcases List.mem_cons.mp member with same | later
    · rw [same]
      exact shed'.heldAt_none (heldAt_release sub writer (plus seqNo part))
    · exact none' index later

theorem fragFastSpill_idle (idle : sub.fast = none) : sub.fragFastSpill = sub := by
  unfold fragFastSpill
  rw [idle]

/-- A sample all of whose fragments are here leaves the ring whole. -/
theorem shed_deliverFragments (h : Counted sub) (here : sub.heldAt writer seqNo = some first)
    (short : first.fragCount ≤ 2 ^ 32)
    (all : ∀ index < first.fragCount, ∃ held, sub.heldAt writer (plus seqNo index) = some held) :
    Shed writer sub (sub.deliverFragments writer seqNo first) ∧
      ∀ index < first.fragCount, (sub.deliverFragments writer seqNo first).heldAt writer (plus seqNo index) = none := by
  have idle := fragFastSpill_idle (h.fast_none (heldAt_some here).1)
  obtain ⟨shed, none_⟩ := shed_releaseAll writer seqNo (List.range first.fragCount) sub List.nodup_range
    (fun index member => (List.mem_range.mp member).trans_le short)
    (fun index member => all index (List.mem_range.mp member))
  unfold deliverFragments
  rw [idle]
  dsimp only
  generalize (List.range first.fragCount).foldl _ sub = released at shed none_ ⊢
  split
  · have counting : Shed writer released { released with fragDropped := released.fragDropped + 1 } :=
      Shed.of_same ⟨rfl, rfl, rfl, rfl, rfl, rfl, rfl, rfl, rfl⟩ rfl
    refine ⟨shed.trans counting, ?_⟩
    intro index lt
    exact counting.heldAt_none (none_ index (List.mem_range.mpr lt))
  · generalize List.flatMap _ (List.range first.fragCount) = payload
    have given := shed_deliverInOrder released
      ⟨writer, seqNo, first.timestamp, payload, first.isNative, first.viaDataPort⟩
    refine ⟨shed.trans given, ?_⟩
    intro index lt
    exact given.heldAt_none (none_ index (List.mem_range.mpr lt))

/-- A sample with a fragment missing behind the watermark is given up, as far as the watermark. -/
theorem drainFragmentedSample_missing {ack : SeqNo} {index : Nat} (start : first.fragIndex = 0)
    (missing : (List.range first.fragCount).find? (fun index => (sub.heldPart writer seqNo first.fragCount index).isNone) =
      some index) (gone : ¬ 0 ≤ seqDelta (plus seqNo index) ack) :
    sub.drainFragmentedSample writer seqNo ack first =
      some (((List.range (min (steps seqNo ack) first.fragCount)).map (plus seqNo)).foldl (abandonAt writer) sub,
        min (steps seqNo ack) first.fragCount) := by
  unfold drainFragmentedSample
  rw [if_neg (not_not_intro start), missing]
  dsimp only
  rw [if_neg gone]

/-! ## One place of the walk -/

/-- What a round of the drain deals with: `n` places from `seqNo` on are empty then. More than one place is a sample
whose first fragment lies at `seqNo`. -/
structure Dealt (writer : Writer) (sub : Subscriber) (seqNo : SeqNo) (sub' : Subscriber) (n : Nat) : Prop where
  shed : Shed writer sub sub'
  some_ : 0 < n
  emptied : ∀ index < n, sub'.heldAt writer (plus seqNo index) = none
  sample : n = 1 ∨ ∃ first, sub.heldAt writer seqNo = some first ∧ first.fragIndex = 0 ∧ n ≤ first.fragCount

/-- A sample in order that is not whole: one of its fragments lies at or past the watermark. -/
def Waiting (sub : Subscriber) (writer : Writer) (seqNo ack : SeqNo) : Prop :=
  ∃ first, sub.heldAt writer seqNo = some first ∧ first.fragIndex = 0 ∧
    ∃ index < first.fragCount, 0 ≤ seqDelta (plus seqNo index) ack

theorem Dealt.single (shed : Shed writer sub sub') (none_ : sub'.heldAt writer seqNo = none) :
    Dealt writer sub seqNo sub' 1 where
  shed := shed
  some_ := Nat.one_pos
  emptied := by
    intro index lt
    have : index = 0 := by omega
    rw [this, plus_zero]
    exact none_
  sample := .inl rfl

theorem heldPart_isSome {count : Nat} (h : ¬ (sub.heldPart writer seqNo count index).isNone = true) :
    ∃ held, sub.heldAt writer (plus seqNo index) = some held := by
  unfold heldPart at h
  cases here : sub.heldAt writer (plus seqNo index) with
  | none => simp [here] at h
  | some held => exact ⟨held, rfl⟩

theorem drainFragmentedSample_spec (h : Counted sub) (here : sub.heldAt writer seqNo = some first)
    (parts : 0 < first.fragCount) (short : first.fragCount ≤ 2 ^ 32) (before : seqNo ≠ ack) :
    match sub.drainFragmentedSample writer seqNo ack first with
    | none => sub.Waiting writer seqNo ack
    | some dealt => Dealt writer sub seqNo dealt.1 dealt.2 := by
  unfold drainFragmentedSample
  by_cases start : first.fragIndex = 0
  · rw [if_neg (not_not_intro start)]
    cases missing : (List.range first.fragCount).find? fun index =>
        (sub.heldPart writer seqNo first.fragCount index).isNone with
    | none =>
      have whole : ∀ index < first.fragCount, ∃ held, sub.heldAt writer (plus seqNo index) = some held := by
        intro index lt
        exact heldPart_isSome (List.find?_eq_none.mp missing index (List.mem_range.mpr lt))
      obtain ⟨shed, none_⟩ := shed_deliverFragments h here short whole
      exact ⟨shed, parts, none_, .inr ⟨first, here, start, Nat.le_refl _⟩⟩
    | some index =>
      have lt : index < first.fragCount := List.mem_range.mp (List.mem_of_find?_eq_some missing)
      by_cases still : 0 ≤ seqDelta (plus seqNo index) ack
      · simp only [still, if_true]
        exact ⟨first, here, start, index, lt, still⟩
      · simp only [still, if_false]
        obtain ⟨shed, none_⟩ :=
          shed_abandon writer ((List.range (min (steps seqNo ack) first.fragCount)).map (plus seqNo)) sub
        have ahead : steps seqNo ack ≠ 0 := fun zero => before (steps_eq_zero.mp zero)
        refine ⟨shed, by omega, ?_, .inr ⟨first, here, start, Nat.min_le_right _ _⟩⟩
        intro index lt
        exact none_ _ (List.mem_map.mpr ⟨index, List.mem_range.mpr lt, rfl⟩)
  · rw [if_pos start]
    obtain ⟨shed, none_⟩ := shed_abandonAt writer sub seqNo
    exact Dealt.single shed none_

/-- One place: emptied, or the walk stops there. -/
theorem drainRingAt_spec (h : Counted sub) (short : ∀ i held, sub.ring i = some held → held.fragCount ≤ 64)
    (before : seqNo ≠ ack) :
    match sub.drainRingAt writer seqNo ack with
    | none => sub.Waiting writer seqNo ack
    | some dealt => Dealt writer sub seqNo dealt.1 dealt.2 := by
  unfold drainRingAt
  cases here : sub.heldAt writer seqNo with
  | none => exact Dealt.single (Shed.refl _ _) here
  | some held =>
    by_cases parts : held.fragCount ≠ 0
    · simp only [parts, if_true, ne_eq, not_false_eq_true]
      have few := short _ _ (heldAt_some here).1
      exact drainFragmentedSample_spec h here (by omega) (by omega) before
    · simp only [parts, if_false]
      have own : held.sample.writer = writer := (heldAt_some here).2.2
      have given := shed_deliverInOrder (sub.reorderRelease (sub.reorderWriterSlot writer seqNo)) held.sample
      rw [own] at given
      exact Dealt.single ((shed_release here).trans given) (given.heldAt_none (heldAt_release sub writer seqNo))

/-! ## The walk -/

/-- A walk over the places `k` to `n` from `base` on, up to the watermark `ack`: the places before `m` are empty, and
the sample in hand, if it is still there, was none of them. -/
structure Walked (writer : Writer) (sub : Subscriber) (arriving : Option Datagram) (base ack : SeqNo) (k n : Nat)
    (drained : Drained) (m : Nat) : Prop where
  shed : Shed writer sub drained.sub
  hand : drained.arriving = arriving ∨ drained.arriving = none
  from_ : k ≤ m
  emptied : ∀ j, k ≤ j → j < m → drained.sub.heldAt writer (plus base j) = none
  passed : ∀ ctx, drained.arriving = some ctx → ∀ j, k ≤ j → j < m → plus base j ≠ ctx.seqNo
  stop : drained.stop = ack ∧ n ≤ m ∨
    m < n ∧ drained.stop = plus base m ∧ drained.sub.Waiting writer drained.stop ack

/-- Nothing is held where the sample in hand belongs, and no fragment claims its seq_no. -/
structure Unclaimed (writer : Writer) (sub : Subscriber) (ctx : Datagram) : Prop where
  absent : sub.heldAt writer ctx.seqNo = none
  clear : ∀ i held, sub.ring i = some held → held.writer = writer → held.fragIndex = 0 →
    held.fragCount ≤ steps held.seqNo ctx.seqNo

theorem Unclaimed.shed (h : Unclaimed writer sub ctx) (shed : Shed writer sub sub') : Unclaimed writer sub' ctx :=
  ⟨shed.heldAt_none h.absent, fun i held here => h.clear i held (shed.ring_of here)⟩

theorem Walked.done {arriving : Option Datagram} {base : SeqNo} {k n : Nat} (all : n ≤ k) :
    Walked writer sub arriving base ack k n ⟨sub, arriving, ack⟩ k where
  shed := Shed.refl _ _
  hand := .inl rfl
  from_ := Nat.le_refl _
  emptied := fun j low high => absurd low (by omega)
  passed := fun _ _ j low high => absurd low (by omega)
  stop := .inl ⟨rfl, all⟩

theorem Walked.stopped {arriving : Option Datagram} {base : SeqNo} {k n : Nat} (before : k < n)
    (waiting : sub.Waiting writer (plus base k) ack) :
    Walked writer sub arriving base ack k n ⟨sub, arriving, plus base k⟩ k where
  shed := Shed.refl _ _
  hand := .inl rfl
  from_ := Nat.le_refl _
  emptied := fun j low high => absurd low (by omega)
  passed := fun _ _ j low high => absurd low (by omega)
  stop := .inr ⟨before, rfl, waiting⟩

/-- A round, and the walk from where it leaves off. -/
theorem Walked.round {arriving : Option Datagram} {base : SeqNo} {k n used m : Nat} {drained : Drained}
    (dealt : Dealt writer sub (plus base k) sub' used)
    (apart : ∀ ctx, arriving = some ctx → ∀ index < used, plus base (k + index) ≠ ctx.seqNo)
    (rest : Walked writer sub' arriving base ack (k + used) n drained m) :
    Walked writer sub arriving base ack k n drained m where
  shed := dealt.shed.trans rest.shed
  hand := rest.hand
  from_ := (Nat.le_add_right _ _).trans rest.from_
  emptied := by
    intro j low high
    by_cases here : j < k + used
    · have none_ := dealt.emptied (j - k) (by omega)
      rw [← plus_add, Nat.add_sub_cancel' low] at none_
      exact rest.shed.heldAt_none none_
    · exact rest.emptied j (by omega) high
  passed := by
    intro ctx hand j low high
    by_cases here : j < k + used
    · have same : arriving = some ctx := by
        rcases rest.hand with same | gone
        · exact same.symm.trans hand
        · rw [gone] at hand
          cases hand
      have := apart ctx same (j - k) (by omega)
      rwa [Nat.add_sub_cancel' low] at this
    · exact rest.passed ctx hand j (by omega) high
  stop := rest.stop

/-- The sample in hand is none of the places a round deals with. -/
theorem Dealt.apart {base : SeqNo} {k used : Nat} (dealt : Dealt writer sub (plus base k) sub' used)
    (unclaimed : Unclaimed writer sub ctx) (ne : plus base k ≠ ctx.seqNo)
    (short : ∀ i held, sub.ring i = some held → held.fragCount ≤ 64) :
    ∀ index < used, plus base (k + index) ≠ ctx.seqNo := by
  intro index lt same
  rcases dealt.sample with one | ⟨first, here, start, le⟩
  · have : index = 0 := by omega
    rw [this, Nat.add_zero] at same
    exact ne same
  · obtain ⟨there, name, own⟩ := heldAt_some here
    have clear := unclaimed.clear _ _ there own start
    have few := short _ _ there
    rw [name, ← same, plus_add, steps_plus _ (by omega)] at clear
    omega

theorem drainReorderWalk_spec {base : SeqNo} {n : Nat} (total : n ≤ steps base ack) (rounds k : Nat)
    (arriving : Option Datagram) (sub : Subscriber) (enough : n ≤ k + rounds) (h : Counted sub)
    (short : ∀ i held, sub.ring i = some held → held.fragCount ≤ 64)
    (unclaimed : ∀ ctx, arriving = some ctx → ctx.writer = writer ∧ Unclaimed writer sub ctx) :
    ∃ m, Walked writer sub arriving base ack k n
      (drainReorderWalk writer ack rounds (n - k) (plus base k) arriving sub) m := by
  induction rounds generalizing k arriving sub with
  | zero => exact ⟨k, Walked.done enough⟩
  | succ rounds ih =>
    unfold drainReorderWalk
    by_cases all : n - k = 0
    · rw [if_pos all]
      exact ⟨k, Walked.done (by omega)⟩
    · rw [if_neg all]
      have lt : k < n := by omega
      have bound : k < 2 ^ 32 := lt.trans_le (total.trans (steps_lt base ack).le)
      have before : plus base k ≠ ack := by
        intro same
        rw [← same, steps_plus _ bound] at total
        omega
      have spec := @drainRingAt_spec sub writer (plus base k) ack h short before
      -- what the ring holds there is dealt with, and the walk goes on
      have onward : ∀ {sub' : Subscriber} {used : Nat}, Dealt writer sub (plus base k) sub' used →
          (∀ ctx, arriving = some ctx → plus base k ≠ ctx.seqNo) →
          ∃ m, Walked writer sub arriving base ack k n
            (drainReorderWalk writer ack rounds (n - k - used) (plus (plus base k) used) arriving sub') m := by
        intro sub' used dealt ne
        have some_ := dealt.some_
        obtain ⟨m, walked⟩ := ih (k + used) arriving sub' (by omega) (dealt.shed.counted h)
          (fun i held here => short i held (dealt.shed.ring_of here))
          (fun ctx hand => ⟨(unclaimed ctx hand).1, (unclaimed ctx hand).2.shed dealt.shed⟩)
        rw [← Nat.sub_sub, plus_add] at walked
        exact ⟨m, walked.round dealt fun ctx hand =>
          dealt.apart (unclaimed ctx hand).2 (ne ctx hand) short⟩
      cases arriving with
      | none =>
        dsimp only
        cases drain : sub.drainRingAt writer (plus base k) ack with
        | none =>
          rw [drain] at spec
          exact ⟨k, Walked.stopped lt spec⟩
        | some dealt =>
          rw [drain] at spec
          exact onward spec (by simp)
      | some ctx =>
        dsimp only
        by_cases turn : plus base k = ctx.seqNo
        · rw [if_pos turn]
          obtain ⟨own, free⟩ := unclaimed ctx rfl
          have given := shed_deliverInOrder sub ctx.sample
          have name : ctx.sample.writer = writer := own
          rw [name] at given
          have empty : (sub.deliverInOrder ctx.sample).heldAt writer (plus base k) = none := by
            rw [turn]
            exact given.heldAt_none free.absent
          obtain ⟨m, walked⟩ := ih (k + 1) none (sub.deliverInOrder ctx.sample) (by omega) (given.counted h)
            (fun i held here => short i held (given.ring_of here)) (by simp)
          rw [← Nat.sub_sub, plus_succ_right] at walked
          have round := walked.round (Dealt.single given empty) (by simp)
          exact ⟨m, round.shed, .inr (by rcases round.hand with gone | gone <;> exact gone), round.from_, round.emptied,
            round.passed, round.stop⟩
        · rw [if_neg turn]
          cases drain : sub.drainRingAt writer (plus base k) ack with
          | none =>
            rw [drain] at spec
            exact ⟨k, Walked.stopped lt spec⟩
          | some dealt =>
            rw [drain] at spec
            exact onward spec (by
              intro c hand
              cases hand
              exact turn)

end Subscriber

end Reader

end Tickle
