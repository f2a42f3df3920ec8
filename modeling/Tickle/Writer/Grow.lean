import Tickle.Writer.Sample

/-! # A larger arena

`tt_ReliableCache_grow()` copies the live records, oldest first, to the start of a new arena. What is
held stays, in its order and under its seq_nos; only the offsets are new (`grow_spec`), so a cache that
was ready for a seq_no is ready for it still.
-/

namespace Tickle

open Serial Loop RingArena

/-- Records packed from `offset` on. -/
def relocate : Nat → List Held → List Held
  | _, [] => []
  | offset, h :: rest => { h with offset := offset } :: relocate (offset + h.len) rest

def heldBytes (l : List Held) : Nat := (l.map Held.len).sum

theorem heldBytes_append (a b : List Held) : heldBytes (a ++ b) = heldBytes a + heldBytes b := by
  simp [heldBytes]

theorem relocate_append (offset : Nat) (a b : List Held) :
    relocate offset (a ++ b) = relocate offset a ++ relocate (offset + heldBytes a) b := by
  induction a generalizing offset with
  | nil => simp [relocate, heldBytes]
  | cons h a ih =>
    simp only [List.cons_append, relocate, ih, heldBytes, List.map_cons, List.sum_cons, Nat.add_assoc]

/-- Everything but the offset is as it was. -/
theorem mem_relocate {offset : Nat} {l : List Held} {x : Held} (h : x ∈ relocate offset l) :
    ∃ y ∈ l, x.seqNo = y.seqNo ∧ x.len = y.len ∧ x.record = y.record := by
  induction l generalizing offset with
  | nil => simp [relocate] at h
  | cons y l ih =>
    rw [relocate, List.mem_cons] at h
    rcases h with rfl | h
    · exact ⟨y, by simp, rfl, rfl, rfl⟩
    · obtain ⟨z, hz, hx⟩ := ih h
      exact ⟨z, by simp [hz], hx⟩

theorem relocate_record (offset : Nat) (l : List Held) :
    (relocate offset l).map Held.record = l.map Held.record := by
  induction l generalizing offset with
  | nil => rfl
  | cons h l ih => simp only [relocate, List.map_cons, ih]

theorem relocate_ascending {offset : Nat} {l : List Held} (hpos : ∀ h ∈ l, 0 < h.len) :
    Ascending offset ((relocate offset l).map Held.seg) (offset + heldBytes l) := by
  induction l generalizing offset with
  | nil => simp [relocate, heldBytes, Ascending]
  | cons h l ih =>
    have hrest := @ih (offset + h.len) fun x hx => hpos x (by simp [hx])
    refine ⟨Nat.le_refl _, hpos h (by simp), ?_⟩
    simp only [heldBytes, List.map_cons, List.sum_cons]
    rw [← Nat.add_assoc]
    exact hrest

/-- The same, sample by sample. -/
def relocateGroups : Nat → List (List Held) → List (List Held)
  | _, [] => []
  | offset, g :: rest => relocate offset g :: relocateGroups (offset + heldBytes g) rest

theorem relocateGroups_flatten (offset : Nat) (groups : List (List Held)) :
    (relocateGroups offset groups).flatten = relocate offset groups.flatten := by
  induction groups generalizing offset with
  | nil => rfl
  | cons g gs ih => rw [relocateGroups, List.flatten_cons, List.flatten_cons, relocate_append, ih]

theorem relocateGroups_append (offset : Nat) (a b : List (List Held)) :
    relocateGroups offset (a ++ b) =
      relocateGroups offset a ++ relocateGroups (offset + heldBytes a.flatten) b := by
  induction a generalizing offset with
  | nil => simp [relocateGroups, heldBytes]
  | cons g a ih =>
    simp only [List.cons_append, relocateGroups, ih, List.flatten_cons, heldBytes_append,
      Nat.add_assoc]

theorem relocateGroups_length (offset : Nat) (groups : List (List Held)) :
    (relocateGroups offset groups).length = groups.length := by
  induction groups generalizing offset with
  | nil => rfl
  | cons g gs ih => simp [relocateGroups, ih]

theorem IsSample.relocate {offset : Nat} {g : List Held} (h : IsSample g) :
    IsSample (relocate offset g) := by
  obtain ⟨first, conts, rfl, hfirst, hconts⟩ := h
  refine ⟨_, _, rfl, hfirst, ?_⟩
  intro x hx
  obtain ⟨y, hy, _, _, hrec⟩ := mem_relocate hx
  rw [Held.continues, hrec]
  exact hconts y hy

theorem isSample_relocateGroups {offset : Nat} {groups : List (List Held)}
    (h : ∀ g ∈ groups, IsSample g) : ∀ g ∈ relocateGroups offset groups, IsSample g := by
  induction groups generalizing offset with
  | nil => simp [relocateGroups]
  | cons g gs ih =>
    intro x hx
    rw [relocateGroups, List.mem_cons] at hx
    rcases hx with rfl | hx
    · exact (h g (by simp)).relocate
    · exact ih (fun y hy => h y (by simp [hy])) x hx

namespace ReliableCache

variable {c c' : ReliableCache} {d : Nat} {seqNo : SeqNo} {old left : List (List Held)}

theorem heldAt_len {x : SeqNo} {h : Held} (hh : c.heldAt d x = some h) : 0 < h.len := by
  unfold heldAt at hh
  split at hh
  · next hl =>
    rw [slotLive_iff] at hl
    injection hh with hh
    rw [← hh]
    exact Nat.pos_of_ne_zero hl.1
  · cases hh

theorem heldFrom_len {n : Nat} {x : SeqNo} {h : Held} (hh : h ∈ c.heldFrom d n x) : 0 < h.len := by
  obtain ⟨i, _, hi⟩ := mem_heldFrom.mp hh
  exact heldAt_len hi

/-- The cache as the repacking sees it: the new arena and the offsets written so far. -/
def packedView (c : ReliableCache) (packed : Arena × (Nat → CacheIndex) × Nat) : ReliableCache :=
  { c with arena := packed.1, index := packed.2.1 }

/-- The first `i` seq_nos are repacked; the index is untouched past them. -/
structure Packed (c : ReliableCache) (d i : Nat) (packed : Arena × (Nat → CacheIndex) × Nat) :
    Prop where
  held : (c.packedView packed).heldFrom d i c.oldestSeqNo =
    relocate 0 (c.heldFrom d i c.oldestSeqNo)
  tail : packed.2.2 = heldBytes (c.heldFrom d i c.oldestSeqNo)
  rest : ∀ k, i ≤ k → k ≤ steps c.oldestSeqNo c.newestSeqNo →
    packed.2.1 (c.slotIndex d (plus c.oldestSeqNo k)) =
      c.index (c.slotIndex d (plus c.oldestSeqNo k))
  index : ∀ j, (packed.2.1 j).len = (c.index j).len ∧ (packed.2.1 j).seqNo = (c.index j).seqNo

theorem Packed.step {i : Nat} {packed : Arena × (Nat → CacheIndex) × Nat} (hr : c.Ranged d)
    (hc : c.retains = true) (hi : i ≤ steps c.oldestSeqNo c.newestSeqNo) (hP : Packed c d i packed) :
    Packed c d (i + 1) (c.growStep d packed (plus c.oldestSeqNo i)) := by
  have hsnoc : ∀ s : ReliableCache, s.heldFrom d (i + 1) c.oldestSeqNo =
      s.heldFrom d i c.oldestSeqNo ++ (s.heldAt d (plus c.oldestSeqNo i)).toList := by
    intro s
    rw [heldFrom_add, heldFrom, heldFrom, List.append_nil]
  have hentry := hP.rest i (Nat.le_refl _) hi
  unfold growStep
  simp only
  rw [hentry]
  split
  · next hdead =>
    -- a tombstone: nothing moves
    have hnone : c.heldAt d (plus c.oldestSeqNo i) = none := by
      rw [heldAt_eq_none, slotLive, slot]
      rcases hdead with h | h <;> simp [h]
    have hnone' : (c.packedView packed).heldAt d (plus c.oldestSeqNo i) = none := by
      rw [heldAt_eq_none, slotLive, slot]
      change (decide ((packed.2.1 (c.slotIndex d (plus c.oldestSeqNo i))).len ≠ 0) && _) = false
      rw [hentry]
      rcases hdead with h | h
      · simp [h]
      · have : (packed.2.1 (c.slotIndex d (plus c.oldestSeqNo i))).seqNo ≠ plus c.oldestSeqNo i := by
          rw [hentry]; exact h
        simp only [Bool.and_eq_false_iff, decide_eq_false_iff_not]
        exact Or.inr this
    refine ⟨?_, ?_, fun k hk => hP.rest k (by omega), hP.index⟩
    · rw [hsnoc, hsnoc, hnone, hnone', Option.toList_none, List.append_nil, List.append_nil]
      exact hP.held
    · rw [hsnoc, hnone, Option.toList_none, List.append_nil]
      exact hP.tail
  · next hlive =>
    rw [not_or, ne_eq, Decidable.not_not] at hlive
    have hl : c.slotLive d (plus c.oldestSeqNo i) = true := by
      simp [slotLive, slot, hlive.1, hlive.2]
    have hat := heldAt_of_live hl
    have hpos := heldAt_len hat
    generalize hnew : (⟨fun o => if o = packed.2.2 then
        c.arena (c.index (c.slotIndex d (plus c.oldestSeqNo i))).offset else packed.1 o,
      Function.update packed.2.1 (c.slotIndex d (plus c.oldestSeqNo i))
        { c.index (c.slotIndex d (plus c.oldestSeqNo i)) with offset := packed.2.2 },
      packed.2.2 + (c.index (c.slotIndex d (plus c.oldestSeqNo i))).len⟩ :
        Arena × (Nat → CacheIndex) × Nat) = new
    have hown : (c.packedView new).heldAt d (plus c.oldestSeqNo i) =
        some ⟨plus c.oldestSeqNo i, packed.2.2, (c.slot d (plus c.oldestSeqNo i)).len,
          c.arena (c.slot d (plus c.oldestSeqNo i)).offset⟩ := by
      have hslot : (c.packedView new).slot d (plus c.oldestSeqNo i) =
          { c.slot d (plus c.oldestSeqNo i) with offset := packed.2.2 } := by
        rw [← hnew]
        exact Function.update_self _ _ _
      have hl' : (c.packedView new).slotLive d (plus c.oldestSeqNo i) = true := by
        rw [slotLive, hslot]
        exact hl
      rw [heldAt_of_live hl', hslot, ← hnew]
      simp [packedView, slot]
    -- what was packed before lies below the offset written now
    have hbefore : ∀ k < i, (c.packedView new).heldAt d (plus c.oldestSeqNo k) =
        (c.packedView packed).heldAt d (plus c.oldestSeqNo k) := by
      intro k hk
      have hne : c.slotIndex d (plus c.oldestSeqNo k) ≠ c.slotIndex d (plus c.oldestSeqNo i) := by
        intro h
        have := hr.slotIndex_inj hc (by omega) hi h
        omega
      have hslot : (c.packedView new).slot d (plus c.oldestSeqNo k) =
          (c.packedView packed).slot d (plus c.oldestSeqNo k) := by
        rw [← hnew]
        exact Function.update_of_ne hne _ _
      unfold heldAt slotLive
      rw [hslot]
      split
      · next hlk =>
        have hmem : (⟨plus c.oldestSeqNo k, ((c.packedView packed).slot d (plus c.oldestSeqNo k)).offset,
            ((c.packedView packed).slot d (plus c.oldestSeqNo k)).len,
            (c.packedView packed).arena
              ((c.packedView packed).slot d (plus c.oldestSeqNo k)).offset⟩ : Held) ∈
            (c.packedView packed).heldFrom d i c.oldestSeqNo :=
          mem_heldFrom.mpr ⟨k, hk, heldAt_of_live hlk⟩
        rw [hP.held] at hmem
        have hasc := @relocate_ascending 0 (c.heldFrom d i c.oldestSeqNo)
          (fun h hh => heldFrom_len hh)
        obtain ⟨_, hlen, hend⟩ := hasc.within (List.mem_map_of_mem hmem)
        rw [Nat.zero_add, ← hP.tail] at hend
        simp only [Held.seg] at hlen hend
        have hoff : ((c.packedView packed).slot d (plus c.oldestSeqNo k)).offset ≠ packed.2.2 := by
          omega
        have harena : (c.packedView new).arena
            ((c.packedView packed).slot d (plus c.oldestSeqNo k)).offset =
            (c.packedView packed).arena
              ((c.packedView packed).slot d (plus c.oldestSeqNo k)).offset := by
          rw [← hnew]
          exact if_neg hoff
        simp only [harena]
      · rfl
    refine ⟨?_, ?_, ?_, ?_⟩
    · rw [hsnoc, hsnoc, heldFrom_congr hbefore, hP.held, hown, hat, relocate_append, ← hP.tail,
        Nat.zero_add]
      rfl
    · rw [hsnoc, hat, heldBytes_append, ← hP.tail, ← hnew]
      simp [heldBytes, slot]
    · intro k hk hkn
      have hne : c.slotIndex d (plus c.oldestSeqNo k) ≠ c.slotIndex d (plus c.oldestSeqNo i) := by
        intro h
        have := hr.slotIndex_inj hc hkn hi h
        omega
      rw [← hnew]
      show Function.update packed.2.1 _ _ _ = _
      rw [Function.update_of_ne hne]
      exact hP.rest k (by omega) hkn
    · intro j
      rw [← hnew]
      show (Function.update packed.2.1 _ _ j).len = _ ∧ (Function.update packed.2.1 _ _ j).seqNo = _
      by_cases hj : j = c.slotIndex d (plus c.oldestSeqNo i)
      · subst hj
        rw [Function.update_self]
        exact ⟨rfl, rfl⟩
      · rw [Function.update_of_ne hj]
        exact hP.index j

theorem packed_all (hr : c.Ranged d) (hc : c.retains = true) (n : Nat)
    (hn : n ≤ steps c.oldestSeqNo c.newestSeqNo + 1) :
    Packed c d n (((List.range n).map (plus c.oldestSeqNo)).foldl (c.growStep d)
      (fun _ => none, c.index, 0)) := by
  induction n with
  | zero => exact ⟨rfl, rfl, fun _ _ _ => rfl, fun _ => ⟨rfl, rfl⟩⟩
  | succ n ih =>
    rw [List.range_succ, List.map_append, List.foldl_append]
    exact (ih (by omega)).step hr hc (by omega)

theorem Grouped.eq_nil {groups : List (List Held)} (hg : c.Grouped d groups)
    (hc : c.retains = false) : groups = [] := by
  cases groups with
  | nil => rfl
  | cons g gs => rw [hg.retains] at hc; cases hc

theorem Stored.heldBytes_le {groups : List (List Held)} (hs : c.Stored d groups) :
    heldBytes groups.flatten ≤ c.arenaSize := by
  by_cases hne : groups = []
  · subst hne
    exact Nat.zero_le _
  · have := (hs.laid hne).sum_le
    rwa [List.map_map] at this

/-- What a successful growth leaves as it was. -/
structure Grown (d size : Nat) (c c' : ReliableCache) : Prop where
  arenaSize : c'.arenaSize = size
  le : c.arenaSize ≤ size
  ringDepth : c'.ringDepth = d
  sampleDepth : c'.sampleDepth = c.sampleDepth
  evicted : c'.evicted = c.evicted

/-- What is held of a cache that has grown: the same records, packed from the start of the arena. -/
structure Repacked (d size : Nat) (c c' : ReliableCache) (rows : List Held) : Prop where
  grown : Grown d size c c'
  ranged : c'.Ranged d
  settled : c'.Settled d
  held : c'.held d = relocate 0 rows
  laid : rows ≠ [] → Laid size ((relocate 0 rows).map Held.seg) c'.tail
  retains : c'.retains = c.retains
  origin : c'.slotOrigin = c.slotOrigin
  oldest : c'.oldestSeqNo = c.oldestSeqNo
  newest : c'.newestSeqNo = c.newestSeqNo
  tail : c'.tail = heldBytes rows
  index : ∀ i, (c'.index i).len = (c.index i).len ∧ (c'.index i).seqNo = (c.index i).seqNo
  samples : c'.retainedSamples = if c.retains then c.retainedSamples else 0
  same : c'.arenaLimit = c.arenaLimit ∧ c'.depthShortfalls = c.depthShortfalls ∧
    c'.depthAssuredDatagrams = c.depthAssuredDatagrams ∧ c'.depthAssuredLen = c.depthAssuredLen

theorem grow_repacked {size : Nat} {rows : List Held} (hr : c.Ranged d) (hs : c.Settled d)
    (hheld : c.held d = rows) (hbytes : heldBytes rows ≤ c.arenaSize) (hd : c.ringDepth = d)
    (h : c.grow size = some c') : Repacked d size c c' rows := by
  have hd0 := hr.depth_pos
  unfold grow at h
  split at h
  · cases h
  next hle =>
  split at h
  · cases h
  simp only [hd] at h
  rw [if_neg (by omega)] at h
  have hdepth : ∀ s : ReliableCache, s.capacity = c.capacity → s.depth = c.depth →
      s.arenaSize = size → s.ringDepth = d := by
    intro s h1 h2 h3
    rw [← hd] at hd0
    rw [← hd]
    unfold ringDepth at hd0 ⊢
    rw [h1, h2, h3]
    split at hd0
    · omega
    · next hne => rw [if_neg (by omega), if_neg hne]
  cases hc : c.retains with
  | false =>
    have hso : c.slotOrigin = 0 := by simpa [ReliableCache.retains] using hc
    rw [held_of_not_retains hc] at hheld
    subst hheld
    simp only [hc, Bool.false_eq_true, if_false, List.foldl_nil, if_true, Option.some.injEq] at h
    subst h
    have hno : ReliableCache.retains { c with
        arena := (fun _ => none), index := c.index, arenaSize := size, tail := 0, slotOrigin := 0,
        retainedSamples := 0 } = false := rfl
    refine ⟨⟨rfl, by omega, hdepth _ rfl rfl rfl, rfl, rfl⟩, ⟨hr.depth_pos, hr.depth_lt, ?_, ?_, ?_⟩, ?_,
      held_of_not_retains hno, by simp, by rw [hno, hc], hso.symm, rfl, rfl, rfl, fun _ => ⟨rfl, rfl⟩, by simp [hc],
      rfl, rfl, rfl, rfl⟩
    all_goals
      intro h
      rw [hno] at h
      cases h
  | true =>
    have hP := packed_all hr hc (steps c.oldestSeqNo c.newestSeqNo + 1) (Nat.le_refl _)
    simp only [hc, if_true] at h
    generalize ((List.range (steps c.oldestSeqNo c.newestSeqNo + 1)).map (plus c.oldestSeqNo)).foldl
      (c.growStep d) (fun _ => none, c.index, 0) = packed at h hP
    have hfrom : c.heldFrom d (steps c.oldestSeqNo c.newestSeqNo + 1) c.oldestSeqNo = rows := by
      rw [← hheld, ReliableCache.held, if_pos hc]
    have htail := hP.tail
    rw [hfrom] at htail
    have hlen : ∀ x ∈ rows, 0 < x.len := by
      intro x hx
      rw [← hfrom] at hx
      exact heldFrom_len hx
    have hne : rows ≠ [] := by
      rw [← hheld]
      exact hs.retains_iff.mp hc
    have hpos : 0 < packed.2.2 := by
      obtain ⟨x, rest, rfl⟩ := List.exists_cons_of_ne_nil hne
      have := hlen x (by simp)
      rw [htail, heldBytes, List.map_cons, List.sum_cons]
      omega
    rw [if_neg (by omega), Option.some.injEq] at h
    subst h
    have hview := hP.held
    rw [hfrom] at hview
    generalize hg : ({ c with
      arena := packed.1, index := packed.2.1, arenaSize := size, tail := packed.2.2 } :
        ReliableCache) = g
    have hret : g.retains = true := by rw [← hg]; exact hc
    have hoc : g.oldestSeqNo = c.oldestSeqNo := by rw [← hg]
    have hnc : g.newestSeqNo = c.newestSeqNo := by rw [← hg]
    have hgheld : g.held d = relocate 0 rows := by
      rw [ReliableCache.held, if_pos hret, hoc, hnc, ← hview, ← hg]
      exact heldFrom_congr fun _ _ => rfl
    have hsettled : g.Settled d := by
      intro _
      have hlive := hs hc
      rw [← hg]
      rw [slotLive_iff] at hlive ⊢
      obtain ⟨h1, h2⟩ := hP.index (c.slotIndex d c.oldestSeqNo)
      exact ⟨fun h0 => hlive.1 (h1.symm.trans h0), h2.trans hlive.2⟩
    refine ⟨?_, ?_, hsettled, hgheld, ?_, by rw [hret, hc], ?_, hoc, hnc, ?_, ?_, ?_, ?_⟩
    · rw [← hg]
      exact ⟨rfl, by omega, hdepth _ rfl rfl rfl, rfl, rfl⟩
    · rw [← hg]
      exact ⟨hr.depth_pos, hr.depth_lt, fun _ => hr.forward hc, fun _ => hr.near hc, fun _ => hr.within hc⟩
    · intro _
      have hasc := @relocate_ascending 0 rows hlen
      rw [Nat.zero_add] at hasc
      rw [← hg]
      simp only
      rw [htail]
      refine Laid.flat_of_ascending ?_ hasc (by omega)
      intro h0
      rw [List.map_eq_nil_iff, ← hgheld] at h0
      exact hsettled.retains_iff.mp hret h0
    · rw [← hg]
    · rw [← hg]
      exact htail
    · intro i
      rw [← hg]
      exact hP.index i
    · rw [← hg, if_pos hc]
    · rw [← hg]
      exact ⟨rfl, rfl, rfl, rfl⟩

theorem grow_spec {size : Nat} (hR : c.Ready d old left seqNo) (hd : c.ringDepth = d)
    (h : c.grow size = some c') : Grown d size c c' ∧
      c'.Ready d (relocateGroups 0 old) (relocateGroups (heldBytes old.flatten) left) seqNo := by
  have hp := grow_repacked hR.stored.grouped.ranged hR.stored.grouped.settled hR.stored.grouped.held
    hR.stored.heldBytes_le hd h
  refine ⟨hp.grown, ?_⟩
  have hgroups : relocateGroups 0 old ++ relocateGroups (heldBytes old.flatten) left =
      relocateGroups 0 (old ++ left) := by
    rw [relocateGroups_append, Nat.zero_add]
  have hmem : ∀ (o : Nat) (gs : List (List Held)), ∀ x ∈ (relocateGroups o gs).flatten,
      ∃ y ∈ gs.flatten, x.seqNo = y.seqNo ∧ x.len = y.len ∧ x.record = y.record := by
    intro o gs x hx
    rw [relocateGroups_flatten] at hx
    exact mem_relocate hx
  refine ⟨⟨⟨hp.ranged, hp.settled, ?_, ?_⟩, ?_, ?_⟩, ?_, ?_, ?_, ?_, ?_, ?_⟩
  · rw [hgroups, relocateGroups_flatten]
    exact hp.held
  · rw [hgroups]
    exact isSample_relocateGroups hR.stored.grouped.samples
  · intro hne
    rw [hgroups, relocateGroups_flatten, hp.grown.arenaSize]
    apply hp.laid
    intro h0
    rw [hgroups] at hne
    obtain ⟨g, gs, hcons⟩ := List.exists_cons_of_ne_nil hne
    have hflat := relocateGroups_flatten 0 (old ++ left)
    rw [h0, hcons] at hflat
    have hsample : IsSample g := isSample_relocateGroups hR.stored.grouped.samples g (by rw [hcons]; simp)
    simp [relocate, hsample.ne_nil] at hflat
  · intro x hx
    rw [hgroups] at hx
    obtain ⟨y, hy, h1, h2, h3⟩ := hmem _ _ x hx
    rw [h1, h2, h3]
    exact hR.stored.records y hy
  · intro hc
    rw [hp.oldest]
    exact hR.reach (hp.retains ▸ hc)
  · intro x hx
    obtain ⟨y, hy, h1, _⟩ := hmem _ _ x hx
    rw [hp.oldest, h1]
    exact hR.below y hy
  · intro x hx
    obtain ⟨y, hy, h1, _⟩ := hmem _ _ x hx
    rw [hp.oldest, h1]
    exact hR.above y hy
  · intro x hx
    rw [relocateGroups_flatten] at hx
    cases hl : left.flatten with
    | nil => rw [hl] at hx; simp [relocate] at hx
    | cons y ys =>
      rw [hl, relocate, List.head?_cons, Option.mem_some_iff] at hx
      rw [← hx]
      exact hR.next y (by simp [hl])
  · rw [relocateGroups_length]
    exact hR.single
  · intro hc i hi hpast
    obtain ⟨h1, h2⟩ := hp.index i
    rw [hp.oldest, hp.newest] at *
    rw [h2] at hpast ⊢
    exact hR.gap (hp.retains ▸ hc) i (h1 ▸ hi) hpast

end ReliableCache

end Tickle
