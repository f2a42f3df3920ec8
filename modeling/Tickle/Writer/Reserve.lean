import Tickle.RingArena
import Tickle.Writer.Held

/-! # Reserving a record

`reliable_cache_reserve()` against the list of records held: the count bound and the byte bound each
drop whole samples from the front, and the record lands behind what is left, where the arena's ring
has room for it.
-/

namespace Tickle

open Serial Loop RingArena

namespace ReliableCache

variable {c c' : ReliableCache} {d : Nat} {seqNo : SeqNo}

/-! ## The slot origin -/

/-- A placed origin keeps every slot within half the seq_no space, and moves by whole rings. -/
theorem placeOrigin_spec (origin seqNo : SeqNo) (hd : 0 < d) (hlt : d < 65536) :
    placeOrigin origin d seqNo ≠ 0 ∧ steps (placeOrigin origin d seqNo) seqNo < 2 ^ 31 ∧
    (origin ≠ 0 → ∃ k, steps origin seqNo = steps (placeOrigin origin d seqNo) seqNo + k * d ∧
      (k = 0 ∨ d ≤ steps (placeOrigin origin d seqNo) seqNo)) := by
  unfold placeOrigin
  simp only
  generalize hor : (if origin = 0 then (1 : SeqNo) else origin) = o
  have ho0 : o ≠ 0 := by
    rw [← hor]
    split
    · decide
    · assumption
  have horig : origin ≠ 0 → o = origin := by intro h; rw [← hor, if_neg h]
  generalize hp : steps o seqNo = p
  have hplt : p < 2 ^ 32 := hp ▸ steps_lt o seqNo
  split
  · next hbig =>
    have h1 : (p - 0x40000000) / d * d ≤ p - 0x40000000 := Nat.div_mul_le_self _ _
    have h2 : p - 0x40000000 < (p - 0x40000000) / d * d + d := Nat.lt_div_mul_add hd
    generalize hk : (p - 0x40000000) / d = k at h1 h2
    have hq : steps (plus o (k * d)) seqNo = p - k * d := by
      generalize k * d = q at h1 h2
      unfold steps plus at *
      bv_omega
    split
    · next hz =>
      rw [hz] at hq
      have hq' : steps (BitVec.ofNat 32 d) seqNo = p - k * d - d := by
        generalize k * d = q at h1 h2 hq
        unfold steps at *
        bv_omega
      refine ⟨by bv_omega, by omega, fun h => ⟨k + 1, ?_, Or.inr (by omega)⟩⟩
      rw [hq', ← horig h, hp, Nat.add_mul]
      omega
    · next hz =>
      refine ⟨hz, by omega, fun h => ⟨k, ?_, Or.inr (by omega)⟩⟩
      rw [hq, ← horig h, hp]
      omega
  · next hsmall =>
    exact ⟨ho0, by omega, fun h => ⟨0, by rw [← horig h, hp]; omega, Or.inl rfl⟩⟩

/-- The origin a record is placed by, with something retained up to `steps oldest seqNo < d` back:
every retained seq_no keeps its slot. -/
theorem reserveOrigin_spec (hr : c.Ranged d) (hc : c.retains = true)
    (hreach : steps c.oldestSeqNo seqNo < d) :
    c.reserveOrigin d seqNo ≠ 0 ∧
    steps (c.reserveOrigin d seqNo) seqNo < 2 ^ 31 ∧
    steps (c.reserveOrigin d seqNo) seqNo =
      steps (c.reserveOrigin d seqNo) c.oldestSeqNo + steps c.oldestSeqNo seqNo ∧
    steps (c.reserveOrigin d seqNo) c.oldestSeqNo % d = steps c.slotOrigin c.oldestSeqNo % d := by
  have h1 := hr.forward hc
  have h2 := hr.near hc
  have h3 := hr.depth_lt
  have hc0 : c.slotOrigin ≠ 0 := by simpa [retains] using hc
  have hsum : steps c.slotOrigin seqNo = steps c.slotOrigin c.oldestSeqNo + steps c.oldestSeqNo seqNo :=
    steps_trans (by omega)
  unfold reserveOrigin
  split
  · obtain ⟨hne, hlt, hk⟩ := placeOrigin_spec (d := d) c.slotOrigin seqNo hr.depth_pos h3
    obtain ⟨k, hk, hback⟩ := hk hc0
    refine ⟨hne, hlt, ?_⟩
    generalize placeOrigin c.slotOrigin d seqNo = o at *
    have hold : steps o seqNo = steps o c.oldestSeqNo + steps c.oldestSeqNo seqNo := by
      apply steps_split_back
      rcases hback with rfl | hback
      · omega
      · omega
    refine ⟨hold, ?_⟩
    have : steps c.slotOrigin c.oldestSeqNo = steps o c.oldestSeqNo + k * d := by omega
    rw [this, Nat.add_mul_mod_self_right]
  · next hno =>
    simp only [not_or] at hno
    have := (seqDelta_nonneg seqNo c.slotOrigin).mp (by omega)
    exact ⟨hc0, this, hsum, rfl⟩

theorem reserveOrigin_of_empty (hd : 0 < d) (hlt : d < 65536) (hc : c.retains = false) :
    c.reserveOrigin d seqNo ≠ 0 ∧ steps (c.reserveOrigin d seqNo) seqNo < 2 ^ 31 := by
  have hc0 : c.slotOrigin = 0 := by simpa [retains] using hc
  unfold reserveOrigin
  rw [if_pos (Or.inl hc0)]
  obtain ⟨h1, h2, _⟩ := placeOrigin_spec (d := d) c.slotOrigin seqNo hd hlt
  exact ⟨h1, h2⟩

/-! ## The cache between publishes -/

/-- Samples held, in arena order, each record as long as its entry says. -/
structure Stored (c : ReliableCache) (d : Nat) (groups : List (List Held)) : Prop where
  grouped : c.Grouped d groups
  laid : groups ≠ [] → Laid c.arenaSize (groups.flatten.map Held.seg) c.tail
  records : ∀ h ∈ groups.flatten, ∃ r, h.record = some r ∧ r.length = h.len ∧ r.seqNo = h.seqNo

/-- `seqNo` is the next to be reserved. `old` was published before it; `left` is what a publish whose
send failed left under `seqNo` and after. No index entry names a seq_no passed over since the newest. -/
structure Ready (c : ReliableCache) (d : Nat) (old left : List (List Held)) (seqNo : SeqNo) :
    Prop where
  stored : c.Stored d (old ++ left)
  reach : c.retains = true → steps c.oldestSeqNo seqNo < 2 ^ 30
  below : ∀ h ∈ old.flatten, steps c.oldestSeqNo h.seqNo < steps c.oldestSeqNo seqNo
  above : ∀ h ∈ left.flatten, steps c.oldestSeqNo seqNo ≤ steps c.oldestSeqNo h.seqNo
  next : ∀ h ∈ left.flatten.head?, h.seqNo = seqNo
  single : left.length ≤ 1
  gap : c.retains = true → ∀ i, (c.index i).len ≠ 0 →
    steps c.oldestSeqNo c.newestSeqNo < steps c.oldestSeqNo (c.index i).seqNo →
    steps c.oldestSeqNo seqNo ≤ steps c.oldestSeqNo (c.index i).seqNo

theorem Grouped.head_seqNo {groups : List (List Held)} (h : c.Grouped d groups)
    (hc : c.retains = true) : ∃ first rest, groups.flatten = first :: rest ∧
      first.seqNo = c.oldestSeqNo ∧ first.offset = (c.slot d c.oldestSeqNo).offset := by
  have h1 := h.held
  rw [h.settled.held_cons hc] at h1
  exact ⟨_, _, h1.symm, rfl, rfl⟩

theorem mem_held {x : Held} (h : x ∈ c.held d) : c.retains = true ∧
    ∃ i ≤ steps c.oldestSeqNo c.newestSeqNo, x.seqNo = plus c.oldestSeqNo i ∧
      c.heldAt d x.seqNo = some x := by
  unfold held at h
  split at h
  · next hc =>
    obtain ⟨i, hi, hh⟩ := mem_heldFrom.mp h
    have hx := heldAt_seqNo hh
    exact ⟨hc, i, by omega, hx, by rw [hx]; exact hh⟩
  · simp at h

/-- Eviction keeps a cache stored. -/
theorem Stored.evicted {gone kept : List (List Held)} (hs : c.Stored d (gone ++ kept))
    (he : Evicted d c c' gone.flatten) (hg : c'.Grouped d kept) : c'.Stored d kept := by
  refine ⟨hg, ?_, ?_⟩
  · intro hne
    have hr : c'.retains = true := by
      obtain ⟨g, gs, rfl⟩ := List.exists_cons_of_ne_nil hne
      exact hg.retains
    obtain ⟨_, _, ht, _⟩ := he.range hr
    have hlaid := hs.laid (by simp [hne])
    rw [he.store.arenaSize, ht]
    rw [List.flatten_append, List.map_append] at hlaid
    have hlen : (gone.flatten.map Held.seg).length <
        (gone.flatten.map Held.seg ++ kept.flatten.map Held.seg).length := by
      obtain ⟨g, gs, rfl⟩ := List.exists_cons_of_ne_nil hne
      have := List.length_pos_iff.mpr (hg.samples g (by simp)).ne_nil
      simp only [List.length_append, List.length_map, List.flatten_cons]
      omega
    simpa using hlaid.drop hlen
  · intro h hh
    exact hs.records h (by simp [hh])

/-- The distance from the oldest, seen from before and after an eviction. -/
theorem Evicted.steps_mem {gone : List Held} (he : Evicted d c c' gone) {x : Held}
    (hx : x ∈ c'.held d) : steps c.oldestSeqNo x.seqNo =
      steps c.oldestSeqNo c'.oldestSeqNo + steps c'.oldestSeqNo x.seqNo := by
  obtain ⟨hr, i, hi, hseq, _⟩ := mem_held hx
  obtain ⟨_, _, _, hsum⟩ := he.range hr
  rw [he.store.newestSeqNo] at hi
  have := steps_lt c.oldestSeqNo c.newestSeqNo
  rw [hseq, steps_plus_of (by omega), steps_plus _ (by omega)]

theorem Ready.evicted {gone kept left : List (List Held)} (hR : c.Ready d (gone ++ kept) left seqNo)
    (he : Evicted d c c' gone.flatten) (hg : c'.Grouped d (kept ++ left)) :
    c'.Ready d kept left seqNo := by
  have hsplit : c'.retains = true → steps c.oldestSeqNo seqNo =
      steps c.oldestSeqNo c'.oldestSeqNo + steps c'.oldestSeqNo seqNo := by
    intro hr
    obtain ⟨first, rest, hflat, hfirst, _⟩ := hg.head_seqNo hr
    apply steps_split
    rw [← hfirst]
    rw [List.flatten_append] at hflat
    cases hk : kept.flatten with
    | nil =>
      rw [hk, List.nil_append] at hflat
      rw [hR.next first (by simp [hflat])]
    | cons y ys =>
      rw [hk, List.cons_append, List.cons.injEq] at hflat
      have := hR.below y (by simp [hk])
      rw [hflat.1] at this
      omega
  have hmem : ∀ h ∈ (kept ++ left).flatten, h ∈ c'.held d := fun h hh => by rw [hg.held]; exact hh
  refine ⟨@Stored.evicted c c' d gone _ (by simpa using hR.stored) he hg, ?_, ?_, ?_, hR.next, hR.single, ?_⟩
  · intro hr
    obtain ⟨h0, _, _, _⟩ := he.range hr
    have := hR.reach h0
    have := hsplit hr
    omega
  · intro h hh
    have hin := hmem h (by simp [hh])
    have h1 := he.steps_mem hin
    have h2 := hsplit (mem_held hin).1
    have h3 := hR.below h (by simp [hh])
    omega
  · intro h hh
    have hin := hmem h (by simp [hh])
    have h1 := he.steps_mem hin
    have h2 := hsplit (mem_held hin).1
    have h3 := hR.above h (by simp [hh])
    omega
  · intro hr i hi hpast
    obtain ⟨h0, _, _, hsum⟩ := he.range hr
    have hidx := he.index_eq hi
    rw [hidx] at hi hpast ⊢
    rw [he.store.newestSeqNo] at hpast
    have h2 := hsplit hr
    have h4 := hR.reach h0
    have h5 := hR.stored.grouped.ranged.within h0
    have h6 := hR.stored.grouped.ranged.depth_lt
    by_cases hx : steps c.oldestSeqNo c'.oldestSeqNo ≤ steps c.oldestSeqNo (c.index i).seqNo
    · have h1 := steps_split hx
      have h3 := hR.gap h0 i hi (by omega)
      omega
    · have := steps_past (Nat.lt_of_not_le hx)
      omega

/-! ## The count bound -/

/-- The ring has no slot for `seqNo` beside the oldest of these. -/
def CountDemand (d : Nat) (seqNo : SeqNo) (groups : List (List Held)) : Prop :=
  ∀ h ∈ groups.flatten.head?, d < steps h.seqNo seqNo + 1

theorem reserveIndexRoom_spec {old left : List (List Held)} (hR : c.Ready d old left seqNo) :
    ∃ gone kept, old = gone ++ kept ∧ Drops (CountDemand d seqNo) old kept ∧
      Evicted d c (c.reserveIndexRoom d seqNo) gone.flatten ∧
      (c.reserveIndexRoom d seqNo).Ready d kept left seqNo ∧
      ((c.reserveIndexRoom d seqNo).retains = true →
        steps (c.reserveIndexRoom d seqNo).oldestSeqNo seqNo < d) := by
  have hpos := hR.stored.grouped.ranged.depth_pos
  obtain ⟨gone, kept, hall, hdrop, he, hg, hexit⟩ := hR.stored.grouped.evictWhile
    (fun s => s.retains && (seqNo - s.oldestSeqNo + 1).toNat > d) (CountDemand d seqNo) (by
      intro s gone kept he hg hcond
      simp only [Bool.and_eq_true, decide_eq_true_eq] at hcond
      obtain ⟨first, rest, hflat, hfirst, _⟩ := hg.head_seqNo hcond.1
      refine ⟨by rintro rfl; simp at hflat, ?_⟩
      intro h hh
      rw [hflat, List.head?_cons, Option.mem_some_iff] at hh
      subst hh
      rw [hfirst]
      have := sub_succ_le s.oldestSeqNo seqNo
      omega)
  -- the failed publish's own records are not behind `seqNo`, so the bound never asks for them
  obtain ⟨kept, rfl, hdrop'⟩ := hdrop.keeps (by
    intro hne hd
    obtain ⟨g, gs, rfl⟩ := List.exists_cons_of_ne_nil hne
    obtain ⟨first, conts, rfl, _⟩ := hR.stored.grouped.samples g (by simp)
    have h1 := hd first (by simp)
    rw [hR.next first (by simp), steps_self] at h1
    omega)
  obtain ⟨gone', hgone⟩ := hdrop'.suffix
  have hgg : gone' = gone := by
    rw [hgone, List.append_assoc] at hall
    exact List.append_cancel_right hall
  subst hgg hgone
  refine ⟨gone', kept, rfl, ?_, he, hR.evicted he hg, ?_⟩
  · refine hdrop'.imp fun pre g post hpg hd => ?_
    obtain ⟨first, conts, rfl, _⟩ := hR.stored.grouped.samples g (by simp [hpg])
    intro h hh
    exact hd h (by simpa using hh)
  · intro hr
    have hready := hR.evicted he hg
    have hreach := hready.reach hr
    have hexit' : ¬ (seqNo - (c.reserveIndexRoom d seqNo).oldestSeqNo + 1).toNat > d := by
      change ((c.reserveIndexRoom d seqNo).retains &&
        decide ((seqNo - (c.reserveIndexRoom d seqNo).oldestSeqNo + 1).toNat > d)) = false at hexit
      simpa [hr] using hexit
    have hreach' : steps (c.reserveIndexRoom d seqNo).oldestSeqNo seqNo < 2 ^ 30 := hreach
    rw [sub_succ (by omega)] at hexit'
    omega

/-! ## The entry -/

/-- The records under the seq_nos before `seqNo` are the old ones. -/
theorem Ready.heldFrom_before {old left : List (List Held)} (hR : c.Ready d old left seqNo)
    (hc : c.retains = true) :
    c.heldFrom d (steps c.oldestSeqNo seqNo) c.oldestSeqNo = old.flatten := by
  have hheld : c.heldFrom d (steps c.oldestSeqNo c.newestSeqNo + 1) c.oldestSeqNo =
      old.flatten ++ left.flatten := by
    rw [← List.flatten_append, ← hR.stored.grouped.held, held, if_pos hc]
  have hdn := steps_lt c.oldestSeqNo c.newestSeqNo
  by_cases hlt : steps c.oldestSeqNo c.newestSeqNo < steps c.oldestSeqNo seqNo
  · -- the seq_nos passed over hold nothing, and nothing was left at or past `seqNo`
    have hleft : left.flatten = [] := by
      refine List.eq_nil_iff_forall_not_mem.mpr fun h hh => ?_
      have h1 := hR.above h hh
      obtain ⟨_, i, hi, hseq, _⟩ := mem_held (d := d) (c := c) (x := h)
        (by rw [hR.stored.grouped.held]; simp [hh])
      rw [hseq, steps_plus _ (by omega)] at h1
      omega
    rw [hleft, List.append_nil] at hheld
    rw [show steps c.oldestSeqNo seqNo = steps c.oldestSeqNo c.newestSeqNo + 1 +
      (steps c.oldestSeqNo seqNo - (steps c.oldestSeqNo c.newestSeqNo + 1)) by omega,
      heldFrom_add, hheld]
    refine List.append_right_eq_self.mpr (List.eq_nil_iff_forall_not_mem.mpr fun h hh => ?_)
    obtain ⟨i, hi, hh⟩ := mem_heldFrom.mp hh
    rw [← plus_add] at hh
    unfold heldAt slotLive at hh
    split at hh
    · next hlive =>
      simp only [Bool.and_eq_true, decide_eq_true_eq] at hlive
      have hreach := hR.reach hc
      have hd' := steps_plus c.oldestSeqNo (n := steps c.oldestSeqNo c.newestSeqNo + 1 + i) (by omega)
      have hg := hR.gap hc (c.slotIndex d (plus c.oldestSeqNo
        (steps c.oldestSeqNo c.newestSeqNo + 1 + i))) hlive.1
      unfold slot at hlive
      rw [hlive.2, hd'] at hg
      have := hg (by omega)
      omega
    · cases hh
  · rw [show steps c.oldestSeqNo c.newestSeqNo + 1 = steps c.oldestSeqNo seqNo +
      (steps c.oldestSeqNo c.newestSeqNo + 1 - steps c.oldestSeqNo seqNo) by omega,
      heldFrom_add] at hheld
    have hfilter := congrArg
      (List.filter fun h => decide (steps c.oldestSeqNo h.seqNo < steps c.oldestSeqNo seqNo)) hheld
    rw [List.filter_append, List.filter_append] at hfilter
    rw [List.filter_eq_self.mpr, List.filter_eq_nil_iff.mpr, List.filter_eq_self.mpr,
      List.filter_eq_nil_iff.mpr, List.append_nil, List.append_nil] at hfilter
    · exact hfilter
    · intro h hh
      have := hR.above h hh
      simpa using this
    · intro h hh
      simpa using hR.below h hh
    · intro h hh
      obtain ⟨i, hi, hh⟩ := mem_heldFrom.mp hh
      rw [← plus_add] at hh
      rw [heldAt_seqNo hh, steps_plus _ (by omega)]
      simp
    · intro h hh
      obtain ⟨i, hi, hh⟩ := mem_heldFrom.mp hh
      rw [heldAt_seqNo hh, steps_plus _ (by omega)]
      simpa using hi

section Entry

variable {now : Nat}

theorem reserveEntry_retains (hr : c.Ranged d) (hreach : c.retains = true →
    steps c.oldestSeqNo seqNo < d) : (c.reserveEntry d seqNo now).retains = c.retains := by
  cases hc : c.retains with
  | false =>
    have h0 : c.slotOrigin = 0 := by simpa [retains] using hc
    simp [reserveEntry, retains, h0]
  | true =>
    have := (reserveOrigin_spec hr hc (hreach hc)).1
    rw [reserveEntry, if_pos hc, retains]
    simpa using this

theorem reserveEntry_origin (hc : c.retains = true) :
    (c.reserveEntry d seqNo now).slotOrigin = c.reserveOrigin d seqNo := by
  simp [reserveEntry, hc]

/-- Every seq_no from the oldest up to `seqNo` keeps its slot, and only `seqNo`'s is written. -/
theorem reserveEntry_slot (hr : c.Ranged d) (hc : c.retains = true)
    (hreach : steps c.oldestSeqNo seqNo < d) {i : Nat} (hi : i < steps c.oldestSeqNo seqNo) :
    (c.reserveEntry d seqNo now).slot d (plus c.oldestSeqNo i) = c.slot d (plus c.oldestSeqNo i) := by
  obtain ⟨_, hnear, hsum, hmod⟩ := reserveOrigin_spec hr hc hreach
  have h1 := hr.forward hc
  have h2 := hr.near hc
  have hd := hr.depth_lt
  have hidx : steps (c.reserveOrigin d seqNo) (plus c.oldestSeqNo i) % d =
      steps c.slotOrigin (plus c.oldestSeqNo i) % d := by
    rw [steps_plus_of (by omega), steps_plus_of (by omega), Nat.add_mod, hmod, ← Nat.add_mod]
  have hne : steps (c.reserveOrigin d seqNo) (plus c.oldestSeqNo i) % d ≠
      steps (c.reserveOrigin d seqNo) seqNo % d := by
    rw [steps_plus_of (by omega), hsum]
    intro h
    have := mod_injective (by omega) hreach h
    omega
  unfold slot slotIndex
  rw [reserveEntry_origin hc]
  simp only [reserveEntry]
  rw [Function.update_of_ne hne, hidx]

theorem reserveEntry_heldAt (hr : c.Ranged d) (hc : c.retains = true)
    (hreach : steps c.oldestSeqNo seqNo < d) {i : Nat} (hi : i < steps c.oldestSeqNo seqNo) :
    (c.reserveEntry d seqNo now).heldAt d (plus c.oldestSeqNo i) =
      c.heldAt d (plus c.oldestSeqNo i) :=
  heldAt_of_slot (reserveEntry_slot hr hc hreach hi) rfl

/-- The entry of `seqNo` is a tombstone. -/
theorem reserveEntry_own (hc : c.retains = true) :
    (c.reserveEntry d seqNo now).slot d seqNo =
      { timestamp := now, seqNo := seqNo, offset := 0, len := 0, retry := 0, resentAt := 0 } := by
  unfold slot slotIndex
  rw [reserveEntry_origin hc]
  simp only [reserveEntry, Function.update_self]

theorem reserveEntry_ranged (hr : c.Ranged d) (hreach : c.retains = true →
    steps c.oldestSeqNo seqNo < d) : (c.reserveEntry d seqNo now).Ranged d := by
  have hret : (c.reserveEntry d seqNo now).retains = c.retains := reserveEntry_retains hr hreach
  refine ⟨hr.depth_pos, hr.depth_lt, ?_, ?_, ?_⟩
  all_goals
    intro h
    rw [hret] at h
    obtain ⟨_, hnear, hsum, _⟩ := reserveOrigin_spec hr h (hreach h)
    try rw [reserveEntry_origin h]
  · show steps (c.reserveOrigin d seqNo) c.oldestSeqNo ≤ steps (c.reserveOrigin d seqNo) seqNo
    omega
  · exact hnear
  · exact hreach h

/-- With something older retained, what is held is what was published before. -/
theorem reserveEntry_stored {old left : List (List Held)} (hR : c.Ready d old left seqNo)
    (hreach : c.retains = true → steps c.oldestSeqNo seqNo < d) (hne : old ≠ []) :
    (c.reserveEntry d seqNo now).Stored d old := by
  have hr := hR.stored.grouped.ranged
  have hc : c.retains = true := by
    obtain ⟨g, gs, rfl⟩ := List.exists_cons_of_ne_nil hne
    exact hR.stored.grouped.retains
  have hret : (c.reserveEntry d seqNo now).retains = true := by
    rw [reserveEntry_retains hr hreach, hc]
  have hpos : 0 < steps c.oldestSeqNo seqNo := by
    obtain ⟨g, gs, rfl⟩ := List.exists_cons_of_ne_nil hne
    obtain ⟨first, conts, rfl, _⟩ := hR.stored.grouped.samples g (by simp)
    have := hR.below first (by simp)
    omega
  refine ⟨⟨reserveEntry_ranged hr hreach, ?_, ?_, ?_⟩, ?_, ?_⟩
  · intro _
    have h0 : (c.reserveEntry d seqNo now).slot d (plus c.oldestSeqNo 0) = _ :=
      reserveEntry_slot hr hc (hreach hc) hpos
    rw [plus_zero] at h0
    show slotLive _ d c.oldestSeqNo = true
    unfold slotLive
    rw [h0]
    exact hR.stored.grouped.settled hc
  · rw [held, if_pos hret]
    show heldFrom _ d (steps c.oldestSeqNo seqNo + 1) c.oldestSeqNo = _
    rw [heldFrom_add, heldFrom_congr fun i hi => reserveEntry_heldAt hr hc (hreach hc) hi,
      hR.heldFrom_before hc, plus_steps]
    have hown : (c.reserveEntry d seqNo now).heldAt d seqNo = none := by
      rw [heldAt_eq_none, slotLive, reserveEntry_own hc]
      rfl
    simp [heldFrom, hown]
  · exact fun g hg => hR.stored.grouped.samples g (by simp [hg])
  · intro _
    have hl := hR.stored.laid (by simp [hne])
    rw [List.flatten_append, List.map_append] at hl
    refine hl.take ?_
    obtain ⟨g, gs, rfl⟩ := List.exists_cons_of_ne_nil hne
    simp [(hR.stored.grouped.samples g (by simp)).ne_nil]
  · intro h hh
    exact hR.stored.records h (by simp [hh])

end Entry

/-! ## The byte bound -/

theorem offsetIn_eq_some {size tail footprint offset : Nat} {segs : List (Nat × Nat)}
    (hpos : 0 < footprint) :
    offsetIn size false (headOffset segs) tail footprint = some offset ↔
      Fits size segs tail footprint offset := by
  unfold offsetIn Fits
  simp only [Bool.false_eq_true, if_false]
  split
  · simp only [reduceCtorEq, false_iff]
    omega
  · split
    · split
      · simp only [Option.some.injEq]
        omega
      · split
        · simp only [Option.some.injEq]
          omega
        · simp only [reduceCtorEq, false_iff]
          omega
    · split
      · simp only [Option.some.injEq]
        omega
      · simp only [reduceCtorEq, false_iff]
        omega

/-- The arena has no place for `footprint` bytes beside these. -/
def ByteDemand (size tail footprint : Nat) (groups : List (List Held)) : Prop :=
  ∀ offset, ¬ Fits size (groups.flatten.map Held.seg) tail footprint offset

theorem Grouped.writeOffset_eq {groups : List (List Held)} (h : c.Grouped d groups)
    (hc : c.retains = true) (footprint : Nat) : c.writeOffset d footprint =
      offsetIn c.arenaSize false (headOffset (groups.flatten.map Held.seg)) c.tail footprint := by
  obtain ⟨first, rest, hflat, _, hoff⟩ := h.head_seqNo hc
  rw [hflat, List.map_cons, headOffset, writeOffset, hc]
  simp only [Bool.not_true, Bool.false_eq_true, if_false]
  rw [Held.seg, hoff]

theorem writeOffset_of_empty (hc : c.retains = false) (footprint : Nat) :
    c.writeOffset d footprint = some 0 := by
  simp [writeOffset, hc, offsetIn]

theorem reserveByteRoom_spec {groups : List (List Held)} (hs : c.Stored d groups)
    {footprint : Nat} (hpos : 0 < footprint) :
    ∃ gone kept offset, groups = gone ++ kept ∧
      Drops (ByteDemand c.arenaSize c.tail footprint) groups kept ∧
      Evicted d c (c.reserveByteRoom d footprint) gone.flatten ∧
      (c.reserveByteRoom d footprint).Stored d kept ∧
      (c.reserveByteRoom d footprint).writeOffset d footprint = some offset ∧
      (kept = [] → offset = 0) ∧
      (kept ≠ [] → Fits c.arenaSize (kept.flatten.map Held.seg) c.tail footprint offset) := by
  obtain ⟨gone, kept, rfl, hdrop, he, hg, hexit⟩ := hs.grouped.evictWhile
    (fun s => (s.writeOffset d footprint).isNone) (ByteDemand c.arenaSize c.tail footprint) (by
      intro s gone kept he hg hcond
      simp only [Option.isNone_iff_eq_none] at hcond
      cases hr : s.retains with
      | false => rw [writeOffset_of_empty hr] at hcond; cases hcond
      | true =>
        refine ⟨?_, fun offset hf => ?_⟩
        · rintro rfl
          rw [hg.not_retains] at hr
          cases hr
        · obtain ⟨_, _, ht, _⟩ := he.range hr
          rw [hg.writeOffset_eq hr, he.store.arenaSize, ht,
            (offsetIn_eq_some hpos).mpr hf] at hcond
          cases hcond)
  have hs' := hs.evicted he hg
  change (c.reserveByteRoom d footprint).Stored d kept at hs'
  change Evicted d c (c.reserveByteRoom d footprint) gone.flatten at he
  change ((c.reserveByteRoom d footprint).writeOffset d footprint).isNone = false at hexit
  obtain ⟨offset, hoff⟩ : ∃ o, (c.reserveByteRoom d footprint).writeOffset d footprint = some o := by
    cases ho : (c.reserveByteRoom d footprint).writeOffset d footprint with
    | none => rw [ho] at hexit; cases hexit
    | some o => exact ⟨o, rfl⟩
  refine ⟨gone, kept, offset, rfl, hdrop, he, hs', hoff, ?_, ?_⟩
  · rintro rfl
    rw [writeOffset_of_empty hs'.grouped.not_retains] at hoff
    exact (Option.some.inj hoff).symm
  · intro hne
    obtain ⟨g, gs, rfl⟩ := List.exists_cons_of_ne_nil hne
    have hr := hs'.grouped.retains
    obtain ⟨_, _, ht, _⟩ := he.range hr
    rw [hs'.grouped.writeOffset_eq hr, he.store.arenaSize, ht] at hoff
    exact (offsetIn_eq_some hpos).mp hoff

/-- Nothing older is retained and the own entry is a tombstone: the room is behind the tail, or the
whole arena once the tombstone has gone. -/
theorem reserveByteRoom_hollow (hr : c.Ranged d) (hc : c.retains = true)
    (hn : c.oldestSeqNo = c.newestSeqNo) (hl : (c.slot d c.oldestSeqNo).len = 0)
    (ho : (c.slot d c.oldestSeqNo).offset = 0) {footprint : Nat} (hpos : 0 < footprint) :
    ∃ offset, Evicted d c (c.reserveByteRoom d footprint) [] ∧
      (c.reserveByteRoom d footprint).writeOffset d footprint = some offset ∧
      ((c.reserveByteRoom d footprint).retains = true ∧ offset + footprint ≤ c.arenaSize ∧
          (c.reserveByteRoom d footprint).oldestSeqNo = c.oldestSeqNo ∧ offset = c.tail ∨
        (c.reserveByteRoom d footprint).retains = false ∧ offset = 0) := by
  have hwrite : c.writeOffset d footprint = offsetIn c.arenaSize false 0 c.tail footprint := by
    simp [writeOffset, hc, ho]
  have hdead : c.heldAt d c.oldestSeqNo = none := by
    rw [heldAt_eq_none, slotLive, hl]
    rfl
  unfold reserveByteRoom
  cases hw : c.writeOffset d footprint with
  | some offset =>
    rw [whileN_of_not (by simp [hw])]
    have hfits : Fits c.arenaSize [] c.tail footprint offset := by
      rw [hwrite, show (0 : Nat) = headOffset [] from rfl] at hw
      exact (offsetIn_eq_some hpos).mp hw
    simp only [Fits, headOffset] at hfits
    exact ⟨offset, .refl c, hw, Or.inl ⟨hc, by omega, rfl, by omega⟩⟩
  | none =>
    have hempty : (c.evictOne d).retains = false := by
      rw [evictOne, if_neg (by simp [hc]), if_pos hn, emptied_retains]
    have hold : c.evictOldest d = c.evictOne d := by
      unfold evictOldest
      exact whileN_of_not (by simp [oldestContinues, hempty]) _
    have he := (evictOne_spec hr hc).1
    rw [hdead, Option.toList_none] at he
    rw [whileN_step (by simp [hw]), hold,
      whileN_of_not (by simp [writeOffset_of_empty hempty])]
    exact ⟨0, he, writeOffset_of_empty hempty _, Or.inr ⟨hempty, rfl⟩⟩

end ReliableCache

/-! ## The place -/

theorem Arena.write_self (arena : Arena) (offset : Nat) (record : Record) :
    arena.write offset record offset = some record := by
  simp [Arena.write]

/-- A record whose bytes the write does not touch stays. -/
theorem Arena.write_disjoint {arena : Arena} {offset o : Nat} {record old : Record}
    (hold : arena o = some old) (hpos : 0 < old.length) (hpos' : 0 < record.length)
    (hdis : RingArena.Disjoint (o, old.length) (offset, record.length)) :
    arena.write offset record o = some old := by
  simp only [RingArena.Disjoint] at hdis
  unfold Arena.write
  rw [if_neg (by omega), hold]
  have : (decide (o + old.length ≤ offset) || decide (offset + record.length ≤ o)) = true := by
    simpa using hdis
  simp [Option.filter, this]

namespace ReliableCache

variable {c c' : ReliableCache} {d : Nat} {seqNo : SeqNo}

/-- A record placed behind `kept`, what is left of what `c` held. -/
structure Landed (d : Nat) (c c' : ReliableCache) (kept : List (List Held)) (new : Held) : Prop where
  ranged : c'.Ranged d
  settled : c'.Settled d
  retains : c'.retains = true
  held : c'.held d = kept.flatten ++ [new]
  laid : Laid c'.arenaSize ((kept.flatten ++ [new]).map Held.seg) c'.tail
  records : ∀ h ∈ kept.flatten ++ [new], ∃ r, h.record = some r ∧ r.length = h.len ∧
    r.seqNo = h.seqNo
  below : ∀ h ∈ kept.flatten, steps c'.oldestSeqNo h.seqNo < steps c'.oldestSeqNo new.seqNo
  newest : c'.newestSeqNo = new.seqNo
  tail : c'.tail = new.offset + roundup new.len
  arenaSize : c'.arenaSize = c.arenaSize
  arenaLimit : c'.arenaLimit = c.arenaLimit
  capacity : c'.capacity = c.capacity
  depth : c'.depth = c.depth
  sampleDepth : c'.sampleDepth = c.sampleDepth
  index : ∀ i, (c'.index i).len ≠ 0 → c'.index i = c.index i ∨ (c'.index i).seqNo = new.seqNo

theorem Landed.ringDepth {kept : List (List Held)} {new : Held} (h : Landed d c c' kept new) :
    c'.ringDepth = c.ringDepth := by
  unfold ReliableCache.ringDepth
  rw [h.capacity, h.depth, h.arenaSize]

/-- `reservePlace` and the copy, in one. -/
def landed (c : ReliableCache) (position : Nat) (origin seqNo : SeqNo) (length offset : Nat)
    (record : Record) : ReliableCache :=
  (c.reservePlace position origin seqNo length offset).writeRecord (some offset) record

section Place

variable {position length offset : Nat} {origin : SeqNo} {record : Record}

theorem landed_retains (ho : origin ≠ 0) :
    (c.landed position origin seqNo length offset record).retains = true := by
  cases hc : c.retains with
  | true =>
    have h0 : c.slotOrigin ≠ 0 := by simpa [retains] using hc
    show decide ((if c.retains = true then c.slotOrigin else origin) ≠ 0) = true
    rw [if_pos hc]
    simpa using h0
  | false =>
    have h0 : c.slotOrigin = 0 := by simpa [retains] using hc
    simpa [landed, writeRecord, reservePlace, retains, h0] using ho

/-- The own entry after the placing, in the slot the origin gives it. -/
theorem landed_own (horig : c.retains = true → c.slotOrigin = origin)
    (hpos : position = steps origin seqNo % d) (hseq : (c.index position).seqNo = seqNo)
    (hlen : 0 < length) (hrl : record.length = length) :
    (c.landed position origin seqNo length offset record).slotOrigin = origin ∧
    (c.landed position origin seqNo length offset record).heldAt d seqNo =
      some ⟨seqNo, offset, length, some record⟩ := by
  have hso : (c.landed position origin seqNo length offset record).slotOrigin = origin := by
    cases hc : c.retains with
    | true => simp [landed, writeRecord, reservePlace, hc, horig hc]
    | false => simp [landed, writeRecord, reservePlace, hc]
  refine ⟨hso, ?_⟩
  have hslot : (c.landed position origin seqNo length offset record).slot d seqNo =
      { c.index position with offset := offset, len := length } := by
    rw [slot, slotIndex, hso, ← hpos]
    simp [landed, writeRecord, reservePlace]
  have hlive : (c.landed position origin seqNo length offset record).slotLive d seqNo = true := by
    rw [slotLive, hslot]
    simp only [Bool.and_eq_true, decide_eq_true_eq]
    exact ⟨by omega, hseq⟩
  rw [heldAt_of_live hlive, hslot]
  simp [landed, writeRecord, reservePlace, Arena.write_self]

theorem landed_index {i : Nat} (hseq : (c.index position).seqNo = seqNo) :
    (c.landed position origin seqNo length offset record).index i = c.index i ∨
      ((c.landed position origin seqNo length offset record).index i).seqNo = seqNo := by
  by_cases hi : i = position
  · subst hi
    exact Or.inr (by simpa [landed, writeRecord, reservePlace] using hseq)
  · exact Or.inl (by simp [landed, writeRecord, reservePlace, Function.update_of_ne hi])

/-- With nothing else held, the record is the whole of what is. -/
theorem landed_alone (hd : 0 < d) (hdlt : d < 65536) (ho : origin ≠ 0)
    (hnear : steps origin seqNo < 2 ^ 31) (horig : c.retains = true → c.slotOrigin = origin)
    (hold : c.retains = true → c.oldestSeqNo = seqNo) (hnew : c.newestSeqNo = seqNo)
    (hpos : position = steps origin seqNo % d) (hseq : (c.index position).seqNo = seqNo)
    (hlen : 0 < length) (hrl : record.length = length) (hrs : record.seqNo = seqNo)
    (hfit : offset + roundup length ≤ c.arenaSize) :
    Landed d c (c.landed position origin seqNo length offset record) []
      ⟨seqNo, offset, length, some record⟩ := by
  obtain ⟨hso, hown⟩ := @landed_own c d seqNo position length offset origin record horig hpos hseq hlen hrl
  have hret : (c.landed position origin seqNo length offset record).retains = true :=
    landed_retains ho
  generalize hc' : c.landed position origin seqNo length offset record = c' at *
  have hoc : c'.oldestSeqNo = seqNo := by
    rw [← hc']
    cases hc : c.retains with
    | true => simp [landed, writeRecord, reservePlace, hc, hold hc]
    | false => simp [landed, writeRecord, reservePlace, hc]
  have hnc : c'.newestSeqNo = seqNo := by rw [← hc']; exact hnew
  have hlive : c'.slotLive d seqNo = true := by
    cases hl : c'.slotLive d seqNo with
    | true => rfl
    | false => rw [heldAt_eq_none.mpr hl] at hown; cases hown
  refine ⟨⟨hd, hdlt, ?_, ?_, ?_⟩, ?_, hret, ?_, ?_, ?_, by simp, hnc, ?_, ?_, ?_, ?_, ?_, ?_, ?_⟩
  · intro _; rw [hoc, hnc]
  · intro _; rw [hso, hnc]; exact hnear
  · intro _; rw [hoc, hnc, steps_self]; exact hd
  · intro _; rw [hoc]; exact hlive
  · rw [held_of_retains hret, hoc, hnc, steps_self, hown]
    rfl
  · have : c'.arenaSize = c.arenaSize := by rw [← hc']; rfl
    have : c'.tail = offset + roundup length := by rw [← hc']; rfl
    simp only [*, List.flatten_nil, List.nil_append, List.map_cons, List.map_nil, Held.seg]
    exact Laid.single hlen (le_roundup _) hfit
  · intro h hh
    simp only [List.flatten_nil, List.nil_append, List.mem_singleton] at hh
    subst hh
    exact ⟨record, rfl, hrl, hrs⟩
  · rw [← hc']; rfl
  · rw [← hc']; rfl
  · rw [← hc']; rfl
  · rw [← hc']; rfl
  · rw [← hc']; rfl
  · rw [← hc']; rfl
  · intro i _
    rw [← hc']
    exact landed_index hseq

/-- Behind what is held, where the ring puts it. -/
theorem landed_behind {kept : List (List Held)} (hr : c.Ranged d) (hset : c.Settled d)
    (hheld : c.held d = kept.flatten) (hne : kept.flatten ≠ [])
    (hlaid : Laid c.arenaSize (kept.flatten.map Held.seg) c.tail)
    (hrecs : ∀ h ∈ kept.flatten, ∃ r, h.record = some r ∧ r.length = h.len ∧ r.seqNo = h.seqNo)
    (horig : c.slotOrigin = origin) (hnew : c.newestSeqNo = seqNo)
    (hpos : position = steps origin seqNo % d) (hseq : (c.index position).seqNo = seqNo)
    (hdead : c.heldAt d seqNo = none) (hlen : 0 < length) (hrl : record.length = length)
    (hrs : record.seqNo = seqNo)
    (hf : Fits c.arenaSize (kept.flatten.map Held.seg) c.tail (roundup length) offset) :
    Landed d c (c.landed position origin seqNo length offset record) kept
      ⟨seqNo, offset, length, some record⟩ := by
  have hc : c.retains = true := by
    rw [hset.retains_iff, hheld]
    exact hne
  have ho : origin ≠ 0 := by rw [← horig]; simpa [retains] using hc
  obtain ⟨hso, hown⟩ := @landed_own c d seqNo position length offset origin record
    (fun _ => horig) hpos hseq hlen hrl
  have hret : (c.landed position origin seqNo length offset record).retains = true :=
    landed_retains ho
  have hlaid := hlaid.place hlen (le_roundup length) hf
  generalize hc' : c.landed position origin seqNo length offset record = c' at *
  have hoc : c'.oldestSeqNo = c.oldestSeqNo := by
    rw [← hc']
    simp [landed, writeRecord, reservePlace, hc]
  have hnc : c'.newestSeqNo = seqNo := by rw [← hc']; exact hnew
  have hbefore : c.heldFrom d (steps c.oldestSeqNo seqNo) c.oldestSeqNo = kept.flatten := by
    have h1 := hheld
    rw [held, if_pos hc, hnew, heldFrom_add, plus_steps] at h1
    simpa [heldFrom, hdead] using h1
  -- an older record keeps its slot and its bytes
  have hkeep : ∀ i < steps c.oldestSeqNo seqNo,
      c'.heldAt d (plus c.oldestSeqNo i) = c.heldAt d (plus c.oldestSeqNo i) := by
    intro i hi
    have hw := hr.within hc
    have hn := hr.near hc
    have hsum := hr.steps_origin hc
    rw [hnew] at hw hn hsum
    have hslot : c'.slot d (plus c.oldestSeqNo i) = c.slot d (plus c.oldestSeqNo i) := by
      have hne' : c.slotIndex d (plus c.oldestSeqNo i) ≠ position := by
        rw [slotIndex, hpos, ← horig, steps_plus_of (by omega), hsum]
        intro h
        have := mod_injective (by omega) hw h
        omega
      rw [slot, slotIndex, hso, ← horig]
      show c'.index (c.slotIndex d _) = c.index (c.slotIndex d _)
      rw [← hc']
      exact Function.update_of_ne hne' _ _
    cases hh : c.heldAt d (plus c.oldestSeqNo i) with
    | none =>
      rw [heldAt_eq_none] at hh ⊢
      rw [slotLive, hslot]
      exact hh
    | some h =>
      have hmem : h ∈ kept.flatten := by
        rw [← hbefore]
        exact mem_heldFrom.mpr ⟨i, hi, hh⟩
      obtain ⟨r, hrec, hlenr, _⟩ := hrecs h hmem
      have hlive : c.slotLive d (plus c.oldestSeqNo i) = true := by
        cases hl : c.slotLive d (plus c.oldestSeqNo i) with
        | true => rfl
        | false => rw [heldAt_eq_none.mpr hl] at hh; cases hh
      rw [heldAt_of_live hlive] at hh
      injection hh with hh
      have hlive' : c'.slotLive d (plus c.oldestSeqNo i) = true := by
        rw [slotLive, hslot]
        exact hlive
      rw [heldAt_of_live hlive', hslot, ← hh]
      have hseg : h.seg ∈ kept.flatten.map Held.seg := List.mem_map_of_mem hmem
      have hin := hlaid.inside (List.mem_append_left _ hseg)
      have hdis : RingArena.Disjoint h.seg (offset, length) :=
        (List.pairwise_append.mp hlaid.disjoint).2.2 _ hseg _ (by simp)
      have harena : c.arena h.offset = some r := by rw [← hrec, ← hh]
      have hkept : c'.arena h.offset = some r := by
        rw [← hc']
        refine Arena.write_disjoint harena ?_ ?_ ?_
        · rw [hlenr]; exact hin.1
        · rw [hrl]; exact hlen
        · rw [hlenr, hrl]; exact hdis
      have hoff : (c.slot d (plus c.oldestSeqNo i)).offset = h.offset := by rw [← hh]
      rw [hoff, hkept, harena]
  have hlive : c'.Settled d := by
    intro _
    obtain ⟨first, rest, hflat⟩ := List.exists_cons_of_ne_nil hne
    have hpos0 : 0 < steps c.oldestSeqNo seqNo := by
      rcases Nat.eq_zero_or_pos (steps c.oldestSeqNo seqNo) with h0 | h0
      · rw [h0, heldFrom, hflat] at hbefore
        cases hbefore
      · exact h0
    have h0 := hkeep 0 hpos0
    rw [plus_zero, heldAt_of_live (hset hc)] at h0
    rw [hoc]
    cases hl : c'.slotLive d c.oldestSeqNo with
    | true => rfl
    | false => rw [heldAt_eq_none.mpr hl] at h0; cases h0
  have hbelow : ∀ h ∈ kept.flatten, steps c.oldestSeqNo h.seqNo < steps c.oldestSeqNo seqNo := by
    intro h hh
    rw [← hbefore] at hh
    obtain ⟨i, hi, hh⟩ := mem_heldFrom.mp hh
    have := steps_lt c.oldestSeqNo seqNo
    rw [heldAt_seqNo hh, steps_plus _ (by omega)]
    exact hi
  have hsize : c'.arenaSize = c.arenaSize := by rw [← hc']; rfl
  have htail : c'.tail = offset + roundup length := by rw [← hc']; rfl
  refine ⟨⟨hr.depth_pos, hr.depth_lt, ?_, ?_, ?_⟩, hlive, hret, ?_, ?_, ?_, ?_, hnc, htail, hsize,
    ?_, ?_, ?_, ?_, ?_⟩
  · intro _; rw [hso, hoc, hnc, ← horig, ← hnew]; exact hr.forward hc
  · intro _; rw [hso, hnc, ← horig, ← hnew]; exact hr.near hc
  · intro _; rw [hoc, hnc, ← hnew]; exact hr.within hc
  · rw [held, if_pos hret, hoc, hnc, heldFrom_add, heldFrom_congr hkeep, hbefore, plus_steps]
    simp [heldFrom, hown]
  · rw [hsize, htail, List.map_append]
    exact hlaid
  · intro h hh
    rcases List.mem_append.mp hh with hh | hh
    · exact hrecs h hh
    · rw [List.mem_singleton] at hh
      subst hh
      exact ⟨record, rfl, hrl, hrs⟩
  · rw [hoc]; exact hbelow
  · rw [← hc']; rfl
  · rw [← hc']; rfl
  · rw [← hc']; rfl
  · rw [← hc']; rfl
  · intro i _
    rw [← hc']
    exact landed_index hseq

end Place

/-- The same landing seen from an earlier state of the same store. -/
theorem Landed.rebase {c₀ : ReliableCache} {kept : List (List Held)} {new : Held}
    (h : Landed d c c' kept new) (hsize : c.arenaSize = c₀.arenaSize)
    (hlimit : c.arenaLimit = c₀.arenaLimit) (hcap : c.capacity = c₀.capacity)
    (hdepth : c.depth = c₀.depth) (hsd : c.sampleDepth = c₀.sampleDepth)
    (hindex : ∀ i, (c.index i).len ≠ 0 → c.index i = c₀.index i ∨ (c.index i).seqNo = new.seqNo) :
    Landed d c₀ c' kept new :=
  { h with
    arenaSize := h.arenaSize.trans hsize
    arenaLimit := h.arenaLimit.trans hlimit
    capacity := h.capacity.trans hcap
    depth := h.depth.trans hdepth
    sampleDepth := h.sampleDepth.trans hsd
    index := by
      intro i hi
      rcases h.index i hi with he | he
      · rw [he] at hi ⊢
        exact hindex i hi
      · exact Or.inr he }

/-! ## One record reserved and written -/

section Spec

variable {old left : List (List Held)} {length now : Nat} {record : Record}

/-- The position the entry is written at. -/
theorem reserveEntry_index (c : ReliableCache) (d : Nat) (seqNo : SeqNo) (now i : Nat) :
    (c.reserveEntry d seqNo now).index i =
      if i = steps (c.reserveOrigin d seqNo) seqNo % d then
        { timestamp := now, seqNo := seqNo, offset := 0, len := 0, retry := 0, resentAt := 0 }
      else c.index i := by
  simp only [reserveEntry, Function.update_apply]

theorem reserve_eq (hd : c.ringDepth = d) (hd0 : d ≠ 0) (hlen : 0 < length)
    (hfit : roundup length ≤ c.arenaSize) {offset : Nat}
    (ho : (((c.reserveIndexRoom d seqNo).reserveEntry d seqNo now).reserveByteRoom d
      (roundup length)).writeOffset d (roundup length) = some offset) :
    c.cacheRecord seqNo length now record =
      ((((c.reserveIndexRoom d seqNo).reserveEntry d seqNo now).reserveByteRoom d
        (roundup length)).landed
          (steps ((c.reserveIndexRoom d seqNo).reserveOrigin d seqNo) seqNo % d)
          ((c.reserveIndexRoom d seqNo).reserveOrigin d seqNo) seqNo length offset record,
        some offset) := by
  unfold cacheRecord reserve
  simp only [hd]
  rw [if_neg hd0, if_neg (by omega), ho]
  rfl

/-- Eviction leaves the tombstone at the own position. -/
theorem Evicted.tombstone {gone : List Held} (he : Evicted d c c' gone) {i : Nat}
    (hl : (c.index i).len = 0) : c'.index i = c.index i := by
  rcases he.index i with h | h
  · exact h
  · rw [h]
    cases hi : c.index i with
    | mk t s o l r a =>
      rw [hi] at hl
      simp only at hl
      rw [hl]

/-- A record cached under `seqNo`: the count bound left `mid` of what was published before it, the byte
bound `kept`, and it landed behind that. -/
structure Cached (d : Nat) (c c' : ReliableCache) (old : List (List Held)) (seqNo : SeqNo)
    (length : Nat) (record : Record) (gone mid kept : List (List Held)) (offset : Nat) : Prop where
  split : old = gone ++ kept
  count : Drops (CountDemand d seqNo) old mid
  bytes : Drops (ByteDemand c.arenaSize c.tail (roundup length)) mid kept
  fits : kept ≠ [] →
    Fits c.arenaSize (kept.flatten.map Held.seg) c.tail (roundup length) offset
  place : offset = 0 ∨ (c.reserveIndexRoom d seqNo).retains = true ∧ offset = c.tail ∧
    c.tail + roundup length ≤ c.arenaSize
  landed : Landed d c c' kept ⟨seqNo, offset, length, some record⟩
  log : c'.evicted = (gone.flatten.filterMap Held.record).reverse ++ c.evicted

theorem cacheRecord_spec (hR : c.Ready d old left seqNo) (hd : c.ringDepth = d) (hlen : 0 < length)
    (hfit : roundup length ≤ c.arenaSize) (hrl : record.length = length)
    (hrs : record.seqNo = seqNo) :
    ∃ gone mid kept offset, (c.cacheRecord seqNo length now record).2 = some offset ∧
      Cached d c (c.cacheRecord seqNo length now record).1 old seqNo length record gone mid kept
        offset := by
  have hd0 := hR.stored.grouped.ranged.depth_pos
  have hdlt := hR.stored.grouped.ranged.depth_lt
  have hfp : 0 < roundup length := Nat.lt_of_lt_of_le hlen (le_roundup length)
  obtain ⟨gone₁, mid, rfl, hcount, he₁, hR₁, hreach⟩ := reserveIndexRoom_spec hR
  generalize hroom : c.reserveIndexRoom d seqNo = roomy at *
  have hr₁ := hR₁.stored.grouped.ranged
  generalize horig : roomy.reserveOrigin d seqNo = origin at *
  generalize hent : roomy.reserveEntry d seqNo now = entered at *
  have hindex₂ : ∀ i, entered.index i = if i = steps origin seqNo % d then
      { timestamp := now, seqNo := seqNo, offset := 0, len := 0, retry := 0, resentAt := 0 }
      else roomy.index i := by
    intro i
    rw [← hent, ← horig]
    exact reserveEntry_index roomy d seqNo now i
  have hnew₂ : entered.newestSeqNo = seqNo := by rw [← hent]; rfl
  have hret₂ : entered.retains = roomy.retains := by rw [← hent]; exact reserveEntry_retains hr₁ hreach
  have hso₂ : entered.retains = true → entered.slotOrigin = origin := by
    intro h
    rw [← hent, ← horig]
    exact reserveEntry_origin (hret₂ ▸ h)
  have horigin : origin ≠ 0 ∧ steps origin seqNo < 2 ^ 31 := by
    rw [← horig]
    cases hc : roomy.retains with
    | true =>
      obtain ⟨h1, h2, _⟩ := reserveOrigin_spec hr₁ hc (hreach hc)
      exact ⟨h1, h2⟩
    | false => exact reserveOrigin_of_empty hd0 hdlt hc
  -- what is common to the ways the byte bound can end
  have hfinish : ∀ gone₂ kept offset, mid = gone₂ ++ kept →
      Drops (ByteDemand c.arenaSize c.tail (roundup length)) mid kept →
      Evicted d entered (entered.reserveByteRoom d (roundup length)) gone₂.flatten →
      (entered.reserveByteRoom d (roundup length)).writeOffset d (roundup length) = some offset →
      (kept ≠ [] → Fits c.arenaSize (kept.flatten.map Held.seg) c.tail (roundup length) offset) →
      (offset = 0 ∨ roomy.retains = true ∧ offset = c.tail ∧
        c.tail + roundup length ≤ c.arenaSize) →
      (((entered.reserveByteRoom d (roundup length)).index (steps origin seqNo % d)).seqNo = seqNo →
        ((entered.reserveByteRoom d (roundup length)).index (steps origin seqNo % d)).len = 0 →
        Landed d (entered.reserveByteRoom d (roundup length))
          ((entered.reserveByteRoom d (roundup length)).landed (steps origin seqNo % d) origin seqNo
            length offset record) kept ⟨seqNo, offset, length, some record⟩) →
      ∃ gone m k o, (c.cacheRecord seqNo length now record).2 = some o ∧
        Cached d c (c.cacheRecord seqNo length now record).1 (gone₁ ++ mid) seqNo length record gone
          m k o := by
    intro gone₂ kept offset hsplit hbytes he₂ hoff hfits hplace hland
    have hown := he₂.tombstone (i := steps origin seqNo % d) (by rw [hindex₂, if_pos rfl])
    rw [hindex₂, if_pos rfl] at hown
    have heq : c.cacheRecord seqNo length now record =
        ((entered.reserveByteRoom d (roundup length)).landed (steps origin seqNo % d) origin seqNo
          length offset record, some offset) := by
      rw [← horig, ← hent, ← hroom]
      exact reserve_eq hd (by omega) hlen hfit (by rw [hroom, hent]; exact hoff)
    refine ⟨gone₁ ++ gone₂, mid, kept, offset, by rw [heq],
      ⟨by rw [hsplit, List.append_assoc], hcount, hbytes, hfits, by rw [hroom]; exact hplace, ?_, ?_⟩⟩
    · rw [heq]
      have hst := he₂.store
      have hst₁ := he₁.store
      refine (hland (by rw [hown]) (by rw [hown])).rebase ?_ ?_ ?_ ?_ ?_ ?_
      · rw [hst.arenaSize, ← hent]; exact hst₁.arenaSize
      · rw [hst.arenaLimit, ← hent]; exact hst₁.arenaLimit
      · rw [hst.capacity, ← hent]; exact hst₁.capacity
      · rw [hst.depth, ← hent]; exact hst₁.depth
      · rw [hst.sampleDepth, ← hent]; exact hst₁.sampleDepth
      · intro i hi
        have hsame := he₂.index_eq hi
        rw [hsame, hindex₂] at hi ⊢
        split at hi
        · exact absurd rfl hi
        · next hne =>
          rw [if_neg hne]
          exact Or.inl (he₁.index_eq hi)
    · rw [heq]
      show (entered.reserveByteRoom d (roundup length)).evicted = _
      rw [he₂.log, ← hent]
      show _ ++ roomy.evicted = _
      rw [he₁.log]
      simp
  cases hm : mid with
  | cons g gs =>
    have hne : mid ≠ [] := by rw [hm]; simp
    have hstored : entered.Stored d mid := by rw [← hent]; exact reserveEntry_stored hR₁ hreach hne
    have hc₁ : roomy.retains = true := by
      have hg := hR₁.stored.grouped
      rw [hm] at hg
      exact hg.retains
    have hsize : entered.arenaSize = c.arenaSize := by rw [← hent]; exact he₁.store.arenaSize
    have htail : entered.tail = c.tail := by rw [← hent]; exact (he₁.range hc₁).2.2.1
    obtain ⟨gone₂, kept, offset, hsplit, hbytes, he₂, hs₂, hoff, hzero, hfits⟩ :=
      reserveByteRoom_spec hstored hfp
    rw [hsize, htail] at hbytes hfits
    rw [← hm]
    have hplace : offset = 0 ∨ roomy.retains = true ∧ offset = c.tail ∧
        c.tail + roundup length ≤ c.arenaSize := by
      by_cases hk : kept = []
      · exact Or.inl (hzero hk)
      · have hlaid := hs₂.laid hk
        rw [he₂.store.arenaSize, hsize] at hlaid
        rcases (hfits hk).offset hlaid with h | ⟨h1, h2⟩
        · exact Or.inl h
        · exact Or.inr ⟨hc₁, h1, h2⟩
    refine hfinish gone₂ kept offset hsplit hbytes he₂ hoff hfits hplace fun hseq hl => ?_
    generalize entered.reserveByteRoom d (roundup length) = free at *
    have hnew : free.newestSeqNo = seqNo := he₂.store.newestSeqNo.trans hnew₂
    cases hk : kept with
    | nil =>
      rw [hk] at hs₂
      have hno := hs₂.grouped.not_retains
      refine landed_alone hd0 hdlt horigin.1 horigin.2 ?_ ?_ hnew rfl hseq hlen hrl hrs ?_
      · intro h; rw [hno] at h; cases h
      · intro h; rw [hno] at h; cases h
      · rw [hzero hk, he₂.store.arenaSize, hsize]; omega
    | cons k ks =>
      have hkne : kept ≠ [] := by rw [hk]; simp
      rw [← hk]
      have hr₂ : free.retains = true := by
        have hg := hs₂.grouped
        rw [hk] at hg
        exact hg.retains
      obtain ⟨hre, hso, ht, _⟩ := he₂.range hr₂
      have hso' : free.slotOrigin = origin := hso.trans (hso₂ hre)
      have hfne : kept.flatten ≠ [] := by
        rw [← hs₂.grouped.held]
        exact hs₂.grouped.settled.retains_iff.mp hr₂
      refine landed_behind hs₂.grouped.ranged hs₂.grouped.settled hs₂.grouped.held hfne (hs₂.laid hkne)
        hs₂.records hso' hnew rfl hseq ?_ hlen hrl hrs ?_
      · rw [heldAt_eq_none, slotLive, slot, slotIndex, hso', hl]
        rfl
      · rw [he₂.store.arenaSize, ht, hsize, htail]
        exact hfits hkne
  | nil =>
    rw [← hm]
    cases hc₁ : roomy.retains with
    | false =>
      have hno : entered.retains = false := hret₂.trans hc₁
      have hw := writeOffset_of_empty (d := d) hno (roundup length)
      have hstay : entered.reserveByteRoom d (roundup length) = entered :=
        whileN_of_not (by simp [hw]) _
      refine hfinish [] [] 0 (by rw [hm]; rfl) (by rw [hm]; exact .refl _) ?_ ?_ (by simp)
        (Or.inl rfl) fun hseq _ => ?_
      · rw [hstay]; exact .refl _
      · rw [hstay]; exact hw
      · rw [hstay] at hseq ⊢
        refine landed_alone hd0 hdlt horigin.1 horigin.2 ?_ ?_ hnew₂ rfl hseq hlen hrl hrs ?_
        · intro h; rw [hno] at h; cases h
        · intro h; rw [hno] at h; cases h
        · have : entered.arenaSize = c.arenaSize := by rw [← hent]; exact he₁.store.arenaSize
          omega
    | true =>
      -- only the failed publish's own records are left, the first of them under `seqNo`
      have hold : roomy.oldestSeqNo = seqNo := by
        obtain ⟨first, rest, hflat, hfirst, _⟩ := hR₁.stored.grouped.head_seqNo hc₁
        rw [hm, List.nil_append] at hflat
        rw [← hfirst, hR₁.next first (by simp [hflat])]
      have hc₂ : entered.retains = true := hret₂.trans hc₁
      have hold₂ : entered.oldestSeqNo = seqNo := by rw [← hent]; exact hold
      have hslot : entered.slot d entered.oldestSeqNo =
          { timestamp := now, seqNo := seqNo, offset := 0, len := 0, retry := 0, resentAt := 0 } := by
        rw [hold₂, slot, slotIndex, hso₂ hc₂, hindex₂, if_pos rfl]
      obtain ⟨offset, he₂, hoff, hcase⟩ := reserveByteRoom_hollow
        (by rw [← hent]; exact reserveEntry_ranged hr₁ hreach) hc₂ (hold₂.trans hnew₂.symm)
        (by rw [hslot]) (by rw [hslot]) hfp
      have hsize : entered.arenaSize = c.arenaSize := by rw [← hent]; exact he₁.store.arenaSize
      refine hfinish [] [] offset (by rw [hm]; rfl) (by rw [hm]; exact .refl _) (by simpa using he₂)
        hoff (by simp) ?_ fun hseq _ => ?_
      · rcases hcase with ⟨_, hend, _, h1⟩ | ⟨_, h1⟩
        · obtain ⟨_, _, ht, _⟩ := he₁.range hc₁
          have htail : entered.tail = c.tail := by rw [← hent]; exact ht
          exact Or.inr ⟨hc₁, h1.trans htail, by omega⟩
        · exact Or.inl h1
      refine landed_alone hd0 hdlt horigin.1 horigin.2 ?_ ?_
        (he₂.store.newestSeqNo.trans hnew₂) rfl hseq hlen hrl hrs ?_
      · intro h
        obtain ⟨hre, hso, _, _⟩ := he₂.range h
        exact hso.trans (hso₂ hre)
      · intro h
        rcases hcase with ⟨_, _, h1, _⟩ | ⟨h1, _⟩
        · exact h1.trans hold₂
        · rw [h1] at h; cases h
      · rw [he₂.store.arenaSize, hsize]
        rcases hcase with ⟨_, h1, _, _⟩ | ⟨_, rfl⟩
        · omega
        · omega

end Spec

end ReliableCache

end Tickle
