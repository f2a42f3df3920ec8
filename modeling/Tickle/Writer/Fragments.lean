import Tickle.Writer.Reserve

/-! # A sample into the cache

`cache_reliable_sample()` and `cache_sample_fragments()` against the samples held. A whole record, or
a tombstone, drops only what was published before it. Fragments are reserved one by one, so a later
one may come round the arena to the sample's own first: whether it does is decided by where the tail
stands before the first is written (`FragmentsFit`).
-/

namespace Tickle

open Serial Loop RingArena

namespace ReliableCache

variable {c c' : ReliableCache} {d : Nat} {seqNo : SeqNo} {old left : List (List Held)}

/-- An empty cache is ready for any seq_no. -/
theorem Grouped.ready (hg : c.Grouped d []) (seqNo : SeqNo) : c.Ready d [] [] seqNo := by
  have hno := hg.not_retains
  refine ⟨⟨hg, by simp, by simp⟩, ?_, by simp, by simp, by simp, by simp, ?_⟩
  · intro h; rw [hno] at h; cases h
  · intro h; rw [hno] at h; cases h

/-- Equal in everything that lookup and placing read. -/
structure Same (c c' : ReliableCache) : Prop where
  store : SameStore c c'
  index : c'.index = c.index
  slotOrigin : c'.slotOrigin = c.slotOrigin
  oldestSeqNo : c'.oldestSeqNo = c.oldestSeqNo
  tail : c'.tail = c.tail
  evicted : c'.evicted = c.evicted

theorem Same.slot (h : Same c c') (x : SeqNo) : c'.slot d x = c.slot d x := by
  rw [ReliableCache.slot, ReliableCache.slot, slotIndex, slotIndex, h.index, h.slotOrigin]

theorem Same.held (h : Same c c') : c'.held d = c.held d := by
  unfold ReliableCache.held retains
  rw [h.slotOrigin, h.oldestSeqNo, h.store.newestSeqNo]
  split
  · exact heldFrom_congr fun i _ => heldAt_of_slot (h.slot _) h.store.arena
  · rfl

theorem Same.evicts (h : Same c c') : Evicted d c c' [] where
  store := h.store
  held := by rw [h.held]; rfl
  log := by rw [h.evicted]; rfl
  range := by
    intro hr
    have : c.retains = true := by rw [retains, h.slotOrigin] at hr; exact hr
    exact ⟨this, h.slotOrigin, h.tail, by rw [h.oldestSeqNo, steps_self, Nat.zero_add]⟩
  index := fun i => Or.inl (by rw [h.index])

theorem Same.grouped {groups : List (List Held)} (h : Same c c') (hg : c.Grouped d groups) :
    c'.Grouped d groups := by
  refine ⟨h.evicts.ranged hg.ranged, ?_, by rw [h.held, hg.held], hg.samples⟩
  intro hr
  have hc : c.retains = true := by rw [retains, h.slotOrigin] at hr; exact hr
  rw [slotLive, h.oldestSeqNo, h.slot]
  exact hg.settled hc

theorem Same.ready (h : Same c c') (hR : c.Ready d old left seqNo) : c'.Ready d old left seqNo :=
  @Ready.evicted c c' d seqNo [] old left hR h.evicts (h.grouped hR.stored.grouped)

theorem Same.retains (h : Same c c') : c'.retains = c.retains := by
  rw [ReliableCache.retains, ReliableCache.retains, h.slotOrigin]

theorem Landed.same {c₀ : ReliableCache} {kept : List (List Held)} {new : Held}
    (h : Landed d c₀ c kept new) (hs : Same c c') : Landed d c₀ c' kept new where
  ranged := hs.evicts.ranged h.ranged
  settled := by
    intro _
    rw [slotLive, hs.oldestSeqNo, hs.slot]
    exact h.settled h.retains
  retains := hs.retains.trans h.retains
  held := hs.held.trans h.held
  laid := by rw [hs.store.arenaSize, hs.tail]; exact h.laid
  records := h.records
  below := by rw [hs.oldestSeqNo]; exact h.below
  newest := hs.store.newestSeqNo.trans h.newest
  tail := hs.tail.trans h.tail
  arenaSize := hs.store.arenaSize.trans h.arenaSize
  arenaLimit := hs.store.arenaLimit.trans h.arenaLimit
  capacity := hs.store.capacity.trans h.capacity
  depth := hs.store.depth.trans h.depth
  sampleDepth := hs.store.sampleDepth.trans h.sampleDepth
  index := by rw [hs.index]; exact h.index

theorem Cached.same {c₀ : ReliableCache} {length offset : Nat} {record : Record}
    {gone mid kept : List (List Held)}
    (h : Cached d c₀ c old seqNo length record gone mid kept offset) (hs : Same c c') :
    Cached d c₀ c' old seqNo length record gone mid kept offset :=
  { h with
    landed := h.landed.same hs
    log := hs.evicted.trans h.log }

theorem countSample_same (c : ReliableCache) (place : Option Nat) : Same c (c.countSample place) := by
  unfold countSample
  split <;> exact ⟨⟨rfl, rfl, rfl, rfl, rfl, rfl, rfl⟩, rfl, rfl, rfl, rfl, rfl⟩

/-- Behind a landed record the cache is ready for the seq_no after it, and for a later one when no
index entry names what is passed over. -/
theorem Landed.ready {kept groups : List (List Held)} {new : Held} {next : SeqNo}
    (h : Landed d c c' kept new) (hflat : groups.flatten = kept.flatten ++ [new])
    (hsamples : ∀ g ∈ groups, IsSample g) (hpos : 0 < steps new.seqNo next)
    (hnear : steps new.seqNo next ≤ 65536)
    (hgap : ∀ i, (c'.index i).len ≠ 0 → (c'.index i).seqNo ≠ new.seqNo →
      steps new.seqNo next ≤ steps new.seqNo (c'.index i).seqNo) : c'.Ready d groups [] next := by
  have hw := h.ranged.within h.retains
  have hd := h.ranged.depth_lt
  rw [h.newest] at hw
  have hnext : steps c'.oldestSeqNo next = steps c'.oldestSeqNo new.seqNo + steps new.seqNo next :=
    steps_trans (by omega)
  refine ⟨⟨⟨h.ranged, h.settled, ?_, by simpa using hsamples⟩, ?_, ?_⟩, ?_, ?_, by simp, by simp,
    by simp, ?_⟩
  · rw [h.held, List.append_nil, hflat]
  · intro _
    rw [List.append_nil, hflat]
    exact h.laid
  · rw [List.append_nil, hflat]
    exact h.records
  · intro _; omega
  · intro x hx
    rw [hflat] at hx
    rcases List.mem_append.mp hx with hx | hx
    · have := h.below x hx
      omega
    · rw [List.mem_singleton] at hx
      subst hx
      omega
  · intro _ i hi hpast
    rw [h.newest] at hpast
    have hsplit := steps_split (Nat.le_of_lt hpast)
    have := hgap i hi (by
      intro heq
      rw [heq] at hpast
      exact Nat.lt_irrefl _ hpast)
    omega

/-! ## A tombstone -/

/-- `seqNo` recorded as never cached: the count bound left `kept`. -/
structure Buried (d : Nat) (c c' : ReliableCache) (old : List (List Held)) (seqNo : SeqNo)
    (gone kept : List (List Held)) : Prop where
  split : old = gone ++ kept
  count : Drops (CountDemand d seqNo) old kept
  ready : c'.Ready d kept [] (seqNo + 1)
  newest : c'.newestSeqNo = seqNo
  arenaSize : c'.arenaSize = c.arenaSize
  arenaLimit : c'.arenaLimit = c.arenaLimit
  ringDepth : c'.ringDepth = c.ringDepth
  sampleDepth : c'.sampleDepth = c.sampleDepth
  index : ∀ i, (c'.index i).len ≠ 0 → c'.index i = c.index i
  log : c'.evicted = (gone.flatten.filterMap Held.record).reverse ++ c.evicted

theorem cacheRecord_tombstone {length now : Nat} {record : Record} (hR : c.Ready d old left seqNo)
    (hd : c.ringDepth = d) (hz : length = 0 ∨ roundup length > c.arenaSize) :
    (c.cacheRecord seqNo length now record).2 = none ∧
    ∃ gone kept, Buried d c (c.cacheRecord seqNo length now record).1 old seqNo gone kept := by
  have hd0 := hR.stored.grouped.ranged.depth_pos
  obtain ⟨gone, kept, rfl, hcount, he, hR₁, hreach⟩ := reserveIndexRoom_spec hR
  have heq : c.cacheRecord seqNo length now record =
      (((c.reserveIndexRoom d seqNo).reserveEntry d seqNo now).dropLeadingTombstones d, none) := by
    unfold cacheRecord reserve
    simp only [hd]
    rw [if_neg (by omega), if_pos hz]
    rfl
  rw [heq]
  generalize hroom : c.reserveIndexRoom d seqNo = roomy at *
  have hr₁ := hR₁.stored.grouped.ranged
  obtain ⟨hdrop, hset⟩ := dropLeadingTombstones_spec (roomy.reserveEntry d seqNo now) d
  have hst := hdrop.store
  refine ⟨rfl, gone, kept, rfl, hcount, ?_, hst.newestSeqNo, hst.arenaSize.trans he.store.arenaSize,
    hst.arenaLimit.trans he.store.arenaLimit, ?_, hst.sampleDepth.trans he.store.sampleDepth, ?_, ?_⟩
  · have hent_ranged : (roomy.reserveEntry d seqNo now).Ranged d := reserveEntry_ranged hr₁ hreach
    have hnew : ((roomy.reserveEntry d seqNo now).dropLeadingTombstones d).newestSeqNo = seqNo :=
      hdrop.store.newestSeqNo
    cases hk : kept with
    | nil =>
      -- nothing older: the tombstone itself is dropped with the rest
      refine Grouped.ready ⟨hdrop.ranged hent_ranged, hset, ?_, by simp⟩ _
      have hheld : (roomy.reserveEntry d seqNo now).held d = [] := by
        cases hc : roomy.retains with
        | false => exact held_of_not_retains ((reserveEntry_retains hr₁ hreach).trans hc)
        | true =>
          have hold : roomy.oldestSeqNo = seqNo := by
            obtain ⟨first, rest, hflat, hfirst, _⟩ := hR₁.stored.grouped.head_seqNo hc
            rw [hk, List.nil_append] at hflat
            rw [← hfirst, hR₁.next first (by simp [hflat])]
          have hown := @reserveEntry_own roomy d seqNo now hc
          rw [held_of_retains ((reserveEntry_retains hr₁ hreach).trans hc)]
          show (heldAt _ d roomy.oldestSeqNo).toList ++
            heldFrom _ d (steps roomy.oldestSeqNo seqNo) _ = []
          rw [hold, steps_self, heldAt_eq_none.mpr (by rw [slotLive, hown]; rfl)]
          rfl
      have hh := hdrop.held
      rw [hheld] at hh
      simpa using hh.symm
    | cons g gs =>
      have hne : kept ≠ [] := by rw [hk]; simp
      have hs : (roomy.reserveEntry d seqNo now).Stored d kept := reserveEntry_stored hR₁ hreach hne
      rw [← hk]
      have hc : (roomy.reserveEntry d seqNo now).retains = true := by
        have hg := hs.grouped
        rw [hk] at hg
        exact hg.retains
      rw [dropLeadingTombstones_of_live (hs.grouped.settled hc)]
      have hc₁ : roomy.retains = true := by
        rw [reserveEntry_retains hr₁ hreach] at hc
        exact hc
      have hlt := hreach hc₁
      have hdlt := hr₁.depth_lt
      have hsucc : steps roomy.oldestSeqNo (seqNo + 1) = steps roomy.oldestSeqNo seqNo + 1 :=
        steps_succ_right (by omega)
      refine ⟨by simpa using hs, ?_, ?_, by simp, by simp, by simp, ?_⟩
      · intro _
        show steps roomy.oldestSeqNo (seqNo + 1) < _
        omega
      · intro h hh
        show steps roomy.oldestSeqNo h.seqNo < steps roomy.oldestSeqNo (seqNo + 1)
        have := hR₁.below h hh
        omega
      · intro _ i _ hpast
        change steps roomy.oldestSeqNo seqNo < steps roomy.oldestSeqNo _ at hpast
        change steps roomy.oldestSeqNo (seqNo + 1) ≤ steps roomy.oldestSeqNo _
        omega
  · rw [hst.ringDepth]
    have : (roomy.reserveEntry d seqNo now).ringDepth = roomy.ringDepth := rfl
    rw [this, he.store.ringDepth]
  · intro i hi
    have hsame := hdrop.index_eq hi
    simp only at hi ⊢
    rw [hsame, reserveEntry_index] at hi ⊢
    split at hi
    · exact absurd rfl hi
    · next hne =>
      rw [if_neg hne]
      exact he.index_eq hi
  · rw [hdrop.log]
    show [] ++ roomy.evicted = _
    rw [he.log, List.nil_append]

/-! ## What a record does not reach -/

/-- Samples with room before them for the record, and within the ring's reach of it, stay; what is left
of the room is room for the records after it. -/
theorem Cached.barrier {length offset : Nat} {record : Record} {gone mid kept pre b : List (List Held)}
    {first : Held} {rest : List Held} {sizes : List Nat}
    (h : Cached d c c' old seqNo length record gone mid kept offset) (hs : c.Stored d (old ++ left))
    (hold : old = pre ++ b) (hb : b.flatten = first :: rest) (hlen : 0 < length)
    (hcount : steps first.seqNo seqNo < d)
    (hroom : Room c.arenaSize first.offset c.tail (roundup length :: sizes)) :
    ∃ pre', kept = pre' ++ b ∧ Room c'.arenaSize first.offset c'.tail sizes := by
  have hpos : 0 < roundup length := Nat.lt_of_lt_of_le hlen (le_roundup length)
  obtain ⟨pre₁, hmid, _⟩ := @Drops.keeps _ _ pre b mid (hold ▸ h.count) (by
    intro _ hd
    have := hd first (by simp [hb])
    omega)
  obtain ⟨pre₂, hkept, _⟩ := @Drops.keeps _ _ pre₁ b kept (hmid ▸ h.bytes) (by
    intro _ hd
    obtain ⟨o, ho⟩ := @Room.fits c.arenaSize c.tail (roundup length) sizes (rest.map Held.seg)
      first.seg hroom hpos
    refine hd o ?_
    rw [hb, List.map_cons]
    exact ho)
  refine ⟨pre₂, hkept, ?_⟩
  have hbne : b ≠ [] := by rintro rfl; simp at hb
  have hkne : kept ≠ [] := by rw [hkept]; simp [hbne]
  have hsegs : kept.flatten.map Held.seg =
      pre₂.flatten.map Held.seg ++ first.seg :: rest.map Held.seg := by
    rw [hkept, List.flatten_append, hb, List.map_append, List.map_cons]
  have hlaid : Laid c.arenaSize (kept.flatten.map Held.seg) c.tail := by
    have hl := hs.laid (by rw [h.split]; simp [hkne])
    rw [h.split, List.flatten_append, List.flatten_append, List.map_append, List.map_append,
      List.append_assoc] at hl
    have hd := hl.drop (n := (gone.flatten.map Held.seg).length) (by
      rw [hsegs]
      simp only [List.length_append, List.length_cons]
      omega)
    rw [List.drop_left] at hd
    exact hd.take (by rw [hsegs]; simp)
  have hfits := h.fits hkne
  rw [hsegs] at hlaid hfits
  have := hroom.place hlaid hpos hfits
  rw [h.landed.arenaSize, h.landed.tail]
  exact this

/-! ## A sample's fragments -/

section Fragments

variable {node : Context} {cdr : List UInt8} {first : SeqNo} {count now : Nat}

/-- What the fragments still to come take of the arena. -/
def fragFootprints (node : Context) (cdr : List UInt8) (count : Nat) : List Nat :=
  (List.range count).map (fragFootprint node cdr)

/-- The first `i` fragments are retained behind `kept`, and the room left behind them does not come
round to the first. Samples of `old` that the whole run of fragments leaves room for are all kept. -/
structure Fragmented (node : Context) (cdr : List UInt8) (first : SeqNo) (count d : Nat)
    (c c' : ReliableCache) (old : List (List Held)) (i : Nat) (gone kept : List (List Held))
    (own : List Held) : Prop where
  split : old = gone ++ kept
  ready : c'.Ready d (kept ++ [own]) [] (plus first i)
  records : own.map (fun h => (h.seqNo, h.record)) =
    (List.range i).map fun j => (plus first j, some (fragRecord node first cdr count j))
  room : ∀ h ∈ own.head?,
    Room c'.arenaSize h.offset c'.tail ((fragFootprints node cdr count).drop i)
  barrier : ∀ pre b h rest, old = pre ++ b → b.flatten = h :: rest →
    steps h.seqNo first + count ≤ d →
    Room c.arenaSize h.offset c.tail (fragFootprints node cdr count) →
    ∃ pre', kept = pre' ++ b ∧
      Room c'.arenaSize h.offset c'.tail ((fragFootprints node cdr count).drop i)
  arenaSize : c'.arenaSize = c.arenaSize
  arenaLimit : c'.arenaLimit = c.arenaLimit
  ringDepth : c'.ringDepth = c.ringDepth
  sampleDepth : c'.sampleDepth = c.sampleDepth
  log : c'.evicted = (gone.flatten.filterMap Held.record).reverse ++ c.evicted

theorem fragFootprints_drop {i : Nat} (hi : i < count) :
    (fragFootprints node cdr count).drop i =
      fragFootprint node cdr i :: (fragFootprints node cdr count).drop (i + 1) := by
  rw [List.drop_eq_getElem_cons (by simpa [fragFootprints] using hi)]
  simp [fragFootprints]

theorem fragHeaderLength_pos (i : Nat) : 0 < fragHeaderLength i := by
  unfold fragHeaderLength
  split <;> omega

theorem fragRecord_seqNo (i : Nat) :
    (fragRecord node first cdr count i).seqNo = plus first i := by
  unfold fragRecord
  split
  · next h => subst h; rw [plus_zero]; rfl
  · rfl

theorem fragRecord_continues (i : Nat) :
    (fragRecord node first cdr count i).continues = decide (i ≠ 0) := by
  unfold fragRecord
  split
  · next h => subst h; rfl
  · next h => simp [Record.continues, h]

/-- Fragments in order are one sample. -/
theorem isSample_fragments {own : List Held} {i : Nat}
    (h : own.map (fun h => (h.seqNo, h.record)) =
      (List.range (i + 1)).map fun j => (plus first j, some (fragRecord node first cdr count j))) :
    IsSample own := by
  rw [List.range_succ_eq_map, List.map_cons] at h
  obtain ⟨x, rest, rfl, hx, hrest⟩ := List.map_eq_cons_iff.mp h
  refine ⟨x, rest, rfl, ?_, ?_⟩
  · rw [Held.continues, (Prod.mk.inj hx).2, Option.any_some, fragRecord_continues]
    rfl
  · intro y hy
    have hmem : (y.seqNo, y.record) ∈ rest.map (fun h => (h.seqNo, h.record)) :=
      List.mem_map_of_mem hy
    rw [hrest, List.map_map] at hmem
    obtain ⟨j, _, hj⟩ := List.mem_map.mp hmem
    rw [Held.continues, ← (Prod.mk.inj hj).2, Option.any_some, fragRecord_continues]
    simp

/-- One fragment of a sample that is kept. -/
theorem cacheFragment_cached {i : Nat} (hR : c.Ready d old left (plus first i))
    (hd : c.ringDepth = d) (hi : i < count)
    (hsum : (fragFootprints node cdr count).sum ≤ c.arenaSize) :
    ∃ gone mid kept offset,
      Cached d c (cacheFragment node first cdr count now true c i) old (plus first i)
        (fragHeaderLength i + node.fragPayloadLength i (sampleCdrLength cdr))
        (fragRecord node first cdr count i) gone mid kept offset := by
  have hpos := fragHeaderLength_pos i
  have hfit : fragFootprint node cdr i ≤ c.arenaSize :=
    Nat.le_trans (List.single_le_sum (by simp) _
      (List.mem_map_of_mem (List.mem_range.mpr hi))) hsum
  obtain ⟨gone, mid, kept, offset, _, h⟩ := @cacheRecord_spec c d (plus first i) old left
    (fragHeaderLength i + node.fragPayloadLength i (sampleCdrLength cdr)) now
    (fragRecord node first cdr count i) hR hd (by omega) hfit (fragRecord_length first count)
    (fragRecord_seqNo i)
  refine ⟨gone, mid, kept, offset, ?_⟩
  unfold cacheFragment
  simp only [if_true]
  split
  · exact h.same (countSample_same _ _)
  · exact h

theorem Cached.own_ready {length offset : Nat} {record : Record} {gone mid kept : List (List Held)}
    (h : Cached d c c' old seqNo length record gone mid kept offset) (groups : List (List Held))
    (hflat : groups.flatten = kept.flatten ++ [⟨seqNo, offset, length, some record⟩])
    (hsamples : ∀ g ∈ groups, IsSample g) : c'.Ready d groups [] (seqNo + 1) := by
  refine h.landed.ready hflat hsamples ?_ ?_ ?_
  · simp only [steps_succ]; omega
  · simp only [steps_succ]; omega
  · intro i _ hne
    rw [steps_succ]
    have := mt steps_eq_zero.mp (Ne.symm hne)
    omega

/-- The first fragment goes to the start of the arena, or what the later ones spill over the arena's
end stops short of it. `c` is the cache the first fragment is reserved in. -/
def FragmentsFit (c : ReliableCache) (d : Nat) (first : SeqNo) (sizes : List Nat) : Prop :=
  (c.reserveIndexRoom d first).retains = true → sizes.headD 0 ≤ c.arenaSize - c.tail →
    spill (c.arenaSize - c.tail) sizes ≤ c.tail

instance (c : ReliableCache) (d : Nat) (first : SeqNo) (sizes : List Nat) :
    Decidable (FragmentsFit c d first sizes) :=
  inferInstanceAs (Decidable (_ → _ → _))

theorem Fragmented.start (hR : c.Ready d old left first) (hd : c.ringDepth = d) (hpos : 0 < count)
    (hsum : (fragFootprints node cdr count).sum ≤ c.arenaSize)
    (hfit : FragmentsFit c d first (fragFootprints node cdr count)) :
    ∃ gone kept own, Fragmented node cdr first count d c
      (cacheFragment node first cdr count now true c 0) old 1 gone kept own := by
  obtain ⟨gone, mid, kept, offset, h⟩ := @cacheFragment_cached c d old left node cdr first count now
    0 (by rwa [plus_zero]) hd hpos hsum
  have hfoot := @fragFootprints_drop node cdr count 0 hpos
  rw [List.drop_zero, Nat.zero_add] at hfoot
  rw [plus_zero] at h
  have hlen : 0 < fragHeaderLength 0 + node.fragPayloadLength 0 (sampleCdrLength cdr) := by
    have := fragHeaderLength_pos 0
    omega
  have hfoot0 : 0 < fragFootprint node cdr 0 := Nat.lt_of_lt_of_le hlen (le_roundup _)
  have hrecords : [(⟨first, offset, fragHeaderLength 0 +
      node.fragPayloadLength 0 (sampleCdrLength cdr),
      some (fragRecord node first cdr count 0)⟩ : Held)].map (fun h => (h.seqNo, h.record)) =
      (List.range (0 + 1)).map
        fun j => (plus first j, some (fragRecord node first cdr count j)) := by
    simp
  refine ⟨gone, kept, _, h.split, ?_, hrecords, ?_, ?_, h.landed.arenaSize, h.landed.arenaLimit,
    h.landed.ringDepth, h.landed.sampleDepth, h.log⟩
  · rw [plus_succ, plus_zero]
    refine h.own_ready _ (by simp) ?_
    intro g hg
    rcases List.mem_append.mp hg with hg | hg
    · exact hR.stored.grouped.samples g (by simp [h.split, hg])
    · rw [List.mem_singleton] at hg
      subst hg
      exact isSample_fragments hrecords
  · -- the room behind the first fragment, by where it was placed
    intro x hx
    simp only [List.head?_cons, Option.mem_some_iff] at hx
    subst hx
    rw [h.landed.tail, h.landed.arenaSize]
    simp only
    change Room c.arenaSize offset (offset + fragFootprint node cdr 0) _
    rw [hfoot, List.sum_cons] at hsum
    unfold Room
    rw [if_pos (by omega)]
    rcases h.place with rfl | ⟨hret, rfl, hend⟩
    · exact ⟨by omega, by rw [spill_eq_zero (by omega)]⟩
    · change c.tail + fragFootprint node cdr 0 ≤ c.arenaSize at hend
      have hs := hfit hret (by rw [hfoot, List.headD_cons]; omega)
      rw [hfoot, spill, if_pos (by omega)] at hs
      rw [Nat.sub_add_eq]
      exact ⟨by omega, hs⟩
  · intro pre b x rest hold hb hcount hroom
    rw [hfoot] at hroom
    exact h.barrier hR.stored hold hb hlen (by omega) hroom

theorem Fragmented.next {c₁ : ReliableCache} {i : Nat} {gone kept : List (List Held)}
    {own : List Held} (hF : Fragmented node cdr first count d c c₁ old (i + 1) gone kept own)
    (hd : c₁.ringDepth = d) (hi : i + 1 < count) (hcd : count ≤ d)
    (hsum : (fragFootprints node cdr count).sum ≤ c.arenaSize) :
    ∃ gone kept own, Fragmented node cdr first count d c
      (cacheFragment node first cdr count now true c₁ (i + 1)) old (i + 2) gone kept own := by
  obtain ⟨gone', mid, kept', offset, h⟩ := @cacheFragment_cached c₁ d _ [] node cdr first count now
    (i + 1) hF.ready hd hi (by rw [hF.arenaSize]; exact hsum)
  have hfoot := @fragFootprints_drop node cdr count (i + 1) hi
  have hlen : 0 < fragHeaderLength (i + 1) +
      node.fragPayloadLength (i + 1) (sampleCdrLength cdr) := by
    have := fragHeaderLength_pos (i + 1)
    omega
  have hdlt := hF.ready.stored.grouped.ranged.depth_lt
  have hreach : ∀ x : SeqNo, steps x first + count ≤ d → steps x (plus first (i + 1)) < d := by
    intro x hx
    rw [steps_plus_of (by omega)]
    omega
  -- the own fragments so far are a barrier too
  obtain ⟨x, rest, hown⟩ : ∃ x rest, own = x :: rest := by
    obtain ⟨x, rest, hx, _⟩ := isSample_fragments hF.records
    exact ⟨x, rest, hx⟩
  have hx : x.seqNo = first := by
    have := hF.records
    rw [hown, List.range_succ_eq_map, List.map_cons, List.map_cons] at this
    simpa using (Prod.mk.inj (List.cons.inj this).1).1
  obtain ⟨pre, hpre, hroom⟩ := h.barrier hF.ready.stored (rfl : kept ++ [own] = kept ++ [own])
    (show [own].flatten = x :: rest by rw [hown]; simp) hlen (hreach _ (by rw [hx, steps_self]; omega))
    (hfoot ▸ hF.room x (by simp [hown]))
  obtain ⟨out, hkept⟩ : ∃ out, kept = out ++ pre ∧ gone' = out := by
    have hs := h.split
    rw [hpre, ← List.append_assoc] at hs
    exact ⟨gone', List.append_cancel_right hs, rfl⟩
  obtain ⟨hkept, rfl⟩ := hkept
  have hrecords : (own ++ [(⟨plus first (i + 1), offset, fragHeaderLength (i + 1) +
      node.fragPayloadLength (i + 1) (sampleCdrLength cdr),
      some (fragRecord node first cdr count (i + 1))⟩ : Held)]).map (fun h => (h.seqNo, h.record)) =
      (List.range (i + 1 + 1)).map
        fun j => (plus first j, some (fragRecord node first cdr count j)) := by
    rw [List.map_append, hF.records, List.range_succ (n := i + 1), List.map_append]
    simp
  refine ⟨gone ++ gone', pre, _, ?_, ?_, hrecords, ?_, ?_, h.landed.arenaSize.trans hF.arenaSize,
    h.landed.arenaLimit.trans hF.arenaLimit, h.landed.ringDepth.trans hF.ringDepth,
    h.landed.sampleDepth.trans hF.sampleDepth, ?_⟩
  · rw [hF.split, hkept, List.append_assoc]
  · rw [show plus first (i + 2) = plus first (i + 1) + 1 by
      rw [show i + 2 = (i + 1) + 1 from rfl, plus_add, plus_succ, plus_zero]]
    refine h.own_ready _ (by rw [hpre]; simp) ?_
    intro g hg
    rcases List.mem_append.mp hg with hg | hg
    · exact hF.ready.stored.grouped.samples g (by simp [hkept, hg])
    · rw [List.mem_singleton] at hg
      subst hg
      exact isSample_fragments hrecords
  · intro y hy
    rw [hown] at hy
    simp only [List.cons_append, List.head?_cons, Option.mem_some_iff] at hy
    subst hy
    exact hroom
  · intro pre' b y rest' hold hb hcount hroom'
    obtain ⟨pre₁, hk₁, hroom₁⟩ := hF.barrier pre' b y rest' hold hb hcount hroom'
    obtain ⟨pre₂, hk₂, hroom₂⟩ := @Cached.barrier c₁ _ d _ _ [] _ _ _ _ _ _ pre₁ (b ++ [own]) y
      (rest' ++ own) _ h hF.ready.stored (by rw [hk₁, List.append_assoc]) (by simp [hb]) hlen
      (hreach _ hcount) (hfoot ▸ hroom₁)
    refine ⟨pre₂, ?_, hroom₂⟩
    rw [hpre, ← List.append_assoc] at hk₂
    exact List.append_cancel_right hk₂
  · rw [h.log, hF.log]
    simp

/-- All the fragments of a sample that is kept, one by one. -/
theorem Fragmented.all (hR : c.Ready d old left first) (hd : c.ringDepth = d) (hpos : 0 < count)
    (hcd : count ≤ d) (hsum : (fragFootprints node cdr count).sum ≤ c.arenaSize)
    (hfit : FragmentsFit c d first (fragFootprints node cdr count)) :
    ∃ gone kept own, Fragmented node cdr first count d c
      ((List.range count).foldl (cacheFragment node first cdr count now true) c) old count gone kept
        own := by
  have hrun : ∀ i < count, ∃ gone kept own, Fragmented node cdr first count d c
      ((List.range (i + 1)).foldl (cacheFragment node first cdr count now true) c) old (i + 1) gone
        kept own := by
    intro i hi
    induction i with
    | zero => exact Fragmented.start hR hd hpos hsum hfit
    | succ i ih =>
      obtain ⟨gone, kept, own, hF⟩ := ih (by omega)
      rw [List.range_succ, List.foldl_append]
      exact hF.next (hF.ringDepth.trans hd) hi hcd hsum
  obtain ⟨i, rfl⟩ : ∃ i, count = i + 1 := ⟨count - 1, by omega⟩
  exact hrun i (Nat.lt_succ_self i)

end Fragments

end ReliableCache

end Tickle
