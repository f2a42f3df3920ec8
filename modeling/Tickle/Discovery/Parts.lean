import Tickle.Discovery.Applied
import Tickle.Discovery.Split
import Tickle.Writer.Resend

/-! # Parts in any order

A list sent in parts is applied part by part, in whatever order they come and however often. Until the last of them the context
has not acted on the list; from then on it has recorded exactly the list, and the parts that still come change nothing.
-/

namespace Tickle

namespace RemoteContext

/-- The announces processed one after the other, each with when. -/
def feed (c : RemoteContext) (heard : List (Nat × Announce)) : RemoteContext :=
  heard.foldl (fun c h => c.processAnnounce h.1 h.2) c

/-- What decides whether an announce is news. -/
def marks (c : RemoteContext) : Bool × Bool × Generation × Nat × Nat :=
  (c.updateSeen, c.updateReprocess, c.updateGeneration, c.updateApplied, c.updateSenderPort)

theorem receive_sameMarks (c : RemoteContext) (now : Nat) (a : Announce) : (c.receive now a).marks = c.marks := by
  have absorbed := c.absorb_sameMarks now a
  have begun : (c.beginList a).marks = c.marks := by
    unfold beginList
    split <;> rfl
  unfold SameMarks at absorbed
  unfold receive
  rw [absorbed]
  exact begun

end RemoteContext

namespace RemoteLists

open RemoteContext

variable {lists : RemoteLists} {c₀ c : RemoteContext} {g : Generation} {port : Nat} {seen : Finset Nat} {now : Nat}
  {a : Announce}

/-- The datagram is a part of the list of generation `g`, from `port`. -/
structure PartOf (lists : RemoteLists) (g : Generation) (port : Nat) (a : Announce) : Prop where
  sent : lists.Sent a
  generation : a.generation = g
  port : a.senderPort = port

/-- The list is news to the context at the times given, and no part of it has come. -/
structure News (c₀ : RemoteContext) (g : Generation) (times : List Nat) : Prop where
  unapplied : c₀.discoveryGenerationApplied g = false
  current : ∀ now ∈ times, c₀.announceSuperseded now g = false
  unheard : c₀.updatePartsAny = false ∨ c₀.updatePartGeneration ≠ g

/-- The parts `seen` have come, one at least is missing. -/
structure Gathering (lists : RemoteLists) (c₀ : RemoteContext) (g : Generation) (seen : Finset Nat) (c : RemoteContext) :
    Prop where
  marks : c.marks = c₀.marks
  missing : seen ≠ Finset.range (lists.parts g).length
  parts : (seen = ∅ ∧ (c.updatePartsAny = false ∨ c.updatePartGeneration ≠ g)) ∨
    (c.Recorded (lists.Received c) ∧ c.updatePartGeneration = g ∧ c.updatePartCount = (lists.parts g).length ∧
      c.updatePartReceived = seen ∧ seen ⊆ Finset.range (lists.parts g).length)

/-- The list is acted on, and recorded. -/
structure Complete (lists : RemoteLists) (g : Generation) (port : Nat) (c : RemoteContext) : Prop where
  applied : c.discoveryGenerationApplied g = true
  recorded : c.Recorded (· ∈ (lists.parts g).flatten)
  port : c.updateSenderPort = port

theorem Gathering.unapplied (gathering : Gathering lists c₀ g seen c) (news : c₀.discoveryGenerationApplied g = false) :
    c.discoveryGenerationApplied g = false := by
  have marks := gathering.marks
  simp only [RemoteContext.marks, Prod.mk.injEq] at marks
  unfold discoveryGenerationApplied at news ⊢
  rw [marks.1, marks.2.1, marks.2.2.1]
  exact news

theorem PartOf.index (part : lists.PartOf g port a) : a.fragIndex < (lists.parts g).length := by
  have found := part.sent.part
  rw [part.generation] at found
  exact (List.getElem?_eq_some_iff.mp found).1

theorem PartOf.count (part : lists.PartOf g port a) : a.fragCount = (lists.parts g).length := by
  rw [part.sent.count, part.generation]

theorem Gathering.acts (gathering : Gathering lists c₀ g seen c) (part : lists.PartOf g port a)
    (few : (lists.parts g).length ≤ updateMaxParts) (news : c₀.discoveryGenerationApplied g = false)
    (current : c₀.announceSuperseded now g = false) : (c.heard now).ignores now a = false := by
  have index := part.index
  have count := part.count
  have unapplied : (c.heard now).discoveryGenerationApplied g = false := gathering.unapplied news
  have unsuperseded : (c.heard now).announceSuperseded now g = false := by
    have marks := gathering.marks
    simp only [RemoteContext.marks, Prod.mk.injEq] at marks
    unfold announceSuperseded at current ⊢
    change (if (!c.updateSeen || decide (c.updateGeneration = 0)) = true then false else _) = false
    rw [marks.1, marks.2.2.1]
    simpa [heard, marks.2.2.2.1, marks.2.2.1] using current
  unfold ignores
  rw [part.generation, unapplied, unsuperseded]
  simp only [Bool.or_self, Bool.and_false, Bool.or_false, Bool.or_eq_false_iff, decide_eq_false_iff_not]
  omega

/-- A part begins the list only where nothing of it is there. -/
theorem Gathering.begun (gathering : Gathering lists c₀ g seen c) (part : lists.PartOf g port a) (now : Nat) :
    lists.Gathers ((c.heard now).beginList a) a ∧ ((c.heard now).beginList a).updatePartReceived = seen := by
  have index := part.index
  have count := part.count
  by_cases begins : (c.heard now).begins a = true
  · refine ⟨begun_gathers begins, ?_⟩
    have nothing : seen = ∅ := by
      obtain ⟨none_, -⟩ | ⟨-, generation, number, received, within⟩ := gathering.parts
      · exact none_
      · simp only [RemoteContext.begins, updatePartsAny, heard, generation, number, received, part.generation, count,
          Bool.or_eq_true, decide_eq_true_eq, Bool.not_eq_true', ne_eq, not_true_eq_false, or_false] at begins
        rcases begins with one | empty
        · apply Finset.eq_empty_of_ssubset_singleton
          rw [Finset.ssubset_iff_subset_ne, ← Finset.range_one, ← one]
          exact ⟨within, gathering.missing⟩
        · have positive : (lists.parts g).length ≠ 0 := by omega
          simpa [positive] using empty
    unfold beginList
    rw [if_pos begins, nothing]
  · obtain ⟨-, fresh⟩ | ⟨recorded, generation, number, received, within⟩ := gathering.parts
    · refine absurd ?_ begins
      have own := part.generation
      unfold RemoteContext.begins
      rcases fresh with none_ | other
      · have : (c.heard now).updatePartsAny = false := none_
        simp [this]
      · have : (c.heard now).updatePartGeneration ≠ a.generation := by rw [own]; exact other
        simp [this]
    · unfold beginList
      rw [if_neg begins]
      refine ⟨⟨recorded.moved rfl rfl rfl fun _ => Iff.rfl, ?_, ?_, ?_⟩, received⟩
      · rw [part.generation]
        exact generation
      · rw [count]
        exact number
      · rw [count]
        exact received ▸ within

theorem Gathering.receives (gathering : Gathering lists c₀ g seen c) (part : lists.PartOf g port a) (now : Nat) :
    lists.Gathers ((c.heard now).receive now a) a ∧
      ((c.heard now).receive now a).updatePartReceived = insert a.fragIndex seen := by
  obtain ⟨begun, received⟩ := gathering.begun part now
  refine ⟨begun.receive part.sent, ?_⟩
  have marks := (c.heard now).absorb_sameMarks now a
  unfold SameMarks at marks
  unfold receive
  rw [marks]
  exact congrArg (insert a.fragIndex) received

theorem Gathering.step (gathering : Gathering lists c₀ g seen c) (part : lists.PartOf g port a)
    (few : (lists.parts g).length ≤ updateMaxParts) (news : c₀.discoveryGenerationApplied g = false)
    (current : c₀.announceSuperseded now g = false) :
    (insert a.fragIndex seen = Finset.range (lists.parts g).length ∧ Complete lists g port (c.processAnnounce now a)) ∨
      Gathering lists c₀ g (insert a.fragIndex seen) (c.processAnnounce now a) := by
  have acts := gathering.acts part few news current
  obtain ⟨gathers, received⟩ := gathering.receives part now
  have done : ((c.heard now).receive now a).updatePartsComplete a.fragCount = true ↔
      insert a.fragIndex seen = Finset.range (lists.parts g).length := by
    rw [updatePartsComplete, received, part.count, decide_eq_true_eq]
  unfold processAnnounce
  dsimp only
  rw [if_neg (by simp [acts]), if_neg (by simp [part.sent.whole])]
  by_cases all : insert a.fragIndex seen = Finset.range (lists.parts g).length
  · rw [if_pos (done.mpr all)]
    refine .inl ⟨all, ?_, ?_, part.port⟩
    · simp [discoveryGenerationApplied, finish, part.generation]
    · have recorded := finish_recorded gathers.recorded now a
      refine recorded.congr fun e => ?_
      rw [received_all gathers part.sent (done.mpr all), part.generation]
  · rw [if_neg (fun h => all (done.mp h))]
    refine .inr ⟨?_, all, .inr ⟨gathers.recorded, ?_, ?_, received, ?_⟩⟩
    · rw [receive_sameMarks]
      exact gathering.marks
    · rw [gathers.generation, part.generation]
    · rw [gathers.count, part.count]
    · rw [← received, ← part.count]
      exact gathers.received

/-- A part of a list that is acted on already is one more sign of life. -/
theorem Complete.step (complete : Complete lists g port c) (part : lists.PartOf g port a) (now : Nat) :
    Complete lists g port (c.processAnnounce now a) := by
  have same : (c.heard now).newIncarnation a = false := by
    unfold newIncarnation
    have : (c.heard now).updateSenderPort = a.senderPort := complete.port.trans part.port.symm
    simp [this]
  have applied : (c.heard now).discoveryGenerationApplied a.generation = true := by
    rw [part.generation]
    exact complete.applied
  have ignored : (c.heard now).ignores now a = true := by
    unfold ignores
    simp [same, applied]
  unfold processAnnounce
  dsimp only
  rw [if_pos ignored]
  exact ⟨complete.applied, complete.recorded.moved rfl rfl rfl fun _ => Iff.rfl, complete.port⟩

/-- The parts that have come, by index. -/
def indices (heard : List (Nat × Announce)) : Finset Nat := (heard.map fun h => h.2.fragIndex).toFinset

theorem Complete.feed {heard : List (Nat × Announce)} (complete : Complete lists g port c)
    (parts : ∀ h ∈ heard, lists.PartOf g port h.2) : Complete lists g port (c.feed heard) := by
  induction heard generalizing c with
  | nil => exact complete
  | cons h rest ih =>
    obtain ⟨part, others⟩ := List.forall_mem_cons.mp parts
    exact ih (complete.step part h.1) others

theorem PartOf.indices {heard : List (Nat × Announce)} (parts : ∀ h ∈ heard, lists.PartOf g port h.2) :
    indices heard ⊆ Finset.range (lists.parts g).length := by
  intro i hi
  simp only [RemoteLists.indices, List.mem_toFinset, List.mem_map] at hi
  obtain ⟨h, hh, rfl⟩ := hi
  exact Finset.mem_range.mpr (parts h hh).index

theorem Gathering.feed {heard : List (Nat × Announce)} (gathering : Gathering lists c₀ g seen c)
    (parts : ∀ h ∈ heard, lists.PartOf g port h.2) (few : (lists.parts g).length ≤ updateMaxParts)
    (news : c₀.discoveryGenerationApplied g = false)
    (current : ∀ h ∈ heard, c₀.announceSuperseded h.1 g = false) (within : seen ⊆ Finset.range (lists.parts g).length) :
    (seen ∪ indices heard = Finset.range (lists.parts g).length ∧ Complete lists g port (c.feed heard)) ∨
      Gathering lists c₀ g (seen ∪ indices heard) (c.feed heard) := by
  induction heard generalizing c seen with
  | nil =>
    right
    simpa [indices, RemoteContext.feed] using gathering
  | cons h rest ih =>
    obtain ⟨part, others⟩ := List.forall_mem_cons.mp parts
    obtain ⟨timely, later⟩ := List.forall_mem_cons.mp current
    have gone : seen ∪ indices (h :: rest) = insert h.2.fragIndex seen ∪ indices rest := by
      simp [indices, Finset.insert_union, Finset.union_insert]
    have inside : insert h.2.fragIndex seen ⊆ Finset.range (lists.parts g).length :=
      Finset.insert_subset (Finset.mem_range.mpr part.index) within
    rw [gone]
    change (_ ∧ Complete lists g port ((c.processAnnounce h.1 h.2).feed rest)) ∨
      Gathering lists c₀ g _ ((c.processAnnounce h.1 h.2).feed rest)
    obtain ⟨all, complete⟩ | more := gathering.step part few news timely
    · left
      refine ⟨?_, complete.feed others⟩
      rw [all]
      exact Finset.union_eq_left.mpr (PartOf.indices others)
    · exact ih more others later inside

/-- What a context fed with parts has: the list, with all of them; before that it has not acted on it. -/
theorem News.feed {heard : List (Nat × Announce)} (news : News c₀ g (heard.map Prod.fst))
    (parts : ∀ h ∈ heard, lists.PartOf g port h.2) (some_ : 0 < (lists.parts g).length)
    (few : (lists.parts g).length ≤ updateMaxParts) :
    ((c₀.feed heard).discoveryGenerationApplied g = true ↔ indices heard = Finset.range (lists.parts g).length) ∧
      ((c₀.feed heard).discoveryGenerationApplied g = true →
        (c₀.feed heard).Recorded (· ∈ (lists.parts g).flatten)) := by
  have start : Gathering lists c₀ g ∅ c₀ := by
    refine ⟨rfl, ?_, .inl ⟨rfl, news.unheard⟩⟩
    intro empty
    have : (0 : Nat) ∈ (∅ : Finset Nat) := empty ▸ Finset.mem_range.mpr some_
    exact absurd this (Finset.notMem_empty 0)
  have timely : ∀ h ∈ heard, c₀.announceSuperseded h.1 g = false := fun h hh =>
    news.current h.1 (List.mem_map_of_mem hh)
  have fed := start.feed parts few news.unapplied timely (Finset.empty_subset _)
  rw [Finset.empty_union] at fed
  obtain ⟨all, complete⟩ | more := fed
  · exact ⟨⟨fun _ => all, fun _ => complete.applied⟩, fun _ => complete.recorded⟩
  · have unapplied := more.unapplied news.unapplied
    constructor
    · constructor
      · intro applied
        exact absurd (unapplied.symm.trans applied) (by decide)
      · intro all
        exact absurd all more.missing
    · intro applied
      exact absurd (unapplied.symm.trans applied) (by decide)

end RemoteLists

namespace Update

open RemoteContext

/-- What its receiver makes of a datagram, whose padding is read for nothing. -/
def Datagram.announce (host : ByteOrder) (reverse : Bool) (senderPort : Nat) (padding : Cursor.Bytes) (d : Datagram) :
    Option Announce :=
  (UpdateEntity.decodeEntities host reverse d.entityCount (d.entities ++ padding)).map fun decoded =>
    ⟨d.generation, d.fragIndex, d.fragCount, senderPort, decoded.1, decoded.2⟩

/-- The announces of the datagrams heard, each with when. -/
def announces (host : ByteOrder) (reverse : Bool) (senderPort : Nat) (padding : Datagram → Cursor.Bytes)
    (heard : List (Nat × Datagram)) : List (Nat × Announce) :=
  heard.filterMap fun h => (h.2.announce host reverse senderPort (padding h.2)).map fun a => (h.1, a)

theorem heard_key (e : UpdateEntity) : e.heard.key = e.key := rfl

variable {node : Context} {host sender : ByteOrder} {g : Generation} {list : List UpdateEntity}
  {parts : List (List UpdateEntity)} {datagrams : List Datagram}

theorem Datagram.Carries.announce {i n : Nat} {part : List UpdateEntity} {d : Datagram}
    (carries : d.Carries node sender g i n part) (good : ∀ e ∈ part, e.Encodable) (short : ∀ e ∈ part, e.Short)
    (host : ByteOrder) (port : Nat) (padding : Cursor.Bytes) :
    d.announce host (host ≠ sender) port padding = some ⟨g, i, n, port, part.map UpdateEntity.heard, none⟩ := by
  have decoded := UpdateEntity.decodeEntities_images host sender good short padding
  unfold Datagram.announce
  rw [carries.entityCount, carries.entities, carries.generation, carries.fragIndex, carries.fragCount, images, decoded]
  rfl

/-- The lists of a context that announces `parts` under generation `g`. -/
def remoteLists (g : Generation) (parts : List (List UpdateEntity))
    (distinct : ∀ e ∈ parts.flatten, ∀ e' ∈ parts.flatten, e.key = e'.key → e = e') : RemoteLists where
  parts g' := if g' = g then parts.map (List.map UpdateEntity.heard) else []
  distinct := by
    intro g' e he e' he' same
    split at he
    next own =>
      rw [if_pos own] at he'
      rw [← List.map_flatten, List.mem_map] at he he'
      obtain ⟨x, hx, rfl⟩ := he
      obtain ⟨y, hy, rfl⟩ := he'
      rw [distinct x hx y hy same]
    next => exact absurd he (by simp)

theorem forall₂_getElem? {α β : Type} {r : α → β → Prop} {l : List α} {l' : List β} (h : List.Forall₂ r l l') {i : Nat} {b : β}
    (found : l'[i]? = some b) : ∃ a, l[i]? = some a ∧ r a b := by
  induction h generalizing i with
  | nil => simp at found
  | cons head _ ih =>
    cases i with
    | zero =>
      rw [List.getElem?_cons_zero, Option.some_inj] at found
      subst found
      exact ⟨_, rfl, head⟩
    | succ i => exact ih found

theorem Carried.length_eq (carried : Carried node sender g list parts datagrams) : datagrams.length = parts.length := by
  have := carried.datagrams.length_eq
  rw [List.length_zipIdx] at this
  exact this.symm

theorem Carried.getElem? (carried : Carried node sender g list parts datagrams) {i : Nat} {d : Datagram}
    (found : datagrams[i]? = some d) :
    ∃ part, parts[i]? = some part ∧ d.Carries node sender g i parts.length part := by
  obtain ⟨⟨part, j⟩, entry, carries⟩ := forall₂_getElem? carried.datagrams found
  rw [List.getElem?_zipIdx, Option.map_eq_some_iff] at entry
  obtain ⟨part', found', same⟩ := entry
  cases same
  rw [Nat.zero_add] at carries
  exact ⟨part, found', carries⟩

theorem Carried.placed (carried : Carried node sender g list parts datagrams) {i : Nat} {d : Datagram}
    (found : datagrams[i]? = some d) : d.fragIndex = i := by
  obtain ⟨_, _, carries⟩ := carried.getElem? found
  exact carries.fragIndex

theorem mem_announces {reverse : Bool} {port : Nat} {padding : Datagram → Cursor.Bytes} {heard : List (Nat × Datagram)}
    {x : Nat × Announce} : x ∈ announces host reverse port padding heard ↔
      ∃ h ∈ heard, h.1 = x.1 ∧ h.2.announce host reverse port (padding h.2) = some x.2 := by
  simp only [announces, List.mem_filterMap, Option.map_eq_some_iff]
  constructor
  · rintro ⟨h, hh, a, decoded, rfl⟩
    exact ⟨h, hh, rfl, decoded⟩
  · rintro ⟨h, hh, time, decoded⟩
    exact ⟨h, hh, x.2, decoded, Prod.ext time rfl⟩

section Fed

variable (carried : Carried node sender g list parts datagrams) (good : ∀ e ∈ list, e.Encodable)
  (short : ∀ e ∈ list, e.Short) (distinct : ∀ e ∈ parts.flatten, ∀ e' ∈ parts.flatten, e.key = e'.key → e = e')
  {port : Nat} {padding : Datagram → Cursor.Bytes} {heard : List (Nat × Datagram)} (own : ∀ h ∈ heard, h.2 ∈ datagrams)

include carried good short

/-- Every datagram decodes to the part it carries. -/
theorem Carried.decodes (host : ByteOrder) (port : Nat) (padding : Cursor.Bytes) {d : Datagram} (hd : d ∈ datagrams) :
    ∃ a, d.announce host (host ≠ sender) port padding = some a ∧ (remoteLists g parts distinct).PartOf g port a ∧
      a.fragIndex = d.fragIndex := by
  have own_parts : (remoteLists g parts distinct).parts g = parts.map (List.map UpdateEntity.heard) := if_pos rfl
  obtain ⟨i, found⟩ := List.mem_iff_getElem?.mp hd
  obtain ⟨part, there, carries⟩ := carried.getElem? found
  have inside : ∀ e ∈ part, e ∈ list := fun e he => by
    rw [← carried.list]
    exact List.mem_flatten.mpr ⟨part, List.mem_of_getElem? there, he⟩
  refine ⟨_, carries.announce (fun e he => good e (inside e he)) (fun e he => short e (inside e he)) host port _, ?_,
    carries.fragIndex.symm⟩
  refine ⟨⟨?_, ?_, rfl⟩, rfl, rfl⟩
  · dsimp only
    rw [own_parts, List.length_map]
  · dsimp only
    rw [own_parts, List.getElem?_map, there]
    rfl

include own

theorem Carried.partOf {x : Nat × Announce} (hx : x ∈ announces host (host ≠ sender) port padding heard) :
    (remoteLists g parts distinct).PartOf g port x.2 := by
  obtain ⟨h, hh, -, decoded⟩ := mem_announces.mp hx
  obtain ⟨a, decoded', part, -⟩ := carried.decodes good short distinct host port (padding h.2) (own h hh)
  rw [decoded, Option.some_inj] at decoded'
  exact decoded' ▸ part

include distinct

theorem Carried.mem_indices {i : Nat} :
    i ∈ RemoteLists.indices (announces host (host ≠ sender) port padding heard) ↔ ∃ h ∈ heard, h.2.fragIndex = i := by
  have decodes := fun h (hh : h ∈ heard) => carried.decodes good short distinct host port (padding h.2) (own h hh)
  simp only [RemoteLists.indices, List.mem_toFinset, List.mem_map]
  constructor
  · rintro ⟨x, hx, rfl⟩
    obtain ⟨h, hh, -, decoded⟩ := mem_announces.mp hx
    obtain ⟨a, decoded', -, index⟩ := decodes h hh
    rw [decoded, Option.some_inj] at decoded'
    exact ⟨h, hh, by rw [decoded', index]⟩
  · rintro ⟨h, hh, rfl⟩
    obtain ⟨a, decoded, -, index⟩ := decodes h hh
    exact ⟨(h.1, a), mem_announces.mpr ⟨h, hh, rfl, decoded⟩, index⟩

/-- Every part has come exactly when every datagram has. -/
theorem Carried.indices_all :
    RemoteLists.indices (announces host (host ≠ sender) port padding heard) =
      Finset.range ((remoteLists g parts distinct).parts g).length ↔ ∀ d ∈ datagrams, d ∈ heard.map Prod.snd := by
  have count : ((remoteLists g parts distinct).parts g).length = datagrams.length := by
    rw [carried.length_eq]
    simp [remoteLists]
  constructor
  · intro full d hd
    obtain ⟨i, found⟩ := List.mem_iff_getElem?.mp hd
    have inside : i ∈ Finset.range ((remoteLists g parts distinct).parts g).length := by
      rw [Finset.mem_range, count]
      exact (List.getElem?_eq_some_iff.mp found).1
    rw [← full, carried.mem_indices good short distinct own] at inside
    obtain ⟨h, hh, index⟩ := inside
    obtain ⟨j, found'⟩ := List.mem_iff_getElem?.mp (own h hh)
    have same : j = i := (carried.placed found').symm.trans index
    rw [same, found, Option.some_inj] at found'
    exact List.mem_map.mpr ⟨h, hh, found'.symm⟩
  · intro covered
    have each : ∀ x ∈ announces host (host ≠ sender) port padding heard,
        (remoteLists g parts distinct).PartOf g port x.2 := fun x hx => carried.partOf good short distinct own hx
    apply Finset.Subset.antisymm (RemoteLists.PartOf.indices each)
    intro i hi
    rw [Finset.mem_range, count] at hi
    obtain ⟨h, hh, same⟩ := List.mem_map.mp (covered _ (List.getElem_mem hi))
    exact (carried.mem_indices good short distinct own).mpr ⟨h, hh, same ▸ carried.placed (List.getElem?_eq_getElem hi)⟩

end Fed

/-- The parts fed in any order, with repetitions: the list is acted on with the last of them, and is then what is recorded. -/
theorem Carried.feed (carried : Carried node sender g list parts datagrams) (good : ∀ e ∈ list, e.Encodable)
    (short : ∀ e ∈ list, e.Short) (distinct : ∀ e ∈ list, ∀ e' ∈ list, e.key = e'.key → e = e') (host : ByteOrder)
    (port : Nat) (padding : Datagram → Cursor.Bytes) {c₀ : RemoteContext} {heard : List (Nat × Datagram)}
    (news : RemoteLists.News c₀ g (heard.map Prod.fst)) (own : ∀ h ∈ heard, h.2 ∈ datagrams) :
    ((c₀.feed (announces host (host ≠ sender) port padding heard)).discoveryGenerationApplied g = true ↔
        ∀ d ∈ datagrams, d ∈ heard.map Prod.snd) ∧
      ((c₀.feed (announces host (host ≠ sender) port padding heard)).discoveryGenerationApplied g = true →
        (c₀.feed (announces host (host ≠ sender) port padding heard)).Recorded (· ∈ list.map UpdateEntity.heard)) := by
  have whole := carried.list
  subst whole
  have own_parts : (remoteLists g parts distinct).parts g = parts.map (List.map UpdateEntity.heard) := if_pos rfl
  have current : RemoteLists.News c₀ g ((announces host (host ≠ sender) port padding heard).map Prod.fst) := by
    refine ⟨news.unapplied, fun now hnow => ?_, news.unheard⟩
    obtain ⟨x, hx, rfl⟩ := List.mem_map.mp hnow
    obtain ⟨h, hh, time, -⟩ := mem_announces.mp hx
    exact news.current _ (time ▸ List.mem_map_of_mem hh)
  have fed := current.feed (fun x hx => carried.partOf good short distinct own hx)
    (by rw [own_parts, List.length_map]; exact carried.some_) (by rw [own_parts, List.length_map]; exact carried.few)
  rw [carried.indices_all good short distinct own] at fed
  refine ⟨fed.1, fun applied => ?_⟩
  have recorded := fed.2 applied
  rw [own_parts, ← List.map_flatten] at recorded
  exact recorded

/-! ## Split and unsplit -/

theorem short_of_fits {overhead : Nat} {e : UpdateEntity} (udp : node.controlMax ≤ 65507)
    (fits : submessageBytesFitDatagram node (overhead + entityWireSize e) = true) : e.Short := by
  simp only [submessageBytesFitDatagram, decide_eq_true_eq] at fits
  have up := le_roundup (overhead + entityWireSize e)
  unfold entityWireSize UpdateEntity.maxStringLength at *
  unfold UpdateEntity.Short UpdateEntity.maxStringLength
  omega

theorem fits_mono {a b : Nat} (le : a ≤ b) (fits : submessageBytesFitDatagram node b = true) :
    submessageBytesFitDatagram node a = true := by
  simp only [submessageBytesFitDatagram, decide_eq_true_eq] at fits ⊢
  have : roundup a ≤ roundup b := by
    unfold roundup
    omega
  omega

theorem announced_short (udp : node.controlMax ≤ 65507) {endpoints : List UpdateEntity} {e : UpdateEntity}
    (he : e ∈ announced node endpoints) : e.Short := by
  unfold announced at he
  split at he
  next single =>
    simp only [updateFitsSingle, Bool.and_eq_true] at single
    have part : entityWireSize e ≤ (endpoints.map entityWireSize).sum :=
      List.single_le_sum (fun _ _ => Nat.zero_le _) _ (List.mem_map_of_mem he)
    exact short_of_fits udp (fits_mono (by omega : singleOverhead + entityWireSize e ≤ _) single.2)
  next => exact short_of_fits udp (List.mem_filter.mp he).2

theorem announced_subset {endpoints : List UpdateEntity} {e : UpdateEntity} (he : e ∈ announced node endpoints) :
    e ∈ endpoints := by
  unfold announced at he
  split at he
  · exact he
  · exact (List.mem_filter.mp he).1

theorem announced_distinct {endpoints : List UpdateEntity} (keys : (endpoints.map UpdateEntity.key).Nodup) :
    ∀ e ∈ announced node endpoints, ∀ e' ∈ announced node endpoints, e.key = e'.key → e = e' :=
  fun _ he _ he' same => List.inj_on_of_nodup_map keys (announced_subset he) (announced_subset he') same

/-- The list in one announce of its own, however large. -/
def unsplit (g : Generation) (port : Nat) (list : List UpdateEntity) : Announce :=
  ⟨g, 0, 1, port, list.map UpdateEntity.heard, none⟩

theorem one_le_parts : 1 ≤ updateMaxParts := by decide

theorem unsplit_recorded (distinct : ∀ e ∈ list, ∀ e' ∈ list, e.key = e'.key → e = e') {c₀ : RemoteContext} {now : Nat}
    (news : RemoteLists.News c₀ g [now]) (port : Nat) :
    (c₀.processAnnounce now (unsplit g port list)).Recorded (· ∈ list.map UpdateEntity.heard) := by
  have lone : [list].flatten = list := by simp
  rw [← lone] at distinct
  have parts : (remoteLists g [list] distinct).parts g = [list.map UpdateEntity.heard] := if_pos rfl
  have part : (remoteLists g [list] distinct).PartOf g port (unsplit g port list) := by
    refine ⟨⟨?_, ?_, rfl⟩, rfl, rfl⟩
    · exact (congrArg List.length parts).symm
    · exact congrArg (·[0]?) parts
  have fed := @RemoteLists.News.feed (remoteLists g [list] distinct) c₀ g port [(now, unsplit g port list)] news
    (by simpa using part) (by rw [parts]; exact Nat.one_pos) (by rw [parts]; exact one_le_parts)
  have applied := fed.1.mpr (by rw [parts]; rfl)
  have recorded := fed.2 applied
  rw [parts, List.flatten_singleton] at recorded
  exact recorded

/-- A Subscriber whose topic has a name of so many bytes. -/
def longNamed (entityId length : Nat) : UpdateEntity :=
  { RemoteLists.subscriberEntity entityId with type := "", name := String.ofList (List.replicate length 'a') }

theorem longNamed_wireSize {entityId length : Nat} (short : length ≤ 65535) :
    entityWireSize (longNamed entityId length) = 46 + length := by
  have name : (longNamed entityId length).name.toList.length = length := by simp [longNamed]
  have type : (longNamed entityId length).type.toList.length = 0 := by simp [longNamed]
  unfold entityWireSize UpdateEntity.recordSize UpdateEntity.maxStringLength
  omega

theorem longNamed_encodable {entityId length : Nat} (id : entityId < 2 ^ 32) : (longNamed entityId length).Encodable where
  endpointId := (by decide : 1 < 2 ^ 32)
  entityId := id
  nodeIndex := (by decide : 0 < 256)
  deadline := (by decide : 0 < 2 ^ 64)
  lease := (by decide : 0 < 2 ^ 64)
  lifespan := (by decide : 0 < 2 ^ 64)
  depth := (by decide : 1 < 2 ^ 32)
  words := (by decide : 4 < 2 ^ 16)
  type := by simp [longNamed]
  name := by
    intro c hc
    simp only [longNamed, String.toList_ofList] at hc
    rw [List.eq_of_mem_replicate hc]
    decide

/-- Two endpoints that do not fit one datagram together, and one that fits none. -/
def crowded : List UpdateEntity := [longNamed 1 255, longNamed 2 255, longNamed 3 600]

/-- A round of the plan, by the size of the endpoint. -/
theorem step_of_size {node : Context} {e : UpdateEntity} {size : Nat} (known : entityWireSize e = size) (plan : Plan) :
    plan.step node e =
      if !submessageBytesFitDatagram node (partOverhead + size) then
        some { plan with endpoints := plan.endpoints ++ [none] }
      else if plan.entities = 255 || !submessageBytesFitDatagram node (plan.bytes + size) then
        if plan.partStart.length = updateMaxParts then none
        else some ⟨plan.endpoints ++ [some e], plan.partStart ++ [plan.endpoints.length], partOverhead + size, 1⟩
      else some ⟨plan.endpoints ++ [some e], plan.partStart, plan.bytes + size, plan.entities + 1⟩ := by
  subst known
  rfl

theorem plan_next {node : Context} {e : UpdateEntity} {rest : List UpdateEntity} {plan plan' : Plan} {result : Option Plan}
    (taken : plan.step node e = some plan') (following : rest.foldlM (Plan.step node) plan' = result) :
    (e :: rest).foldlM (Plan.step node) plan = result := by
  rw [List.foldlM_cons, taken]
  exact following

theorem plan_done {node : Context} {endpoints : List UpdateEntity} {plan : Plan}
    (run : endpoints.foldlM (Plan.step node) Plan.start = some plan) :
    planUpdateParts node endpoints = some (plan.endpoints, plan.partStart ++ [endpoints.length]) := by
  unfold planUpdateParts
  rw [run]
  rfl

theorem crowded_plan : planUpdateParts Publisher.smallLink crowded =
    some ([some (longNamed 1 255), some (longNamed 2 255), none], [0, 1, 3]) := by
  have medium : ∀ n, entityWireSize (longNamed n 255) = 301 := fun n => longNamed_wireSize (by decide)
  have large : entityWireSize (longNamed 3 600) = 646 := longNamed_wireSize (by decide)
  have first : Plan.start.step Publisher.smallLink (longNamed 1 255) = some ⟨[some (longNamed 1 255)], [0], 329, 1⟩ := by
    rw [step_of_size (medium 1)]
    rfl
  have second : (⟨[some (longNamed 1 255)], [0], 329, 1⟩ : Plan).step Publisher.smallLink (longNamed 2 255) =
      some ⟨[some (longNamed 1 255), some (longNamed 2 255)], [0, 1], 329, 1⟩ := by
    rw [step_of_size (medium 2)]
    rfl
  have third : (⟨[some (longNamed 1 255), some (longNamed 2 255)], [0, 1], 329, 1⟩ : Plan).step Publisher.smallLink
      (longNamed 3 600) = some ⟨[some (longNamed 1 255), some (longNamed 2 255), none], [0, 1], 329, 1⟩ := by
    rw [step_of_size large]
    rfl
  have run : crowded.foldlM (Plan.step Publisher.smallLink) Plan.start =
      some ⟨[some (longNamed 1 255), some (longNamed 2 255), none], [0, 1], 329, 1⟩ := by
    apply plan_next first
    apply plan_next second
    apply plan_next third
    rfl
  exact plan_done run

end Update

end Tickle
