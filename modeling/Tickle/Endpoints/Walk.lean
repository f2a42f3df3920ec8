import Tickle.Endpoints.Index

/-! # A walk over the endpoints of a topic

`for_each_endpoint()` goes through the index slot by slot, from the home of an id to a free slot, and hands every match to a visitor.
A visitor runs callbacks, which may create and destroy endpoints: the index is rebuilt under the walk, which knows its place by a slot
number alone.
-/

namespace Tickle

namespace Endpoints

open Probing

/-- A walk going on: the slot it is at and the endpoints it has visited. -/
structure Walking where
  node : Node
  slot : Nat
  visited : List Endpoint

namespace Walking

variable (limits : Limits) (kind : UInt8) (id : Nat) (script : Nat → List Node.Change)

def isMatch (endpoint : Endpoint) : Bool := endpoint.kind = kind ∧ endpoint.id = id

/-- The visit of an endpoint, when it matches: the callbacks it runs make the changes of the script. -/
def visit (walking : Walking) (endpoint : Endpoint) : Walking :=
  if isMatch kind id endpoint then
    { walking with
      node := walking.node.changes limits (script walking.visited.length)
      visited := walking.visited ++ [endpoint] }
  else walking

/-- A round of `for_each_endpoint()` at an endpoint. -/
def round (walking : Walking) (endpoint : Endpoint) : Walking :=
  let visited := walking.visit limits kind id script endpoint
  let ready := visited.node.endpointIndexReady limits
  ⟨ready, (walking.slot + 1) &&& ready.mask, visited.visited⟩

/-- The loop of `for_each_endpoint()`, in so many rounds at most: nothing when they are not enough. -/
def walk : (rounds : Nat) → Walking → Option Walking
  | 0, _ => none
  | rounds + 1, walking =>
    match walking.node.index walking.slot with
    | none => some walking
    | some endpoint => walk rounds (walking.round limits kind id script endpoint)

/-- Where `for_each_endpoint()` starts. -/
def begin (node : Node) : Walking :=
  let ready := node.endpointIndexReady limits
  ⟨ready, id &&& ready.mask, []⟩

/-- The slots of the index in use. -/
def slots (walking : Walking) : Nat := walking.node.mask + 1

/-- How far the walk is from the home of the id. -/
def gone (walking : Walking) : Nat := ahead walking.slots id walking.slot

/-- The endpoint lies at least so far from the home of the id. -/
def LiesPast (walking : Walking) (far : Nat) (endpoint : Endpoint) : Prop :=
  ∃ j < walking.slots, far ≤ j ∧ walking.node.index ((id + j) % walking.slots) = some endpoint

instance (walking : Walking) (far : Nat) (endpoint : Endpoint) : Decidable (walking.LiesPast id far endpoint) :=
  inferInstanceAs (Decidable (∃ j < walking.slots, far ≤ j ∧ walking.node.index ((id + j) % walking.slots) = some endpoint))

/-- What the callbacks of a visit do leaves the walk its place: it does not go back, no matching endpoint that stays passes from one
side of it to the other, and a free slot lies ahead. -/
structure Steady (walking : Walking) (endpoint : Endpoint) : Prop where
  further : walking.gone id < (walking.round limits kind id script endpoint).gone id
  sides : ∀ other ∈ walking.node.endpoints, isMatch kind id other = true →
    Node.Change.remove other.ref ∉ script walking.visited.length →
      (walking.LiesPast id (walking.gone id + 1) other ↔
        (walking.round limits kind id script endpoint).LiesPast id
          ((walking.round limits kind id script endpoint).gone id) other)
  free : ∃ j < (walking.round limits kind id script endpoint).slots,
    (walking.round limits kind id script endpoint).gone id ≤ j ∧
      (walking.round limits kind id script endpoint).node.index
        ((id + j) % (walking.round limits kind id script endpoint).slots) = none

/-- Every visit of a walk is steady. -/
def SteadyWalk : (rounds : Nat) → Walking → Prop
  | 0, _ => True
  | rounds + 1, walking =>
    match walking.node.index walking.slot with
    | none => True
    | some endpoint =>
      (isMatch kind id endpoint = true → Steady limits kind id script walking endpoint) ∧
        SteadyWalk rounds (walking.round limits kind id script endpoint)

variable {limits kind id script} {walking : Walking}

/-! ## What a round keeps -/

/-- The index is up to date, the walk has its slot of it, and a free slot lies ahead. -/
structure OnWay (limits : Limits) (id : Nat) (walking : Walking) : Prop where
  sound : walking.node.Sound limits
  indexed : ∃ log, walking.node.Indexed limits log
  within : walking.slot < walking.slots
  free : ∃ j < walking.slots, walking.gone id ≤ j ∧ walking.node.index ((id + j) % walking.slots) = none

/-- The endpoint was visited once and is behind the walk, or not at all and lies ahead. -/
def Counted (id : Nat) (walking : Walking) (endpoint : Endpoint) : Prop :=
  (walking.visited.count endpoint = 0 ∧ walking.LiesPast id (walking.gone id) endpoint) ∨
    (walking.visited.count endpoint = 1 ∧ ¬ walking.LiesPast id (walking.gone id) endpoint)

theorem slots_eq {log : Nat} (indexed : walking.node.Indexed limits log) : walking.slots = 2 ^ log := by
  have some_ := Nat.two_pow_pos log
  unfold slots
  rw [indexed.mask]
  omega

theorem slots_pos (walking : Walking) : 0 < walking.slots := Nat.succ_pos _

theorem OnWay.place (way : OnWay limits id walking) : (id + walking.gone id) % walking.slots = walking.slot :=
  add_ahead way.within

theorem OnWay.holds (way : OnWay limits id walking) :
    Holds walking.slots (fun endpoint : Endpoint => endpoint.id) walking.node.index walking.node.endpoints := by
  obtain ⟨log, indexed⟩ := way.indexed
  rw [slots_eq indexed]
  exact indexed.holds

theorem OnWay.small (way : OnWay limits id walking) : walking.slots ≤ limits.indexSize := by
  obtain ⟨log, indexed⟩ := way.indexed
  rw [slots_eq indexed]
  exact Nat.pow_le_pow_right (by decide) indexed.size

/-- A registered endpoint lies somewhere from its home on. -/
theorem OnWay.liesPast (way : OnWay limits id walking) {endpoint : Endpoint} (mem : endpoint ∈ walking.node.endpoints) :
    walking.LiesPast id 0 endpoint := by
  obtain ⟨slot, within, there⟩ := way.holds.there endpoint mem
  refine ⟨ahead walking.slots id slot, ahead_lt walking.slots_pos _ _, Nat.zero_le _, ?_⟩
  rw [add_ahead within]
  exact there

theorem begin_slot {node : Node} (sound : node.Sound limits) :
    (begin limits id node).slot = id % (begin limits id node).slots := by
  obtain ⟨-, -, log, indexed⟩ := sound.ready
  rw [@slots_eq limits (begin limits id node) log indexed]
  unfold begin
  dsimp only
  rw [indexed.mask, Nat.and_two_pow_sub_one_eq_mod]

theorem begin_gone {node : Node} (sound : node.Sound limits) : (begin limits id node).gone id = 0 := by
  have home := @ahead_add (begin limits id node).slots id 0 (slots_pos _)
  unfold gone
  rw [begin_slot sound]
  rwa [Nat.add_zero] at home

theorem begin_onWay {node : Node} (sound : node.Sound limits) : OnWay limits id (begin limits id node) := by
  obtain ⟨sound', -, log, indexed⟩ := sound.ready
  have some_ := Nat.two_pow_pos log
  refine ⟨sound', ⟨log, indexed⟩, ?_, ?_⟩
  · rw [begin_slot sound]
    exact Nat.mod_lt _ (slots_pos _)
  · obtain ⟨free, within, none_⟩ := indexed.holds.free indexed.room
    rw [begin_gone sound, @slots_eq limits (begin limits id node) log indexed]
    refine ⟨ahead (2 ^ log) id free, ahead_lt some_ _ _, Nat.zero_le _, ?_⟩
    rw [add_ahead within]
    exact none_

/-- At a free slot the walk has everything of the id behind it. -/
theorem OnWay.ended (way : OnWay limits id walking) (free : walking.node.index walking.slot = none) {endpoint : Endpoint}
    (same : endpoint.id = id) : ¬ walking.LiesPast id (walking.gone id) endpoint := by
  rintro ⟨j, within, past, there⟩
  have before : j < walking.gone id := by
    apply @Holds.before_free Endpoint walking.slots (fun endpoint => endpoint.id) walking.node.index walking.node.endpoints
      way.holds endpoint j (walking.gone id) within
    · rw [same]
      exact there
    · rw [same, way.place]
      exact free
  omega

theorem OnWay.onlyHere (way : OnWay limits id walking) {endpoint : Endpoint} {j : Nat} (within : j < walking.slots)
    (here : walking.node.index walking.slot = some endpoint)
    (there : walking.node.index ((id + j) % walking.slots) = some endpoint) : j = walking.gone id := by
  have same := way.holds.once _ (Nat.mod_lt _ walking.slots_pos) _ way.within endpoint there here
  unfold gone
  rw [← same, ahead_add within]

/-- Past the slot the walk is at lies what lies from it on, but for the endpoint there. -/
theorem OnWay.liesPast_succ (way : OnWay limits id walking) {here endpoint : Endpoint}
    (there : walking.node.index walking.slot = some here) :
    walking.LiesPast id (walking.gone id + 1) endpoint ↔ walking.LiesPast id (walking.gone id) endpoint ∧ endpoint ≠ here := by
  constructor
  · rintro ⟨j, within, past, at_⟩
    refine ⟨⟨j, within, by omega, at_⟩, ?_⟩
    rintro rfl
    have := way.onlyHere within there at_
    omega
  · rintro ⟨⟨j, within, past, at_⟩, differ⟩
    refine ⟨j, within, ?_, at_⟩
    by_contra notPast
    have same : j = walking.gone id := by omega
    rw [same, way.place, there] at at_
    exact differ (Option.some_injective _ at_).symm

/-- A round that leaves the endpoints as they are goes one slot on. -/
theorem OnWay.pass (way : OnWay limits id walking) {here : Endpoint} (there : walking.node.index walking.slot = some here)
    (unchanged : (walking.visit limits kind id script here).node = walking.node) :
    (walking.round limits kind id script here).node = walking.node ∧
      (walking.round limits kind id script here).gone id = walking.gone id + 1 ∧
      OnWay limits id (walking.round limits kind id script here) := by
  obtain ⟨log, indexed⟩ := way.indexed
  have ready : walking.node.endpointIndexReady limits = walking.node := by
    unfold Node.endpointIndexReady
    rw [if_neg]
    rw [indexed.mask]
    have := Nat.pow_le_pow_right (show 0 < 2 by decide) indexed.two
    omega
  have slots := slots_eq indexed
  have node : (walking.round limits kind id script here).node = walking.node := by
    unfold round
    dsimp only
    rw [unchanged, ready]
  have slots' : (walking.round limits kind id script here).slots = walking.slots := by
    unfold Walking.slots
    rw [node]
  have slot : (walking.round limits kind id script here).slot = (id + (walking.gone id + 1)) % walking.slots := by
    rw [← succ_mod, way.place, slots]
    unfold round
    dsimp only
    rw [unchanged, ready, indexed.mask, Nat.and_two_pow_sub_one_eq_mod]
  obtain ⟨j, within, past, free⟩ := way.free
  have notHere : j ≠ walking.gone id := by
    rintro rfl
    rw [way.place, there] at free
    exact absurd free (by simp)
  have gone : (walking.round limits kind id script here).gone id = walking.gone id + 1 := by
    unfold Walking.gone
    rw [slot, slots']
    exact ahead_add (by omega)
  refine ⟨node, gone, ?_, ?_, ?_, ?_⟩
  · rw [node]
    exact way.sound
  · rw [node]
    exact ⟨log, indexed⟩
  · rw [slot, slots']
    exact Nat.mod_lt _ walking.slots_pos
  · rw [gone, slots', node]
    exact ⟨j, within, by omega, free⟩

theorem visit_other (walking : Walking) {here : Endpoint} (other : isMatch kind id here = false) :
    walking.visit limits kind id script here = walking := by
  unfold visit
  rw [other, if_neg Bool.false_ne_true]

theorem round_visited (walking : Walking) (here : Endpoint) :
    (walking.round limits kind id script here).visited =
      if isMatch kind id here then walking.visited ++ [here] else walking.visited := by
  unfold Walking.round visit
  split
  · rfl
  · rfl

/-- A steady visit keeps the walk on its way. -/
theorem OnWay.visits (way : OnWay limits id walking) {here : Endpoint} (found : isMatch kind id here = true)
    (steady : Steady limits kind id script walking here) : OnWay limits id (walking.round limits kind id script here) := by
  have changed : (walking.visit limits kind id script here).node =
      walking.node.changes limits (script walking.visited.length) := by
    unfold visit
    rw [if_pos found]
  have sound : (walking.visit limits kind id script here).node.Sound limits := by
    rw [changed]
    exact way.sound.changes _
  obtain ⟨sound', -, log, indexed⟩ := sound.ready
  have some_ := Nat.two_pow_pos log
  refine ⟨sound', ⟨log, indexed⟩, ?_, steady.free⟩
  unfold slots round
  dsimp only
  rw [indexed.mask, Nat.and_two_pow_sub_one_eq_mod]
  have whole : 2 ^ log - 1 + 1 = 2 ^ log := by omega
  rw [whole]
  exact Nat.mod_lt _ some_

/-- A round keeps the count of an endpoint that stays. -/
theorem Counted.round (way : OnWay limits id walking) {here endpoint : Endpoint}
    (there : walking.node.index walking.slot = some here) (mem : endpoint ∈ walking.node.endpoints)
    (matches_ : isMatch kind id endpoint = true)
    (kept : isMatch kind id here = true → Node.Change.remove endpoint.ref ∉ script walking.visited.length)
    (steady : isMatch kind id here = true → Steady limits kind id script walking here) (counted : Counted id walking endpoint) :
    Counted id (walking.round limits kind id script here) endpoint := by
  by_cases found : isMatch kind id here = true
  · have sides := (steady found).sides endpoint mem matches_ (kept found)
    rw [way.liesPast_succ there] at sides
    unfold Counted
    rw [round_visited, if_pos found, List.count_append, ← sides]
    by_cases same : endpoint = here
    · subst same
      rw [List.count_singleton_self]
      have lies : walking.LiesPast id (walking.gone id) endpoint := by
        refine ⟨walking.gone id, ahead_lt walking.slots_pos _ _, Nat.le_refl _, ?_⟩
        rw [way.place]
        exact there
      rcases counted with ⟨zero, -⟩ | ⟨-, behind⟩
      · exact .inr ⟨by omega, fun ⟨_, differ⟩ => differ rfl⟩
      · exact absurd lies behind
    · have none_ : List.count endpoint [here] = 0 := List.count_eq_zero.mpr (by simpa using same)
      rw [none_, Nat.add_zero]
      rcases counted with ⟨zero, lies⟩ | ⟨one, behind⟩
      · exact .inl ⟨zero, lies, same⟩
      · exact .inr ⟨one, fun ⟨lies, _⟩ => behind lies⟩
  · rw [Bool.not_eq_true] at found
    obtain ⟨node, gone, -⟩ := way.pass there (congrArg Walking.node (walking.visit_other found))
    have differ : endpoint ≠ here := by
      rintro rfl
      rw [matches_] at found
      exact absurd found (by simp)
    have lies : (walking.round limits kind id script here).LiesPast id (walking.gone id + 1) endpoint ↔
        walking.LiesPast id (walking.gone id) endpoint := by
      have same : (walking.round limits kind id script here).LiesPast id (walking.gone id + 1) endpoint ↔
          walking.LiesPast id (walking.gone id + 1) endpoint := by
        unfold LiesPast slots
        rw [node]
      rw [same, way.liesPast_succ there]
      exact and_iff_left differ
    unfold Counted
    rw [round_visited, found, if_neg Bool.false_ne_true, gone, lies]
    exact counted

/-! ## A whole walk -/

theorem walk_visited (rounds : Nat) (walking : Walking) {ended : Walking}
    (ends : walk limits kind id script rounds walking = some ended) : walking.visited <+: ended.visited := by
  induction rounds generalizing walking with
  | zero => exact absurd ends (by simp [walk])
  | succ rounds ih =>
    unfold walk at ends
    split at ends
    · rw [← Option.some_injective _ ends]
    · next here _ =>
      have rest := ih _ ends
      rw [round_visited] at rest
      split at rest
      · exact (List.prefix_append _ _).trans rest
      · exact rest

/-- An endpoint that the callbacks of a visit do not destroy is there after it. -/
theorem OnWay.mem_round (way : OnWay limits id walking) {here endpoint : Endpoint} (mem : endpoint ∈ walking.node.endpoints)
    (kept : isMatch kind id here = true → Node.Change.remove endpoint.ref ∉ script walking.visited.length) :
    endpoint ∈ (walking.round limits kind id script here).node.endpoints := by
  by_cases found : isMatch kind id here = true
  · have changed : (walking.visit limits kind id script here).node =
        walking.node.changes limits (script walking.visited.length) := by
      unfold visit
      rw [if_pos found]
    have same := (way.sound.changes (script walking.visited.length)).ready.2.1
    unfold Walking.round
    dsimp only
    rw [changed, same]
    exact Node.mem_changes mem (kept found)
  · unfold Walking.round
    dsimp only
    rw [walking.visit_other (by simpa using found), way.sound.ready.2.1]
    exact mem

/-- A steady walk ends, with every endpoint that stayed visited once. -/
theorem walk_spec (rounds : Nat) (way : OnWay limits id walking) (steady : SteadyWalk limits kind id script rounds walking)
    (enough : limits.indexSize < rounds + walking.gone id) :
    ∃ ended, walk limits kind id script rounds walking = some ended ∧
      ∀ endpoint ∈ walking.node.endpoints, isMatch kind id endpoint = true → Counted id walking endpoint →
        (∀ i, walking.visited.length ≤ i → i < ended.visited.length → Node.Change.remove endpoint.ref ∉ script i) →
          ended.visited.count endpoint = 1 := by
  induction rounds generalizing walking with
  | zero =>
    have near := ahead_lt walking.slots_pos id walking.slot
    have small := way.small
    unfold gone at enough
    omega
  | succ rounds ih =>
    unfold SteadyWalk at steady
    unfold walk
    split at steady
    · next free =>
      refine ⟨walking, rfl, ?_⟩
      intro endpoint _ found counted _
      have same : endpoint.id = id := by
        unfold isMatch at found
        rw [decide_eq_true_eq] at found
        exact found.2
      rcases counted with ⟨-, lies⟩ | ⟨one, -⟩
      · exact absurd lies (way.ended free same)
      · exact one
    · next here there =>
      have next : OnWay limits id (walking.round limits kind id script here) ∧
          walking.gone id < (walking.round limits kind id script here).gone id := by
        by_cases found : isMatch kind id here = true
        · exact ⟨way.visits found (steady.1 found), (steady.1 found).further⟩
        · have other : isMatch kind id here = false := by simpa using found
          obtain ⟨-, gone, onWay⟩ := @OnWay.pass limits kind id script walking way here there
            (congrArg Walking.node (walking.visit_other other))
          exact ⟨onWay, by omega⟩
      obtain ⟨ended, ends, all⟩ := ih next.1 steady.2 (by omega)
      refine ⟨ended, ends, ?_⟩
      intro endpoint mem found counted stays
      have grown := (walk_visited rounds _ ends).length_le
      rw [round_visited] at grown
      have kept : isMatch kind id here = true → Node.Change.remove endpoint.ref ∉ script walking.visited.length := by
        intro visits
        apply stays _ (Nat.le_refl _)
        rw [if_pos visits, List.length_append, List.length_singleton] at grown
        omega
      apply all endpoint (way.mem_round mem kept) found (counted.round way there mem found kept steady.1)
      intro i past before
      apply stays i _ before
      rw [round_visited] at past
      split at past
      · rw [List.length_append] at past
        omega
      · exact past

theorem OnWay.steady_quiet (way : OnWay limits id walking) {here : Endpoint}
    (there : walking.node.index walking.slot = some here) (quiet : script walking.visited.length = []) :
    Steady limits kind id script walking here := by
  have unchanged : (walking.visit limits kind id script here).node = walking.node := by
    unfold visit
    split
    · rw [quiet]
      rfl
    · rfl
  obtain ⟨node, gone, next⟩ := way.pass there unchanged
  refine ⟨by omega, ?_, next.free⟩
  intro other _ _ _
  rw [gone]
  unfold LiesPast slots
  rw [node]

/-- A walk whose callbacks leave the endpoints alone is steady. -/
theorem OnWay.steadyWalk_quiet (way : OnWay limits id walking) (quiet : ∀ i, script i = []) (rounds : Nat) :
    SteadyWalk limits kind id script rounds walking := by
  induction rounds generalizing walking with
  | zero => trivial
  | succ rounds ih =>
    unfold SteadyWalk
    split
    · trivial
    · next here there =>
      have steady := @OnWay.steady_quiet limits kind id script walking way here there (quiet _)
      refine ⟨fun _ => steady, ih ?_⟩
      by_cases found : isMatch kind id here = true
      · exact way.visits found steady
      · exact (way.pass there (congrArg Walking.node (walking.visit_other (by simpa using found)))).2.2

theorem defaultLimits_minSlots : 4 ≤ 9 := by decide

theorem defaultLimits_two : 1 ≤ 4 := by decide

theorem defaultLimits_indexSize : 256 < 2 ^ 9 := by decide

/-- The defaults of the build. -/
def defaultLimits : Limits := ⟨256, 4, 9, defaultLimits_minSlots, defaultLimits_two, defaultLimits_indexSize⟩

/-- Two Subscribers of topic 7. -/
def twoSubscribers : List Node.Change := [.add 1 33 7 true, .add 2 33 7 true]

/-- The callback of the first one destroys it. -/
def destroysItself (visit : Nat) : List Node.Change := if visit = 0 then [.remove 1] else []

theorem destroysItself_visited : (walk defaultLimits 33 7 destroysItself 513
    (begin defaultLimits 7 ((Node.start 100).changes defaultLimits twoSubscribers))).map Walking.visited =
      some [⟨1, 33, 7, 100⟩] := by
  decide +kernel

end Walking

end Endpoints

end Tickle
