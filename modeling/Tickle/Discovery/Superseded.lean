import Tickle.Discovery.Liveliness

/-! # When a newer list is taken for an older one

`announce_superseded()` orders two lists of a context by their generations, 32 bits of the sender's
clock, for a second after acting on the first. The second is the newer by the sender's own count, so
it must not be dropped; whether it is depends on how far apart the two were made, not on when they
came.
-/

namespace Tickle

open Serial

namespace RemoteContext

/-- The list acted on last and when. -/
def acted (c : RemoteContext) : Bool × Generation × Nat :=
  (c.updateSeen, c.updateGeneration, c.updateApplied)

/-- The datagram completes its list. -/
def completes (c : RemoteContext) (now : Nat) (a : Announce) : Bool :=
  let c := c.heard now
  !c.ignores now a && a.broken.isNone && (c.receive now a).updatePartsComplete a.fragCount

/-- The event puts another list, or none, in the place of the one acted on. -/
def replaces (c : RemoteContext) : Event → Bool
  | .announce now a => (c.traffic now).completes now a
  | .presumeDead => true
  | _ => false

/-- The two differ in the table, its flags and the peers only. -/
def SameMarks (c c' : RemoteContext) : Prop :=
  c' = { c with
    manual := c'.manual
    lapsed := c'.lapsed
    entities := c'.entities
    publishers := c'.publishers
    clients := c'.clients }

namespace SameMarks

variable {c c' c'' : RemoteContext}

theorem refl (c : RemoteContext) : SameMarks c c := rfl

theorem trans (h : SameMarks c c') (h' : SameMarks c' c'') : SameMarks c c'' := by
  unfold SameMarks at *
  rw [h', h]

theorem acted (h : SameMarks c c') : c'.acted = c.acted := by
  unfold SameMarks at h
  rw [h]
  rfl

theorem foldl {β : Type} {f : RemoteContext → β → RemoteContext} (h : ∀ c x, SameMarks c (f c x))
    (l : List β) (c : RemoteContext) : SameMarks c (l.foldl f c) := by
  induction l generalizing c with
  | nil => exact refl c
  | cons x rest ih => exact (h c x).trans (ih (f c x))

end SameMarks

section Frame

variable (c : RemoteContext)

@[simp] theorem heard_acted (now : Nat) : (c.heard now).acted = c.acted := rfl

theorem refreshLivelinessFlags_sameMarks : SameMarks c c.refreshLivelinessFlags := rfl

theorem registerPeers_sameMarks (e : UpdateEntity) : SameMarks c (c.registerPeers e) := by
  unfold registerPeers
  split <;> rfl

theorem takeEntity_sameMarks (now : Nat) (e : UpdateEntity) : SameMarks c (c.takeEntity now e) :=
  (registerPeers_sameMarks c e).trans rfl

theorem decodeUpdateEntities_sameMarks (now : Nat) (a : Announce) :
    SameMarks c (c.decodeUpdateEntities now a) := by
  have taken := SameMarks.foldl (fun c e => takeEntity_sameMarks c now e) a.entities c
  unfold decodeUpdateEntities
  cases a.broken with
  | none => exact taken
  | some e => exact taken.trans (registerPeers_sameMarks _ e)

theorem absorb_sameMarks (now : Nat) (a : Announce) : SameMarks (c.beginList a) (c.absorb now a) :=
  (decodeUpdateEntities_sameMarks _ now a).trans (refreshLivelinessFlags_sameMarks _)

@[simp] theorem beginList_acted (a : Announce) : (c.beginList a).acted = c.acted := by
  unfold beginList
  split <;> rfl

@[simp] theorem absorb_acted (now : Nat) (a : Announce) : (c.absorb now a).acted = c.acted :=
  (absorb_sameMarks c now a).acted.trans (beginList_acted c a)

@[simp] theorem receive_acted (now : Nat) (a : Announce) : (c.receive now a).acted = c.acted :=
  absorb_acted c now a

theorem processAnnounce_acted_of_completes {now : Nat} {a : Announce}
    (h : c.completes now a = true) :
    (c.processAnnounce now a).acted = (true, a.generation, now) := by
  simp only [completes, Bool.and_eq_true, Bool.not_eq_true', Option.isNone_iff_eq_none] at h
  obtain ⟨⟨taken, whole⟩, done⟩ := h
  simp only [processAnnounce, taken, whole, done, Option.isSome_none, Bool.false_eq_true, if_false,
    if_true]
  rfl

theorem processAnnounce_acted_of_not_completes {now : Nat} {a : Announce}
    (h : c.completes now a = false) : (c.processAnnounce now a).acted = c.acted := by
  unfold processAnnounce
  dsimp only
  split
  · rfl
  · next taken =>
    split
    · simp
    · next whole =>
      split
      · next done =>
        simp only [Bool.not_eq_true, Option.isSome_eq_false_iff] at taken whole
        simp [completes, taken, whole, done] at h
      · simp

theorem traffic_sameMarks (now : Nat) :
    SameMarks { c with trafficLastSeen := now } (c.traffic now) := by
  unfold traffic reviveLapsedEntities
  dsimp only
  split
  · split <;> rfl
  · rfl

theorem traffic_acted (now : Nat) : (c.traffic now).acted = c.acted := (traffic_sameMarks c now).acted

theorem noteManualAssertion_sameMarks (now endpointId entityId : Nat) :
    SameMarks c (c.noteManualAssertion now endpointId entityId) := by
  unfold noteManualAssertion
  split
  · rfl
  · dsimp only
    split <;> rfl

theorem claimFromAcknack_sameMarks (slot entityId : Nat) (departed : Bool) :
    SameMarks c (c.claimFromAcknack slot entityId departed) := by
  unfold claimFromAcknack
  split
  · rfl
  · split
    · rfl
    · split
      · rfl
      · split <;> rfl

theorem checkEntityLease_sameMarks (now slot : Nat) : SameMarks c (c.checkEntityLease now slot) := by
  unfold checkEntityLease
  split
  · rfl
  · split
    · unfold lapseEntity
      dsimp only
      split
      · split <;> rfl
      · rfl
    · rfl

theorem checkEntityLeases_sameMarks (now : Nat) : SameMarks c (c.checkEntityLeases now) :=
  SameMarks.foldl (fun c slot => checkEntityLease_sameMarks c now slot) _ c

theorem reprocessKnownAnnounces_acted : c.reprocessKnownAnnounces.acted = c.acted := by
  unfold reprocessKnownAnnounces
  split <;> rfl

theorem step_acted {event : Event} (h : c.replaces event = false) :
    (c.step event).acted = c.acted := by
  cases event with
  | announce now a =>
    exact (processAnnounce_acted_of_not_completes _ h).trans (traffic_acted c now)
  | summary now => exact traffic_acted c now
  | data now asserts =>
    cases asserts with
    | none => exact traffic_acted c now
    | some writer => exact (noteManualAssertion_sameMarks ..).acted.trans (traffic_acted c now)
  | acknack now slot entityId departed =>
    exact (claimFromAcknack_sameMarks ..).acted.trans (traffic_acted c now)
  | checkLeases now => exact (checkEntityLeases_sameMarks c now).acted
  | presumeDead => simp [replaces] at h
  | createPublisher pub => exact reprocessKnownAnnounces_acted _
  | createClient client => exact reprocessKnownAnnounces_acted _
  | writerUnknown => rfl

end Frame

theorem run_acted {c : RemoteContext} {events : List Event}
    (h : Run.Sound step (fun c event => c.replaces event = false) c events) :
    (c.run events).acted = c.acted := by
  have kept : ∀ (d : RemoteContext) (event : Event), d.acted = c.acted → d.replaces event = false →
      (d.step event).acted = c.acted :=
    fun d event same quiet => (step_acted d quiet).trans same
  exact Run.keeps kept rfl h

/-- Two lists are within half the generations' turn, the second ahead, or a second has passed, or the
first is the list of a context never changed. Generation 0 is taken for that list whenever it comes. -/
def Ordered (first second applied now : Nat) : Prop :=
  generationOf first = 0 ∨ applied + announceReorderWindow ≤ now ∨
    (generationOf second ≠ 0 ∧ (second - first) % 2 ^ 32 < 2 ^ 31)

theorem seqDelta_generationOf {first second : Nat} (h : first ≤ second) :
    seqDelta (generationOf second) (generationOf first) < 0 ↔
      2 ^ 31 ≤ (second - first) % 2 ^ 32 := by
  rw [seqDelta_neg]
  unfold steps generationOf
  rw [BitVec.toNat_sub]
  simp only [BitVec.toNat_ofNat]
  omega

theorem announceSuperseded_iff {c : RemoteContext} {first second applied now : Nat}
    (acted : c.acted = (true, generationOf first, applied)) (later : first ≤ second)
    (after : applied ≤ now) :
    c.announceSuperseded now (generationOf second) = false ↔ Ordered first second applied now := by
  have seen : c.updateSeen = true := congrArg Prod.fst acted
  have generation : c.updateGeneration = generationOf first := congrArg (·.2.1) acted
  have since : c.updateApplied = applied := congrArg (·.2.2) acted
  have behind := seqDelta_generationOf later
  unfold announceSuperseded Ordered
  rw [seen, generation, since]
  by_cases unchanged : generationOf first = 0
  · simp [unchanged]
  · have window : ¬ now - applied < announceReorderWindow ↔ applied + announceReorderWindow ≤ now := by
      omega
    simp only [unchanged, Bool.not_true, Bool.false_or, decide_false, Bool.false_eq_true, if_false,
      Bool.and_eq_false_iff, Bool.or_eq_false_iff, decide_eq_false_iff_not, behind, window, not_le,
      false_or]
    exact or_comm

/-- From when the first list is acted on until another takes its place, the second, made later, is
not dropped as superseded exactly when the two are `Ordered`. -/
theorem newer_not_superseded_iff (c : RemoteContext) (a : Announce)
    (first second applied now : Nat) (made : a.generation = generationOf first)
    (later : first < second) (done : c.completes applied a = true) (events : List Event)
    (quiet : Run.Sound step (fun c event => c.replaces event = false) (c.processAnnounce applied a)
      events)
    (after : applied ≤ now) :
    ((c.processAnnounce applied a).run events).announceSuperseded now (generationOf second) = false ↔
      Ordered first second applied now := by
  apply announceSuperseded_iff _ (le_of_lt later) after
  rw [run_acted quiet, processAnnounce_acted_of_completes c done, made]

/-- A whole list with nothing in it. -/
def emptyList (lastModified : Nat) : Announce :=
  ⟨generationOf lastModified, 0, 1, 7400, [], none⟩

theorem newer_not_superseded_at_once :
    (((unknown [] []).processAnnounce 5 (emptyList 3)).run [.summary 6]).announceSuperseded 7
      (generationOf 4) = false ∧ Ordered 3 4 5 7 := by
  have ordered : Ordered 3 4 5 7 := .inr (.inr ⟨by decide, by decide⟩)
  refine ⟨?_, ordered⟩
  rw [newer_not_superseded_iff (unknown [] []) (emptyList 3) 3 4 5 7 rfl (by decide) (by decide +kernel)
    [.summary 6] ⟨rfl, trivial⟩ (by decide)]
  exact ordered

/-- A list made at 1 s and held up until 4 s; the next, made at 4 s, comes a tenth of a second later
and is dropped. -/
theorem newer_dropped_as_superseded :
    ((unknown [] []).processAnnounce 4000000000 (emptyList 1000000000)).announceSuperseded 4100000000
      (generationOf 4000000000) = true := by
  decide +kernel

end RemoteContext

end Tickle
