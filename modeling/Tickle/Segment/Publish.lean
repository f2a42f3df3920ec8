import Tickle.Segment.Delivered

/-! # Claims are read as they are published

A writer may hold several slots at once, publish them in any order, in place or by reference, and write records in between. A claim it
publishes ends in one of two ways: handed over, after everything the writer handed over before, or dropped for want of a slot for its
reference. What is handed over is read in that order.
-/

namespace Tickle

namespace Segment

/-- The claim a writer is about to hand over. -/
def Task.hands {δ : Type} : Task δ → Option Nat
  | .refer j => some j
  | _ => none

def WriterPc.hands {δ : Type} : WriterPc δ → Option Nat
  | .load t => t.hands
  | .range t _ => t.hands
  | .check t _ => t.hands
  | .exchange t _ => t.hands
  | .mark t _ _ => t.hands
  | .skip t _ => t.hands
  | .won t _ => t.hands
  | .filled t _ => t.hands
  | .inPlace j => some j
  | .publish j => some j
  | _ => none

namespace Ring

open Function

variable {δ : Type} {g : Geometry} {s s' : Ring δ} {v w c j : Nat} {d : δ} {event : RingEvent δ}

theorem hands_refer {t : Task δ} (hands : t.hands = some j) : t = .refer j := by
  cases t with
  | refer i =>
    cases hands
    rfl
  | record | lend => cases hands

/-- The claim being handed over is its writer's alone. -/
theorem Owned.hands (h : s.Owned g) (hands : (s.writers w).pc.hands = some j) : s.Mine g w (.refer j) := by
  have fits := h.writer w
  cases pc : (s.writers w).pc with
  | load t =>
    rw [pc] at fits hands
    rw [← hands_refer hands]
    exact fits
  | range t c | check t c | exchange t c | mark t c n | skip t c | won t c | filled t c =>
    rw [pc] at fits hands
    rw [← hands_refer hands]
    exact fits.1
  | inPlace i | publish i =>
    rw [pc] at fits hands
    cases hands
    exact fits
  | idle | giveBack =>
    rw [pc] at hands
    cases hands

/-! ## What a step adds to the history -/

theorem Effect.prefix_log (h : Effect g s s' v) (w : Nat) : s.log w <+: s'.log w := by
  rcases h.history with still | ⟨b, e, hands⟩
  · rw [still.log]
  · rw [hands.log]
    by_cases own : w = v
    · rw [own, update_self]
      exact List.prefix_append _ _
    · rw [update_of_ne own]

theorem Effect.prefix_dropped (h : Effect g s s' v) : s.dropped <+: s'.dropped := by
  rcases h.history with still | ⟨b, e, hands⟩
  · exact still.dropped
  · rw [hands.dropped]

/-- What is handed over stays so. -/
theorem Effect.handed (h : Effect g s s' v) (before : s.Recorded g) (after : s'.Recorded g) (given : s.handed c = some (w, d)) :
    s'.handed c = some (w, d) := by
  have mem := (before.named w c).mpr ⟨d, given⟩
  rcases h.history with still | ⟨b, e, hands⟩
  · rw [still.handed]
    exact given
  · by_cases here : b = c
    · subst here
      obtain ⟨e', named⟩ := (after.named w b).mp ((h.prefix_log w).subset mem)
      rw [hands.handed, update_self] at named
      cases named
      have ordered := after.ordered v
      rw [hands.log, update_self, List.pairwise_append] at ordered
      exact absurd (ordered.2.2 b mem b (by simp)) (Nat.lt_irrefl b)
    · rw [hands.handed, update_of_ne (Ne.symm here)]
      exact given

/-! ## A claim that is published -/

/-- Nobody writes the slot of a claim that is being handed over. -/
theorem Effect.spares (h : Effect g s s' v) (owned : s.Owned g) (returned : s.Returned g w j) :
    s'.cell (g.pos j) = s.cell (g.pos j) := by
  obtain ⟨who, back⟩ := returned
  rcases h.cell with same | ⟨c, x, changed, at_⟩
  · rw [same]
  · rw [changed]
    apply update_of_ne
    intro here
    rw [here] at who
    rcases at_ with ⟨t, pc⟩ | mem
    · have fits := owned.writer v
      rw [pc] at fits
      rw [fits.2.2.1] at who
      cases who
    · rw [owned.claims v c mem] at who
      cases who
      exact back mem

/-- A writer handing a claim over goes on with it, hands it over, or drops it. -/
theorem writerStep_hands (spurious : Bool) (hands : (s.writers w).pc.hands = some j) (full : s.cell (g.pos j) = .datagram d) :
    ((s.writerStep g w spurious).writers w).pc.hands = some j ∧ Still s (s.writerStep g w spurious) ∨
      (∃ c, HandsOver s (s.writerStep g w spurious) w c d) ∨ (s.writerStep g w spurious).dropped = s.dropped ++ [(w, j)] := by
  have refuse : ∀ t : Task δ, t.hands = some j → (s.refuse w t).dropped = s.dropped ++ [(w, j)] := by
    intro t hands
    rw [hands_refer hands]
    rfl
  have goOn : ∀ (s₀ : Ring δ) (pc : WriterPc δ), pc.hands = some j → s₀.log = s.log → s₀.handed = s.handed → s₀.dropped = s.dropped →
      ((s₀.setPc w pc).writers w).pc.hands = some j ∧ Still s (s₀.setPc w pc) := by
    intro s₀ pc same log handed dropped
    exact ⟨by rw [setPc_pc, same], log, handed, by change _ <+: s₀.dropped; rw [dropped]⟩
  cases pc : (s.writers w).pc with
  | idle | giveBack i =>
    rw [pc] at hands
    cases hands
  | load t =>
    rw [pc] at hands
    simp only [writerStep, pc]
    exact .inl (goOn _ _ hands rfl rfl rfl)
  | range t c =>
    rw [pc] at hands
    simp only [writerStep, pc]
    split
    · exact .inr (.inr (refuse t hands))
    · exact .inl (goOn _ _ hands rfl rfl rfl)
  | check t c =>
    rw [pc] at hands
    simp only [writerStep, pc]
    split
    · exact .inl (goOn _ _ hands rfl rfl rfl)
    · split
      · exact .inl (goOn _ _ hands rfl rfl rfl)
      · split
        · exact .inl (goOn _ _ hands rfl rfl rfl)
        · exact .inr (.inr (refuse t hands))
  | exchange t c | mark t c n | skip t c =>
    rw [pc] at hands
    simp only [writerStep, pc]
    split
    · exact .inl (goOn _ _ hands rfl rfl rfl)
    · exact .inl (goOn _ _ hands rfl rfl rfl)
  | inPlace i =>
    rw [pc] at hands
    cases hands
    simp only [writerStep, pc]
    split
    · exact .inl (goOn _ _ rfl rfl rfl rfl)
    · exact .inl (goOn _ _ rfl rfl rfl rfl)
  | won t c =>
    rw [pc] at hands
    obtain rfl := hands_refer hands
    simp only [writerStep, pc]
    exact .inl (goOn _ _ rfl rfl rfl rfl)
  | filled t c =>
    rw [pc] at hands
    obtain rfl := hands_refer hands
    simp only [writerStep, pc]
    exact .inr (.inl ⟨c, handsOver_datagram rfl rfl rfl full⟩)
  | publish i =>
    rw [pc] at hands
    cases hands
    simp only [writerStep, pc]
    split
    · exact .inr (.inl ⟨j, handsOver_datagram rfl rfl rfl full⟩)
    · exact .inl (goOn _ _ rfl rfl rfl rfl)

theorem Effect.log_other (h : Effect g s s' v) (other : w ≠ v) : s'.log w = s.log w := by
  rcases h.history with still | ⟨b, e, hands⟩
  · rw [still.log]
  · rw [hands.log, update_of_ne other]

/-- A writer handing a claim over starts nothing else. -/
theorem start_busy (hands : (s.writers w).pc.hands = some j) (op : Op δ) : s.start g w op = s := by
  unfold start
  split
  all_goals first
    | rfl
    | simp_all [WriterPc.hands]

/-- The others' steps leave a writer where it is. -/
theorem step_waits (hands : (s.writers w).pc.hands = some j) (others : ∀ spurious, event ≠ .writer w spurious) :
    (s.step g event).writers w = s.writers w ∧ (s.step g event).log w = s.log w := by
  cases event with
  | start v op =>
    by_cases own : w = v
    · subst own
      change (s.start g w op).writers w = _ ∧ (s.start g w op).log w = _
      rw [start_busy hands op]
      exact ⟨rfl, rfl⟩
    · have effect := start_effect (g := g) (s := s) (v := v) op
      exact ⟨effect.others w own, effect.log_other own⟩
  | fill v i e =>
    simp only [step]
    split
    · exact ⟨rfl, rfl⟩
    · exact ⟨rfl, rfl⟩
  | writer v spurious =>
    have other : w ≠ v := by
      rintro rfl
      exact others spurious rfl
    have effect := writerStep_effect (g := g) (s := s) (w := v) spurious
    exact ⟨effect.others w other, effect.log_other other⟩
  | reader choice =>
    obtain ⟨writers, log, -⟩ := readerStep_rest (g := g) (s := s) choice
    exact ⟨congrFun writers w, congrFun log w⟩
  | release i =>
    simp only [step]
    split
    · exact ⟨rfl, rfl⟩
    · exact ⟨rfl, rfl⟩

variable (g) in
/-- What becomes of a claim `w` publishes in `s₀`, with `d` for its record: it is under way, handed over after all `w` handed over
before, or dropped for want of a slot for its reference. -/
inductive Publishes (s₀ : Ring δ) (w j : Nat) (d : δ) (s : Ring δ) : Prop
  | underWay (hands : (s.writers w).pc.hands = some j) (full : s.cell (g.pos j) = .datagram d) (log : s.log w = s₀.log w)
      (since : s₀.dropped <+: s.dropped)
  | handedOver (c : Nat) (log : s₀.log w ++ [c] <+: s.log w) (handed : s.handed c = some (w, d))
  | dropped (mem : (w, j) ∈ s.dropped.drop s₀.dropped.length)

theorem Publishes.step {s₀ : Ring δ} (h : Publishes g s₀ w j d s) (owned : s.Owned g) (before : s.Recorded g)
    (after : (s.step g event).Recorded g) : Publishes g s₀ w j d (s.step g event) := by
  obtain ⟨v, effect⟩ := step_effect (g := g) (s := s) event
  cases h with
  | underWay hands full log since =>
    have same : (s.step g event).cell (g.pos j) = .datagram d := (effect.spares owned (owned.hands hands).1).trans full
    by_cases own : ∃ spurious, event = .writer w spurious
    · obtain ⟨spurious, rfl⟩ := own
      rcases writerStep_hands spurious hands full with ⟨goesOn, still⟩ | ⟨c, over_⟩ | lost
      · exact .underWay goesOn same ((congrFun still.log w).trans log) (since.trans still.dropped)
      · refine .handedOver c ?_ ?_
        · rw [← log]
          change _ <+: (s.writerStep g w spurious).log w
          rw [over_.log, update_self]
        · change (s.writerStep g w spurious).handed c = _
          rw [over_.handed, update_self]
      · refine .dropped ?_
        change _ ∈ (s.writerStep g w spurious).dropped.drop _
        rw [lost, List.drop_append_of_le_length since.length_le]
        simp
    · push Not at own
      obtain ⟨writers, quiet⟩ := step_waits (g := g) hands own
      exact .underWay (by rw [writers]; exact hands) same (quiet.trans log) (since.trans effect.prefix_dropped)
  | handedOver c log handed => exact .handedOver c (log.trans (effect.prefix_log w)) (effect.handed before after handed)
  | dropped mem => exact .dropped ((effect.prefix_dropped.drop _).subset mem)

/-- What is read of a writer's is what it handed over, in its order. -/
theorem Recorded.read_in_order (h : s.Recorded g) (w : Nat) :
    (s.reads.filter (·.2.1 = w)).map (·.1) = (s.log w).filter (· < s.readTo) := by
  apply List.Pairwise.eq_of_mem_iff (r := (· < ·))
  · exact h.sorted.sublist (List.filter_sublist.map _)
  · exact (h.ordered w).sublist List.filter_sublist
  · intro c
    simp only [List.mem_map, List.mem_filter, decide_eq_true_eq]
    constructor
    · rintro ⟨x, ⟨mem, own⟩, rfl⟩
      subst own
      exact ⟨(h.named _ _).mpr ⟨_, h.same x mem⟩, h.before x mem⟩
    · rintro ⟨mem, due⟩
      obtain ⟨d, given⟩ := (h.named w c).mp mem
      exact ⟨(c, w, d), ⟨h.all c w d due given, rfl⟩, rfl⟩

/-- A slot is lent, a record is written. -/
def lentThenWritten : List (RingEvent Nat) := .start 0 .lend :: List.replicate 5 (.writer 0 false) ++ written 0 7

/-- The claim goes by reference; the reader passes its slot, and reads the record and the reference. -/
def byReference : List (RingEvent Nat) := List.replicate 7 (.writer 0 false) ++ List.replicate 12 (.reader .go)

end Ring

end Segment

end Tickle
