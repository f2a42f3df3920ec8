import Tickle.Segment.Refused

/-! # Every record once, in order

The reader's steps keep the history of the ring (`Recorded`), and so every run does in which no index comes round while a writer has it
loaded: each datagram published is read once, in the order of the indices, as it was published.
-/

namespace Tickle

namespace Segment

namespace Ring

open Function

variable {δ : Type} {g : Geometry} {s s' : Ring δ} {b m j w c i : Nat}

/-! ## The reader's steps -/

/-- The reader is not between giving a reference back and reading by it. -/
def Direct (pc : ReaderPc) : Prop := (∀ j, pc ≠ .refReleased j) ∧ ∀ j r, pc ≠ .referring j r

theorem Waits.inSlot (waits : s.Waits g i) (direct : Direct s.reader) : s.readIndex ≤ i ∧ s.sequence (g.pos i) = i + 1 := by
  rcases waits with here | ⟨⟨j, pc⟩, _⟩ | ⟨j, pc⟩
  · exact here
  · exact absurd pc (direct.1 j)
  · exact absurd pc (direct.2 j i)

theorem readTo_direct (direct : Direct s.reader) (still : s.reader ≠ .advance) : s.readTo = s.readIndex := by
  unfold readTo
  cases now : s.reader with
  | advance => exact absurd now still
  | referring j r => exact absurd now (direct.2 j r)
  | idle | looked sequence | passing | reading index | refReleased index | readingRef index => rfl

/-- The reader looks again, and reads nothing. -/
theorem Recorded.setReader (h : s.Recorded g) (direct : Direct s.reader) (still : s.reader ≠ .advance) (pc : ReaderPc)
    (direct' : Direct pc) (still' : pc ≠ .advance) : { s with reader := pc }.Recorded g := by
  have before := readTo_direct direct still
  have after : { s with reader := pc }.readTo = s.readIndex := readTo_direct direct' still'
  refine h.byReader rfl rfl rfl rfl (Nat.le_refl _) (fun _ who => ⟨who, rfl⟩) (fun _ _ _ who => who) ?_ ?_ (.inl ⟨rfl, ?_, ?_⟩)
  · exact fun i _ _ _ waits => .inl (waits.inSlot direct)
  · cases pc with
    | refReleased index => exact absurd rfl (direct'.1 index)
    | referring j r => exact absurd rfl (direct'.2 j r)
    | advance | idle | looked sequence | passing | reading index | readingRef index => trivial
  · rw [before, after]
  · intro i due earlier
    rw [before] at due
    rw [after] at earlier
    omega

/-- A slot that is not the head's keeps its sequence when the head is dealt with. -/
theorem Recorded.next_waits (owned : s.Owned g) (waits : s.readIndex ≤ i ∧ s.sequence (g.pos i) = i + 1)
    (head : s.owner (g.pos s.readIndex) ≠ .unread ∨ s.readIndex + 1 ≤ i ∧ s.sequence (g.pos s.readIndex) = s.readIndex + 1) :
    g.pos i ≠ g.pos s.readIndex := by
  intro there
  rcases head with other | ⟨later, value⟩
  · have unread := (owned.published waits.1 waits.2).1
    rw [there] at unread
    exact other unread
  · have one := waits.2
    rw [there, value] at one
    omega

/-- The reader is done with the slot of its head, which it gives back, or reads in place. -/
theorem Recorded.takesHead (h : s.Recorded g) (owned : s.Owned g) (direct : Direct s.reader) (due : s.readTo = s.readIndex)
    (value : s.sequence (g.pos s.readIndex) = s.readIndex + 1) (handed : s'.handed = s.handed) (log : s'.log = s.log)
    (writers : s'.writers = s.writers) (cell : s'.cell = s.cell) (write : s'.writeIndex = s.writeIndex)
    (next : s'.readTo = s.readIndex + 1) (ahead : s'.readIndex ≤ s.readIndex + 1)
    (owner : ∀ p, p ≠ g.pos s.readIndex → s'.owner p = s.owner p)
    (sequence : ∀ p, p ≠ g.pos s.readIndex → s'.sequence p = s.sequence p)
    (gone : s'.owner (g.pos s.readIndex) = .free ∨ s'.owner (g.pos s.readIndex) = .reading) (reader : s'.TakesUp g s'.reader)
    (new : s'.reads = s.reads ∧ s.handed s.readIndex = none ∨
      ∃ v d, s.handed s.readIndex = some (v, d) ∧ s'.reads = s.reads ++ [(s.readIndex, v, d)]) : s'.Recorded g := by
  have apart : ∀ p, s'.owner p ≠ .free → s'.owner p ≠ .reading → p ≠ g.pos s.readIndex := by
    rintro p free reading rfl
    rcases gone with here | here
    · exact free here
    · exact reading here
  refine h.byReader handed log writers cell write.ge ?_ ?_ ?_ reader ?_
  · intro p who
    have other := apart p (by simp [who]) (by simp [who])
    exact ⟨(owner p other).symm.trans who, sequence p other⟩
  · intro p v j who
    have other := apart p (by simp [who]) (by simp [who])
    exact (owner p other).symm.trans who
  · intro i _ later _ waits
    rw [next] at later
    have here := waits.inSlot direct
    have other := Recorded.next_waits owned here (.inr ⟨later, value⟩)
    exact .inl ⟨by omega, (sequence _ other).trans here.2⟩
  · rcases new with ⟨reads, nothing⟩ | ⟨v, d, given, reads⟩
    · refine .inl ⟨reads, by omega, ?_⟩
      intro i least most
      have here : i = s.readIndex := by omega
      rw [here]
      exact nothing
    · exact .inr ⟨v, d, by rw [due]; exact given, by rw [next, due], by rw [due]; exact reads⟩

theorem Recorded.looked (h : s.Recorded g) (owned : s.Owned g) (pc : s.reader = .looked i) (choice : Choice) :
    (s.readerStep g choice).Recorded g := by
  have direct : Direct s.reader := by simp [Direct, pc]
  have still : s.reader ≠ .advance := by simp [pc]
  have due := readTo_direct direct still
  have fits := owned.reader
  rw [pc] at fits
  obtain ⟨least, most, one, _⟩ := fits
  have four := g.four_le_slots
  have slots := g.slots_le
  have freed : (s.setSequence g s.readIndex (s.readIndex + g.slots) .free).owner (g.pos s.readIndex) = .free :=
    update_self _ _ _
  simp only [readerStep, pc]
  split
  · rename_i published
    rw [word_eq_iff (by omega) (by omega)] at published
    have value := one published
    obtain ⟨who, _, refs⟩ := owned.published (Nat.le_refl _) value
    have carries := h.carries _ who value
    unfold Carries at carries
    split
    · rename_i d full
      rw [full] at carries
      obtain ⟨v, given⟩ := carries
      have named : (s.handed s.readIndex).elim 0 (·.1) = v := by rw [given]; rfl
      rw [named]
      split
      · exact h.takesHead owned direct due value rfl rfl rfl rfl rfl rfl (Nat.le_succ _)
          (fun p other => update_of_ne other _ _) (fun p other => update_of_ne other _ _) (.inl freed) trivial
          (.inr ⟨v, d, given, rfl⟩)
      · exact h.takesHead owned direct due value rfl rfl rfl rfl rfl rfl (Nat.le_refl _)
          (fun p other => update_of_ne other _ _) (fun _ _ => rfl) (.inr (update_self _ _ _)) trivial
          (.inr ⟨v, d, given, rfl⟩)
    · rename_i j ref
      rw [ref] at carries
      obtain ⟨v, d, given, there⟩ := carries
      refine h.byReader rfl rfl rfl rfl (Nat.le_refl s.writeIndex) ?_ ?_ ?_ ⟨v, d, given, there⟩ (.inl ⟨rfl, due.le, ?_⟩)
      · intro p here
        obtain ⟨head, before⟩ := of_update (o := .free) here (by simp)
        exact ⟨(of_update before (by simp)).2, update_of_ne head _ _⟩
      · intro p v k here
        exact (of_update (of_update (o := .free) here (by simp)).2 (by simp)).2
      · intro k _ later _ waits
        have here := waits.inSlot direct
        by_cases head : k = s.readIndex
        · exact .inr (.inl ⟨⟨j, rfl⟩, head⟩)
        · have other := Recorded.next_waits owned here (.inr ⟨by omega, value⟩)
          exact .inl ⟨here.1, (update_of_ne other _ _).trans here.2⟩
      · intro k least most
        rw [due] at least
        exact absurd most (Nat.not_lt.mpr least)
    · rename_i bare own
      have nothing : s.handed s.readIndex = none := by
        split at carries
        · rename_i d full
          exact absurd full (bare d)
        · rename_i j ref
          exact absurd ref (own j)
        · exact carries
      split
      · exact h.setReader direct still .idle (by simp [Direct]) (by simp)
      · exact h.takesHead owned direct due value rfl rfl rfl rfl rfl rfl (Nat.le_succ _)
          (fun p other => update_of_ne other _ _) (fun p other => update_of_ne other _ _) (.inl freed) trivial
          (.inl ⟨rfl, nothing⟩)
  · split
    · rename_i _ held
      rw [word_eq_iff (by omega) (by omega)] at held
      split
      · rename_i same
        obtain ⟨near, far⟩ := owned.near s.readIndex
        have lower := owned.lower
        have upper := owned.upper
        rw [word_eq_iff (by omega) (by omega)] at same
        have marked := ((owned.state (same.trans held) (by omega)).marked (Nat.le_refl _)).2.2.1
        have owner : (s.setSequence g s.readIndex (s.readIndex + 3) (s.owner (g.pos s.readIndex))).owner = s.owner :=
          update_eq_self _ _
        have remarked : (s.setSequence g s.readIndex (s.readIndex + 3) (s.owner (g.pos s.readIndex))).Recorded g := by
          refine h.handsOn (w := 0) owned marked (fun p _ => congrFun owner p) (fun p other => update_of_ne other _ _)
            (fun _ => .inl rfl) ?_ ?_ rfl rfl rfl rfl rfl rfl (fun _ _ => rfl) (h.latest 0)
          · rw [owner]
            exact marked
          · intro v k _ here
            rw [owner] at here
            exact .inl here
        exact remarked.setReader direct still .passing (by simp [Direct]) (by simp)
      · exact h.setReader direct still _ (by simp [Direct]) (by simp)
    · split
      · exact h.setReader direct still _ (by simp [Direct]) (by simp)
      · exact h.setReader direct still _ (by simp [Direct]) (by simp)

theorem Recorded.passing (h : s.Recorded g) (owned : s.Owned g) (pc : s.reader = .passing) (choice : Choice) :
    (s.readerStep g choice).Recorded g := by
  have direct : Direct s.reader := by simp [Direct, pc]
  have due := readTo_direct direct (by simp [pc])
  have four := g.four_le_slots
  have passed := owned.reader
  rw [pc] at passed
  have unread : s.sequence (g.pos s.readIndex) ≠ s.readIndex + 1 := by
    rcases passed with three | given
    · omega
    · omega
  have nothing : s.handed s.readIndex = none := by
    by_contra given
    exact unread ((h.waiting _ given due.le).inSlot direct).2
  simp only [readerStep, pc]
  have write : s.writeIndex ≤ (if word s.writeIndex = word s.readIndex then s.writeIndex + 1 else s.writeIndex) := by
    split
    · omega
    · exact Nat.le_refl _
  refine h.byReader rfl rfl rfl rfl write (fun _ who => ⟨who, rfl⟩) (fun _ _ _ who => who) ?_ trivial (.inl ⟨rfl, ?_, ?_⟩)
  · exact fun i _ _ _ waits => .inl (waits.inSlot direct)
  · rw [due]
    exact Nat.le_succ _
  · intro i least most
    change i < s.readIndex + 1 at most
    have here : i = s.readIndex := by omega
    rw [here]
    exact nothing

theorem Recorded.advance (h : s.Recorded g) (pc : s.reader = .advance) (choice : Choice) :
    (s.readerStep g choice).Recorded g := by
  have direct : Direct s.reader := by simp [Direct, pc]
  have due : s.readTo = s.readIndex + 1 := by
    unfold readTo
    rw [pc]
  simp only [readerStep, pc]
  refine h.byReader rfl rfl rfl rfl (Nat.le_refl s.writeIndex) (fun _ who => ⟨who, rfl⟩) (fun _ _ _ who => who) ?_ trivial
    (.inl ⟨rfl, due.le, ?_⟩)
  · exact fun i _ later _ waits => .inl ⟨later, (waits.inSlot direct).2⟩
  · intro i least most
    rw [due] at least
    exact absurd most (Nat.not_lt.mpr least)

theorem Recorded.reading (h : s.Recorded g) (owned : s.Owned g) (pc : s.reader = .reading b) (choice : Choice) :
    (s.readerStep g choice).Recorded g := by
  have direct : Direct s.reader := by simp [Direct, pc]
  have still : s.reader ≠ .advance := by simp [pc]
  have fits := owned.reader
  rw [pc] at fits
  have who : s.owner (g.pos b) ≠ .unread := by simp [fits.2.1]
  simp only [readerStep, pc]
  split
  · have changed : { s.setSequence g b (b + 2) (.kept b) with retained := b :: s.retained }.Recorded g :=
      h.givesTo (w := 0) owned who (by simp) (by simp) rfl (fun p other => update_of_ne other _ _) rfl rfl rfl rfl rfl rfl rfl
        (fun _ _ => rfl) (h.latest 0)
    exact changed.setReader direct still .idle (by simp [Direct]) (by simp)
  · have changed : (s.setSequence g b (b + g.slots) .free).Recorded g :=
      h.givesTo (w := 0) owned who (by simp) (by simp) rfl (fun p other => update_of_ne other _ _) rfl rfl rfl rfl rfl rfl rfl
        (fun _ _ => rfl) (h.latest 0)
    exact changed.setReader direct still .idle (by simp [Direct]) (by simp)

theorem Recorded.refReleased (h : s.Recorded g) (pc : s.reader = .refReleased j) (choice : Choice) :
    (s.readerStep g choice).Recorded g := by
  have due : s.readTo = s.readIndex := by
    unfold readTo
    rw [pc]
  have takesUp := h.reader
  rw [pc] at takesUp
  simp only [readerStep, pc]
  refine h.byReader rfl rfl rfl rfl (Nat.le_refl s.writeIndex) (fun _ who => ⟨who, rfl⟩) (fun _ _ _ who => who) ?_ takesUp
    (.inl ⟨rfl, due.le, ?_⟩)
  · intro i _ later _ waits
    by_cases head : i = s.readIndex
    · exact .inr (.inr ⟨j, by rw [head]⟩)
    · rcases waits with ⟨least, value⟩ | ⟨_, here⟩ | ⟨k, here⟩
      · exact .inl ⟨by change s.readIndex + 1 ≤ i; omega, value⟩
      · exact absurd here head
      · rw [pc] at here
        cases here
  · intro i least most
    rw [due] at least
    exact absurd most (Nat.not_lt.mpr least)

/-- A reference in the ring is never refused: its claim is held, marked at or after the claim, and within half the indices. -/
theorem Owned.ref_valid (owned : s.Owned g) {r : Nat} (pc : s.reader = .referring j r) :
    (seqHeldSince g (s.sequence (g.pos j)) j && (word (s.sequence (g.pos j)) - word j).toNat < 2 ^ 31 &&
      (word r - word j - 1).toNat < 2 ^ 31 && !(s.retained.any fun kept => word kept = word j)) = true := by
  have fits := owned.reader
  rw [pc] at fits
  obtain ⟨head, who, behind, near⟩ := fits
  obtain ⟨b, m, value, held⟩ := owned.held (.inl who)
  have four := g.four_le_slots
  have upper := owned.upper
  have after := held.after
  have most := held.upper
  have phase := held.phase
  have mark : (word (b + m) - word j).toNat % g.slots = m := Geometry.sub_mod_of_pos held.same held.after (by omega)
  have since : (word (b + m) - word j).toNat = b + m - j := sub_word_of_le (by omega) (by omega)
  have later : word r - word j - 1 = word r - word (j + 1) := by
    have one : word (j + 1) = word j + 1 := (word_add j 1).symm
    rw [one, sub_sub]
  have apart : (word r - word (j + 1)).toNat = r - (j + 1) := sub_word_of_le (by omega) (by omega)
  simp only [Bool.and_eq_true, decide_eq_true_eq, Bool.not_eq_true', List.any_eq_false]
  refine ⟨⟨⟨?_, ?_⟩, ?_⟩, ?_⟩
  · unfold seqHeldSince
    rw [value, mark]
    rcases phase with rfl | rfl
    · rfl
    · rfl
  · rw [value, since]
    omega
  · rw [later, apart]
    omega
  · intro k mem same
    have kept := owned.retained k mem
    rw [Geometry.pos_of_word same, who] at kept
    cases kept

theorem Recorded.referring (h : s.Recorded g) (owned : s.Owned g) {r : Nat} (pc : s.reader = .referring j r) (choice : Choice) :
    (s.readerStep g choice).Recorded g := by
  have due : s.readTo = r := by
    unfold readTo
    rw [pc]
  have fits := owned.reader
  rw [pc] at fits
  have takesUp := h.reader
  rw [pc] at takesUp
  obtain ⟨v, d, given, full⟩ := takesUp
  have named : (s.handed r).elim 0 (·.1) = v := by rw [given]; rfl
  simp only [readerStep, pc]
  rw [if_pos (owned.ref_valid pc), full]
  dsimp only
  rw [named]
  refine h.byReader rfl rfl rfl rfl (Nat.le_refl s.writeIndex) (fun _ who => ⟨who, rfl⟩) (fun _ _ _ who => who) ?_ trivial
    (.inr ⟨v, d, by rw [due]; exact given, ?_, by rw [due]⟩)
  · intro i _ later _ waits
    have next : r + 1 ≤ i := by
      rw [fits.1]
      exact later
    rcases waits with here | ⟨⟨k, here⟩, _⟩ | ⟨k, here⟩
    · exact .inl here
    · rw [pc] at here
      cases here
    · rw [pc] at here
      cases here
      omega
  · rw [due]
    exact fits.1.symm

theorem Recorded.readingRef (h : s.Recorded g) (owned : s.Owned g) (pc : s.reader = .readingRef j) (choice : Choice) :
    (s.readerStep g choice).Recorded g := by
  have direct : Direct s.reader := by simp [Direct, pc]
  have still : s.reader ≠ .advance := by simp [pc]
  have who := owned.reader
  rw [pc] at who
  have busy : s.owner (g.pos j) ≠ .unread := by simp [show s.owner (g.pos j) = .referring j from who]
  simp only [readerStep, pc]
  split
  · have changed : { s with
        owner := update s.owner (g.pos j) (.kept j)
        retained := j :: s.retained }.Recorded g :=
      h.givesTo (w := 0) owned busy (by simp) (by simp) rfl (fun _ _ => rfl) rfl rfl rfl rfl rfl rfl rfl (fun _ _ => rfl) (h.latest 0)
    exact changed.setReader direct still .idle (by simp [Direct]) (by simp)
  · obtain ⟨b, m, value, held⟩ := owned.held (.inl who)
    rw [unhold_eq value held]
    have changed : (s.setSequence g j (b + g.slots) .free).Recorded g :=
      h.givesTo (w := 0) owned busy (by simp) (by simp) rfl (fun p other => update_of_ne other _ _) rfl rfl rfl rfl rfl rfl rfl
        (fun _ _ => rfl) (h.latest 0)
    exact changed.setReader direct still .idle (by simp [Direct]) (by simp)

theorem Recorded.readerStep (h : s.Recorded g) (owned : s.Owned g) (choice : Choice) : (s.readerStep g choice).Recorded g := by
  cases pc : s.reader with
  | idle =>
    simp only [Ring.readerStep, pc]
    exact h.setReader (by simp [Direct, pc]) (by simp [pc]) _ (by simp [Direct]) (by simp)
  | looked sequence => exact h.looked owned pc choice
  | passing => exact h.passing owned pc choice
  | advance => exact h.advance pc choice
  | reading index => exact h.reading owned pc choice
  | refReleased index => exact h.refReleased pc choice
  | referring index ref => exact h.referring owned pc choice
  | readingRef index => exact h.readingRef owned pc choice

theorem Recorded.step (h : s.Recorded g) (owned : s.Owned g) (event : RingEvent δ) (timely : s.Timely g event) :
    (s.step g event).Recorded g := by
  cases event with
  | start w op => exact h.start owned op
  | fill w index d =>
    simp only [Ring.step]
    split
    · exact h.fill owned ‹_› d
    · exact h
  | writer w spurious => exact h.writerStep owned timely
  | reader choice => exact h.readerStep owned choice
  | release index =>
    simp only [Ring.step]
    split
    · exact h.release owned ‹_›
    · exact h

/-! ## Every run -/

theorem recorded_after {events : List (RingEvent δ)} (timely : Run.Sound (step g) (Timely g) create events) :
    (Run.after (step g) create events).Recorded g := by
  have kept := @Run.keeps _ _ (step g) (Timely g) (fun s => s.Owned g ∧ s.Recorded g)
    (fun s event h timely => ⟨h.1.step event timely, h.2.step h.1 event timely⟩) create events ⟨create_owned, create_recorded⟩ timely
  exact kept.2

/-- A writer has claimed the slot of `c` and not published it. -/
def Fills (s : Ring δ) (w c : Nat) : Prop := ∃ t, (s.writers w).pc = .won t c ∨ (s.writers w).pc = .filled t c

variable (g) in
/-- The slot has a record that is unread, or that a reference not read yet names; it is being read, kept by the reader's application or
lent to a writer's. -/
inductive InUse (s : Ring δ) : Nat → Prop
  | unread (i : Nat) (ahead : s.readIndex ≤ i) (published : s.sequence (g.pos i) = i + 1) : InUse s (g.pos i)
  | named (i j : Nat) (ahead : s.readIndex ≤ i) (published : s.sequence (g.pos i) = i + 1) (ref : s.cell (g.pos i) = .ref j) :
      InUse s (g.pos j)
  | reading (b : Nat) (pc : s.reader = .reading b) : InUse s (g.pos b)
  | refReleased (j : Nat) (pc : s.reader = .refReleased j) : InUse s (g.pos j)
  | referring (j r : Nat) (pc : s.reader = .referring j r) : InUse s (g.pos j)
  | readingRef (j : Nat) (pc : s.reader = .readingRef j) : InUse s (g.pos j)
  | kept (j : Nat) (mem : j ∈ s.retained) : InUse s (g.pos j)
  | lent (w j : Nat) (mem : j ∈ (s.writers w).claims) : InUse s (g.pos j)

variable (g) in
/-- What was handed over at `i` lies there, or where the reference there says. -/
def Holds (s : Ring δ) (i : Nat) (d : δ) : Prop :=
  s.cell (g.pos i) = .datagram d ∨ ∃ j, s.cell (g.pos i) = .ref j ∧ s.cell (g.pos j) = .datagram d

variable (g) in
/-- The ring delivers each record exactly once. -/
structure ExactlyOnce (s : Ring δ) : Prop where
  lower : s.readIndex ≤ s.writeIndex
  upper : s.writeIndex ≤ s.readIndex + g.slots
  /-- What is read is read in the order of the claims, nothing twice. -/
  inOrder : (s.reads.map (·.1)).Pairwise (· < ·)
  /-- It is what was published there. -/
  published : ∀ x ∈ s.reads, s.handed x.1 = some x.2
  /-- What was published at an index the reader is past has been read. -/
  read : ∀ i w d, i < s.readTo → s.handed i = some (w, d) → (i, w, d) ∈ s.reads
  /-- What was published further on is there for it. -/
  unread : ∀ i w d, s.readIndex ≤ i → s.readTo ≤ i → (∀ j, s.reader ≠ .refReleased j) → s.handed i = some (w, d) →
    s.sequence (g.pos i) = i + 1 ∧ s.Holds g i d
  /-- A record is published as it was written. -/
  written : ∀ w d c, (s.writers w).pc = .filled (.record (.datagram d)) c → s.cell (g.pos c) = .datagram d
  /-- A slot is claimed by one writer, and not while it is in use. -/
  unused : ∀ w c, s.Fills w c → ¬ s.InUse g (g.pos c)
  alone : ∀ v w b c, s.Fills v b → s.Fills w c → g.pos b = g.pos c → v = w

theorem Owned.fills (h : s.Owned g) (fills : s.Fills w c) : s.owner (g.pos c) = .filling w := by
  have fits := h.writer w
  obtain ⟨t, pc | pc⟩ := fills
  · rw [pc] at fits
    exact fits.2.2.1
  · rw [pc] at fits
    exact fits.2.2.1

theorem Owned.inUse (h : s.Owned g) {p : Nat} (used : s.InUse g p) : ∀ v, s.owner p ≠ .filling v := by
  intro v filling
  have fits := h.reader
  cases used with
  | unread i ahead published =>
    rw [(h.published ahead published).1] at filling
    cases filling
  | named i j ahead published ref =>
    rw [(h.published ahead published).2.2 j ref] at filling
    cases filling
  | reading b pc =>
    rw [pc] at fits
    rw [fits.2.1] at filling
    cases filling
  | refReleased j pc =>
    rw [pc] at fits
    rw [fits.2.2.1] at filling
    cases filling
  | referring j r pc =>
    rw [pc] at fits
    rw [fits.2.1] at filling
    cases filling
  | readingRef j pc =>
    rw [pc] at fits
    rw [show s.owner (g.pos j) = .referring j from fits] at filling
    cases filling
  | kept j mem =>
    rw [h.retained j mem] at filling
    cases filling
  | lent w j mem =>
    rw [h.claims w j mem] at filling
    cases filling

theorem Recorded.exactlyOnce (h : s.Recorded g) (owned : s.Owned g) : s.ExactlyOnce g where
  lower := owned.lower
  upper := owned.upper
  inOrder := h.sorted
  published := h.same
  read := h.all
  unread := by
    intro i w d ahead due unreleased given
    have value : s.sequence (g.pos i) = i + 1 := by
      rcases h.waiting i (by simp [given]) due with here | ⟨⟨j, pc⟩, _⟩ | ⟨j, pc⟩
      · exact here.2
      · exact absurd pc (unreleased j)
      · have fits := owned.reader
        rw [pc] at fits
        have := fits.1
        omega
    have carries := h.carries i (owned.published ahead value).1 value
    refine ⟨value, ?_⟩
    unfold Carries at carries
    split at carries
    · rename_i d' full
      obtain ⟨v, same⟩ := carries
      rw [given] at same
      cases same
      exact .inl full
    · rename_i j ref
      obtain ⟨v, d', same, there⟩ := carries
      rw [given] at same
      cases same
      exact .inr ⟨j, ref, there⟩
    · rw [given] at carries
      cases carries
  written := by
    intro w d c pc
    have fits := owned.writer w
    rw [pc] at fits
    exact fits.2.2.2.2
  unused := by
    intro w c fills used
    exact owned.inUse used w (owned.fills fills)
  alone := by
    intro v w b c one two there
    have first := owned.fills one
    rw [there, owned.fills two] at first
    cases first
    rfl

/-- A record is written, and copied out. -/
def oneRecord : List (RingEvent Nat) := written 0 7 ++ [.reader .copy, .reader .copy, .reader .copy]

end Ring

end Segment

end Tickle
