import Tickle.Segment.Reading

/-! # What is read

The history of a ring beside the ring: every index a writer has handed a datagram over at is read there, once, in the order of the
indices, and what is read is what was handed over. A writer's own datagrams go at rising indices, whichever way they went.
-/

namespace Tickle

namespace Segment

namespace Ring

open Function

variable {δ : Type} {g : Geometry} {s s' : Ring δ} {b m j w c i : Nat} {spurious : Bool} {t : Task δ}

/-- The first index the reader has not dealt with. -/
def readTo (s : Ring δ) : Nat :=
  match s.reader with
  | .advance => s.readIndex + 1
  | .referring _ ref => ref
  | _ => s.readIndex

variable (g s) in
/-- A published slot has what was handed over there, or names the slot that has it. -/
def Carries (i : Nat) : Prop :=
  match s.cell (g.pos i) with
  | .datagram d => ∃ w, s.handed i = some (w, d)
  | .ref j => ∃ w d, s.handed i = some (w, d) ∧ s.cell (g.pos j) = .datagram d
  | _ => s.handed i = none

/-- A writer about to hand over at `c` has handed over nothing there or after. -/
def Latest (s : Ring δ) (w : Nat) : WriterPc δ → Prop
  | .won _ c => ∀ i ∈ s.log w, i < c
  | .filled _ c => ∀ i ∈ s.log w, i < c
  | .publish c => ∀ i ∈ s.log w, i < c
  | _ => True

variable (g s) in
/-- The slot the reader takes up has what was handed over at its reference. -/
def TakesUp : ReaderPc → Prop
  | .refReleased j => ∃ w d, s.handed s.readIndex = some (w, d) ∧ s.cell (g.pos j) = .datagram d
  | .referring j ref => ∃ w d, s.handed ref = some (w, d) ∧ s.cell (g.pos j) = .datagram d
  | _ => True

variable (g s) in
/-- What is handed over at `i` is still to be read: in its slot, or by the reference the reader has given back. -/
def Waits (i : Nat) : Prop :=
  s.readIndex ≤ i ∧ s.sequence (g.pos i) = i + 1 ∨ (∃ j, s.reader = .refReleased j) ∧ i = s.readIndex ∨
    ∃ j, s.reader = .referring j i

variable (g s) in
/-- The history of the ring. -/
structure Recorded : Prop where
  named : ∀ w i, i ∈ s.log w ↔ ∃ d, s.handed i = some (w, d)
  ordered : ∀ w, (s.log w).Pairwise (· < ·)
  below : ∀ i, s.handed i ≠ none → i < s.writeIndex
  latest : ∀ w, s.Latest w (s.writers w).pc
  lent : ∀ w j, s.owner (g.pos j) = .lent w j → s.handed j = none
  carries : ∀ i, s.owner (g.pos i) = .unread → s.sequence (g.pos i) = i + 1 → s.Carries g i
  waiting : ∀ i, s.handed i ≠ none → s.readTo ≤ i → s.Waits g i
  reader : s.TakesUp g s.reader
  sorted : (s.reads.map (·.1)).Pairwise (· < ·)
  before : ∀ x ∈ s.reads, x.1 < s.readTo
  same : ∀ x ∈ s.reads, s.handed x.1 = some x.2
  all : ∀ i w d, i < s.readTo → s.handed i = some (w, d) → (i, w, d) ∈ s.reads

theorem create_recorded : (create : Ring δ).Recorded g where
  named := by simp [create]
  ordered := by simp [create]
  below := by simp [create]
  latest := fun _ => trivial
  lent := by simp [create]
  carries := by simp [create]
  waiting := by simp [create]
  reader := trivial
  sorted := by simp [create]
  before := by simp [create]
  same := by simp [create]
  all := by simp [create]

/-! ## What others' steps leave as it is -/

theorem Carries.carry (h : s.Carries g i) (handed : s'.handed i = s.handed i) (cell : s'.cell (g.pos i) = s.cell (g.pos i))
    (named : ∀ j, s.cell (g.pos i) = .ref j → s'.cell (g.pos j) = s.cell (g.pos j)) : s'.Carries g i := by
  unfold Carries at h ⊢
  rw [handed, cell]
  cases full : s.cell (g.pos i) with
  | blank | datagram d | fence =>
    rw [full] at h
    exact h
  | ref j =>
    rw [full] at h
    obtain ⟨w, d, given, there⟩ := h
    exact ⟨w, d, given, (named j full).trans there⟩

theorem Latest.carry {pc : WriterPc δ} (h : s.Latest w pc) (log : s'.log w = s.log w) : s'.Latest w pc := by
  cases pc with
  | won t c | filled t c | publish j =>
    unfold Latest
    rw [log]
    exact h
  | idle | load t | range t c | check t c | exchange t c | mark t c sequence | skip t c | inPlace j | giveBack j => trivial

theorem TakesUp.carry {pc : ReaderPc} (h : s.TakesUp g pc) (read : s'.readIndex = s.readIndex)
    (handed : ∀ i v d, s.handed i = some (v, d) → s'.handed i = some (v, d))
    (cell : ∀ j, (pc = .refReleased j ∨ ∃ r, pc = .referring j r) → s'.cell (g.pos j) = s.cell (g.pos j)) : s'.TakesUp g pc := by
  cases pc with
  | refReleased j =>
    obtain ⟨v, d, given, there⟩ := h
    exact ⟨v, d, by rw [read]; exact handed _ v d given, (cell j (.inl rfl)).trans there⟩
  | referring j r =>
    obtain ⟨v, d, given, there⟩ := h
    exact ⟨v, d, handed r v d given, (cell j (.inr ⟨r, rfl⟩)).trans there⟩
  | idle | looked sequence | passing | advance | reading index | readingRef index => trivial

/-- A slot that is being filled or is lent may change; a published one, and one that is referred to, does not. -/
structure Spares (s s' : Ring δ) : Prop where
  unread : ∀ p, s'.owner p = .unread → s.owner p = .unread
  sequence : ∀ p, s.owner p = .unread → s'.sequence p = s.sequence p
  cell : ∀ p, s'.cell p = s.cell p ∨ (∃ w, s.owner p = .filling w) ∨ ∃ w j, s.owner p = .lent w j

theorem Spares.kept {p : Nat} (spares : Spares s s') (filling : ∀ w, s.owner p ≠ .filling w) (lent : ∀ w j, s.owner p ≠ .lent w j) :
    s'.cell p = s.cell p := by
  rcases spares.cell p with same | ⟨w, who⟩ | ⟨w, j, who⟩
  · exact same
  · exact absurd who (filling w)
  · exact absurd who (lent w j)

/-- What a writer does that hands nothing over. -/
theorem Recorded.quiet (h : s.Recorded g) (owned : s.Owned g) (spares : Spares s s') (handed : s'.handed = s.handed)
    (log : s'.log = s.log) (reads : s'.reads = s.reads) (write : s.writeIndex ≤ s'.writeIndex)
    (read : s'.readIndex = s.readIndex) (reader : s'.reader = s.reader)
    (others : ∀ v, v ≠ w → (s'.writers v).pc = (s.writers v).pc) (latest : s.Latest w (s'.writers w).pc)
    (lent : ∀ v j, s'.owner (g.pos j) = .lent v j → s.owner (g.pos j) = .lent v j ∨ s.handed j = none) : s'.Recorded g := by
  have readTo : s'.readTo = s.readTo := by
    unfold Ring.readTo
    rw [reader, read]
  refine ⟨?_, ?_, ?_, ?_, ?_, ?_, ?_, ?_, ?_, ?_, ?_, ?_⟩
  · rw [log, handed]
    exact h.named
  · rw [log]
    exact h.ordered
  · rw [handed]
    exact fun i given => (h.below i given).trans_le write
  · intro v
    by_cases own : v = w
    · subst own
      exact latest.carry (by rw [log])
    · rw [others v own]
      exact (h.latest v).carry (by rw [log])
  · intro v j who
    rw [handed]
    rcases lent v j who with still | fresh
    · exact h.lent v j still
    · exact fresh
  · intro i who value
    have unread := spares.unread _ who
    rw [spares.sequence _ unread] at value
    have state := owned.state value (by omega)
    rw [unread] at state
    apply (h.carries i unread value).carry (by rw [handed])
    · exact spares.kept (by simp [unread]) (by simp [unread])
    · intro j ref
      have referred := state.2.2.2 j ref
      exact spares.kept (by simp [referred]) (by simp [referred])
  · intro i given waits
    rw [handed] at given
    rw [readTo] at waits
    unfold Waits
    rw [read, reader]
    rcases h.waiting i given waits with ⟨ahead, value⟩ | other
    · have unread := (owned.published ahead value).1
      rw [spares.sequence _ unread]
      exact .inl ⟨ahead, value⟩
    · exact .inr other
  · rw [reader]
    apply h.reader.carry read
    · rw [handed]
      exact fun _ _ _ given => given
    · have fits := owned.reader
      rintro j (pc | ⟨r, pc⟩)
      · rw [pc] at fits
        exact spares.kept (by simp [fits.2.2.1]) (by simp [fits.2.2.1])
      · rw [pc] at fits
        exact spares.kept (by simp [fits.2.1]) (by simp [fits.2.1])
  · rw [reads]
    exact h.sorted
  · rw [reads, readTo]
    exact h.before
  · rw [reads, handed]
    exact h.same
  · rw [reads, handed, readTo]
    exact h.all

/-! ## The writers -/

/-- Nothing is handed over yet at an index that is being filled or is held. -/
theorem Recorded.fresh (h : s.Recorded g) (owned : s.Owned g) (ahead : s.readIndex ≤ c)
    (value : s.sequence (g.pos c) = c ∨ s.sequence (g.pos c) = c + 2) : s.readTo ≤ c ∧ s.handed c = none := by
  have four := g.four_le_slots
  have fits := owned.reader
  have due : s.readTo ≤ c := by
    unfold readTo
    cases pc : s.reader with
    | advance =>
      rw [pc] at fits
      have other : c ≠ s.readIndex := by
        rintro rfl
        rcases fits.2 with three | given
        · omega
        · omega
      change s.readIndex + 1 ≤ c
      omega
    | referring j r =>
      rw [pc] at fits
      have := fits.1
      change r ≤ c
      omega
    | idle | looked sequence | passing | reading index | refReleased index | readingRef index => exact ahead
  refine ⟨due, ?_⟩
  by_contra given
  rcases h.waiting c given due with ⟨_, one⟩ | ⟨⟨j, pc⟩, rfl⟩ | ⟨j, pc⟩
  · omega
  · rw [pc] at fits
    have := fits.2.1
    omega
  · rw [pc] at fits
    have := fits.1
    omega

/-- A writer publishes the slot at `c`, with a datagram to hand over there or without. -/
theorem Recorded.publishes (h : s.Recorded g) (owned : s.Owned g) (given : Option δ) (due : s.readTo ≤ c)
    (fresh : s.handed c = none) (claimed : c < s.writeIndex) (ahead : s.readIndex ≤ c) (first : ∀ i ∈ s.log w, i < c)
    (handed : s'.handed = update s.handed c (given.map (w, ·)))
    (log : s'.log = update s.log w (s.log w ++ given.toList.map fun _ => c)) (reads : s'.reads = s.reads)
    (write : s'.writeIndex = s.writeIndex) (read : s'.readIndex = s.readIndex) (reader : s'.reader = s.reader)
    (others : ∀ v, v ≠ w → (s'.writers v).pc = (s.writers v).pc) (idle : (s'.writers w).pc = .idle)
    (unread : ∀ p, p ≠ g.pos c → s'.owner p = .unread → s.owner p = .unread)
    (sequence : ∀ p, p ≠ g.pos c → s'.sequence p = s.sequence p) (cell : s'.cell = s.cell)
    (value : s'.sequence (g.pos c) = c + 1) (apart : s.owner (g.pos c) ≠ .unread) (published : s'.owner (g.pos c) = .unread)
    (lent : ∀ p v j, s'.owner p = .lent v j → s.owner p = .lent v j) (carries : s'.Carries g c) : s'.Recorded g := by
  have readTo : s'.readTo = s.readTo := by
    unfold Ring.readTo
    rw [reader, read]
  have elsewhere : ∀ i, i ≠ c → s'.handed i = s.handed i := by
    intro i other
    rw [handed, update_of_ne other]
  have at_ : s'.handed c = given.map (w, ·) := by rw [handed, update_self]
  have unnamed : ∀ v, c ∉ s.log v := by
    intro v mem
    obtain ⟨d, named⟩ := (h.named v c).mp mem
    rw [fresh] at named
    cases named
  refine ⟨?_, ?_, ?_, ?_, ?_, ?_, ?_, ?_, ?_, ?_, ?_, ?_⟩
  · intro v i
    by_cases here : i = c
    · subst here
      rw [at_, log]
      by_cases own : v = w
      · subst own
        rw [update_self]
        cases given with
        | none => simp [unnamed]
        | some d => simp
      · rw [update_of_ne own]
        cases given with
        | none => simp [unnamed]
        | some d =>
          simp only [unnamed, Option.map_some, Option.some.injEq, Prod.mk.injEq, false_iff, not_exists, not_and]
          exact fun _ same => absurd same.symm own
    · rw [elsewhere i here, ← h.named v i, log]
      by_cases own : v = w
      · subst own
        rw [update_self]
        cases given with
        | none => simp
        | some d => simp [here]
      · rw [update_of_ne own]
  · intro v
    rw [log]
    by_cases own : v = w
    · subst own
      rw [update_self, List.pairwise_append]
      refine ⟨h.ordered v, ?_, ?_⟩
      · cases given with
        | none => exact List.Pairwise.nil
        | some d => exact List.pairwise_singleton _ _
      · intro i mem k last
        obtain ⟨_, _, rfl⟩ := List.mem_map.mp last
        exact first i mem
    · rw [update_of_ne own]
      exact h.ordered v
  · intro i some_
    rw [write]
    by_cases here : i = c
    · rw [here]
      exact claimed
    · rw [elsewhere i here] at some_
      exact h.below i some_
  · intro v
    by_cases own : v = w
    · rw [own, idle]
      trivial
    · rw [others v own]
      apply (h.latest v).carry
      rw [log, update_of_ne own]
  · intro v i who
    have other : i ≠ c := by
      rintro rfl
      rw [published] at who
      cases who
    rw [elsewhere i other]
    exact h.lent v i (lent _ v i who)
  · intro i who one
    by_cases there : g.pos i = g.pos c
    · have here : i = c := by
        rw [there, value] at one
        omega
      rw [here]
      exact carries
    · have unread' := unread _ there who
      rw [sequence _ there] at one
      apply (h.carries i unread' one).carry (elsewhere i fun here => there (by rw [here]))
      · rw [cell]
      · intro j _
        rw [cell]
  · intro i some_ waits
    rw [readTo] at waits
    unfold Waits
    rw [read, reader]
    by_cases here : i = c
    · rw [here]
      exact .inl ⟨ahead, value⟩
    · rw [elsewhere i here] at some_
      rcases h.waiting i some_ waits with ⟨least, one⟩ | other
      · have there : g.pos i ≠ g.pos c := by
          intro there
          have unread' := (owned.published least one).1
          rw [there] at unread'
          exact apart unread'
        rw [sequence _ there]
        exact .inl ⟨least, one⟩
      · exact .inr other
  · rw [reader]
    apply h.reader.carry read
    · intro i v d some_
      have other : i ≠ c := by
        rintro rfl
        rw [fresh] at some_
        cases some_
      rw [elsewhere i other]
      exact some_
    · intro _ _
      rw [cell]
  · rw [reads]
    exact h.sorted
  · rw [reads, readTo]
    exact h.before
  · intro x mem
    rw [reads] at mem
    have earlier := h.before x mem
    rw [elsewhere x.1 (by omega)]
    exact h.same x mem
  · intro i v d earlier some_
    rw [readTo] at earlier
    rw [elsewhere i (by omega)] at some_
    rw [reads]
    exact h.all i v d earlier some_

theorem spares_same (owner : s'.owner = s.owner) (sequence : s'.sequence = s.sequence) (cell : s'.cell = s.cell) : Spares s s' where
  unread := by
    rw [owner]
    exact fun _ who => who
  sequence := by
    rw [sequence]
    exact fun _ _ => rfl
  cell := by
    rw [cell]
    exact fun _ => .inl rfl

theorem Recorded.setPc (h : s.Recorded g) (owned : s.Owned g) (pc : WriterPc δ) (latest : s.Latest w pc) :
    (s.setPc w pc).Recorded g := by
  refine h.quiet (w := w) owned (spares_same rfl rfl rfl) rfl rfl rfl (Nat.le_refl s.writeIndex) rfl rfl ?_ ?_ ?_
  · intro v other
    rw [setPc_other _ other]
  · rw [setPc_pc]
    exact latest
  · exact fun v j who => .inl who

theorem Recorded.refuse (h : s.Recorded g) (owned : s.Owned g) (t : Task δ) : (s.refuse w t).Recorded g := by
  cases t with
  | record cell | lend => exact h.setPc owned .idle trivial
  | refer j =>
    refine h.quiet (w := w) owned (spares_same rfl rfl rfl) rfl rfl rfl (Nat.le_refl s.writeIndex) rfl rfl ?_ ?_ ?_
    · intro v other
      exact congrArg Writer.pc (setPc_other _ other)
    · have next : ((s.refuse w (.refer j)).writers w).pc = .giveBack j := setPc_pc _
      rw [next]
      trivial
    · exact fun v j who => .inl who

/-- The slot of one writer changes, which is not published before or after. -/
theorem spares_at {p : Nat} (before : s.owner p ≠ .unread) (after : s'.owner p ≠ .unread)
    (owner : ∀ q, q ≠ p → s'.owner q = s.owner q) (sequence : ∀ q, q ≠ p → s'.sequence q = s.sequence q)
    (cell : ∀ q, s'.cell q = s.cell q ∨ (∃ w, s.owner q = .filling w) ∨ ∃ w j, s.owner q = .lent w j) : Spares s s' where
  unread := by
    intro q who
    have other : q ≠ p := by
      rintro rfl
      exact after who
    rw [← owner q other]
    exact who
  sequence := by
    intro q who
    apply sequence
    rintro rfl
    exact before who
  cell := cell

theorem Recorded.mark (h : s.Recorded g) (owned : s.Owned g) (owned' : (s.writerStep g w spurious).Owned g)
    (pc : (s.writers w).pc = .mark t c i) : (s.writerStep g w spurious).Recorded g := by
  simp only [writerStep, pc] at owned' ⊢
  split
  · rename_i same
    rw [if_pos same] at owned'
    let s' := s.setSequence g c (c + 2) (s.owner (g.pos c))
    have owner : s'.owner = s.owner := update_eq_self _ _
    have value : s'.sequence (g.pos c) = c + 2 := update_self _ _ _
    have state := owned'.state (b := c) (m := 2) value (by omega)
    have marked : s.owner (g.pos c) ≠ .unread := by
      have kept := (state.marked (Nat.le_refl _)).2.2.1
      change s'.owner (g.pos c) ≠ .unread at kept
      rw [owner] at kept
      exact kept
    have spares : Spares s (s'.setPc w (.skip t c)) := by
      apply spares_at marked
      · change s'.owner (g.pos c) ≠ .unread
        rw [owner]
        exact marked
      · intro q _
        exact congrFun owner q
      · exact fun q other => update_of_ne other _ _
      · exact fun _ => .inl rfl
    refine h.quiet (w := w) owned spares rfl rfl rfl (Nat.le_refl s.writeIndex) rfl rfl ?_ ?_ ?_
    · exact fun v other => congrArg Writer.pc (setPc_other _ other)
    · rw [setPc_pc]
      trivial
    · intro v j who
      change s'.owner (g.pos j) = .lent v j at who
      rw [owner] at who
      exact .inl who
  · exact h.setPc owned _ trivial

theorem Recorded.skip (h : s.Recorded g) (owned : s.Owned g) (pc : (s.writers w).pc = .skip t c) :
    (s.writerStep g w spurious).Recorded g := by
  simp only [writerStep, pc]
  split
  · refine h.quiet (w := w) owned (spares_same rfl rfl rfl) rfl rfl rfl (Nat.le_succ s.writeIndex) rfl rfl ?_ ?_ ?_
    · exact fun v other => congrArg Writer.pc (setPc_other _ other)
    · rw [setPc_pc]
      trivial
    · exact fun v j who => .inl who
  · exact h.setPc owned _ trivial

/-- What a writer has handed over lies before `write_index`. -/
theorem Recorded.log_lt (h : s.Recorded g) {i : Nat} (mem : i ∈ s.log w) : i < s.writeIndex := by
  obtain ⟨d, given⟩ := (h.named w i).mp mem
  apply h.below
  rw [given]
  simp

/-- What an updated function gives other than the new value, it gave before, and elsewhere. -/
theorem of_update {f : Nat → Owner} {p q : Nat} {o o' : Owner} (here : update f p o q = o') (new : o ≠ o') :
    q ≠ p ∧ f q = o' := by
  have other : q ≠ p := by
    rintro rfl
    exact new ((update_self _ _ _).symm.trans here)
  exact ⟨other, (update_of_ne other _ _).symm.trans here⟩

theorem Recorded.exchange (h : s.Recorded g) (owned : s.Owned g) (owned' : (s.writerStep g w spurious).Owned g)
    (pc : (s.writers w).pc = .exchange t c) : (s.writerStep g w spurious).Recorded g := by
  simp only [writerStep, pc] at owned' ⊢
  split
  · rename_i won
    rw [if_pos won] at owned'
    have fits := owned'.writer w
    rw [setPc_pc] at fits
    have value : s.sequence (g.pos s.writeIndex) = s.writeIndex := fits.2.2.2
    have free := owned.free value
    have spares : Spares s ({ s with
        writeIndex := s.writeIndex + 1
        owner := update s.owner (g.pos s.writeIndex) (.filling w) }.setPc w (.won t s.writeIndex)) := by
      apply spares_at (p := g.pos s.writeIndex)
      · simp [free]
      · change update s.owner (g.pos s.writeIndex) (.filling w) (g.pos s.writeIndex) ≠ .unread
        rw [update_self]
        simp
      · exact fun q other => update_of_ne other _ _
      · exact fun _ _ => rfl
      · exact fun _ => .inl rfl
    refine h.quiet (w := w) owned spares rfl rfl rfl (Nat.le_succ s.writeIndex) rfl rfl ?_ ?_ ?_
    · exact fun v other => congrArg Writer.pc (setPc_other _ other)
    · rw [setPc_pc]
      exact fun i mem => h.log_lt mem
    · intro v j who
      exact .inl (of_update (f := s.owner) (o := .filling w) who (by simp)).2
  · exact h.setPc owned _ trivial

/-- The slot at `j` changes hands: from one that is not published to one that is neither that nor lent. -/
theorem Recorded.handsOn (h : s.Recorded g) (owned : s.Owned g) (who : s.owner (g.pos j) ≠ .unread)
    (owner : ∀ p, p ≠ g.pos j → s'.owner p = s.owner p) (sequence : ∀ p, p ≠ g.pos j → s'.sequence p = s.sequence p)
    (cell : ∀ p, s'.cell p = s.cell p ∨ (∃ v, s.owner p = .filling v) ∨ ∃ v i, s.owner p = .lent v i)
    (after : s'.owner (g.pos j) ≠ .unread)
    (lent : ∀ v i, g.pos i = g.pos j → s'.owner (g.pos j) = .lent v i → s.owner (g.pos j) = .lent v i ∨ s.handed i = none)
    (handed : s'.handed = s.handed) (log : s'.log = s.log) (reads : s'.reads = s.reads) (write : s'.writeIndex = s.writeIndex)
    (read : s'.readIndex = s.readIndex) (reader : s'.reader = s.reader)
    (others : ∀ v, v ≠ w → (s'.writers v).pc = (s.writers v).pc) (latest : s.Latest w (s'.writers w).pc) : s'.Recorded g := by
  apply h.quiet owned (spares_at who after owner sequence cell) handed log reads write.ge read reader others latest
  intro v i here
  by_cases there : g.pos i = g.pos j
  · rw [there] at here ⊢
    exact lent v i there here
  · rw [owner _ there] at here
    exact .inl here

/-- It goes to one of whom that is plain. -/
theorem Recorded.givesTo (h : s.Recorded g) (owned : s.Owned g) (who : s.owner (g.pos j) ≠ .unread) {o : Owner} (unread : o ≠ .unread)
    (lent : ∀ v i, o ≠ .lent v i) (owner : s'.owner = update s.owner (g.pos j) o)
    (sequence : ∀ p, p ≠ g.pos j → s'.sequence p = s.sequence p) (cell : s'.cell = s.cell) (handed : s'.handed = s.handed)
    (log : s'.log = s.log) (reads : s'.reads = s.reads) (write : s'.writeIndex = s.writeIndex) (read : s'.readIndex = s.readIndex)
    (reader : s'.reader = s.reader) (others : ∀ v, v ≠ w → (s'.writers v).pc = (s.writers v).pc)
    (latest : s.Latest w (s'.writers w).pc) : s'.Recorded g := by
  have after : s'.owner (g.pos j) = o := by rw [owner, update_self]
  refine h.handsOn owned who ?_ sequence (fun _ => .inl (by rw [cell])) ?_ ?_ handed log reads write read reader others latest
  · intro p other
    rw [owner, update_of_ne other]
  · rw [after]
    exact unread
  · intro v i _ here
    exact absurd (after.symm.trans here) (lent v i)

theorem Recorded.won (h : s.Recorded g) (owned : s.Owned g) (pc : (s.writers w).pc = .won t c) :
    (s.writerStep g w spurious).Recorded g := by
  have fits := owned.writer w
  rw [pc] at fits
  obtain ⟨_, _, who, value⟩ := fits
  have first := h.latest w
  rw [pc] at first
  have between := owned.filling who value
  have fresh := h.fresh owned between.1 (.inl value)
  have busy : s.owner (g.pos c) ≠ .unread := by simp [who]
  have write : ∀ (cell : Cell δ) (t : Task δ), ((s.setCell g c cell).setPc w (.filled t c)).Recorded g := by
    intro cell t
    refine h.handsOn (w := w) owned busy (fun _ _ => rfl) (fun _ _ => rfl) ?_ busy (fun _ _ _ here => .inl here)
      rfl rfl rfl rfl rfl rfl ?_ ?_
    · intro p
      by_cases there : p = g.pos c
      · exact .inr (.inl ⟨w, there ▸ who⟩)
      · exact .inl (update_of_ne there _ _)
    · exact fun v other => congrArg Writer.pc (setPc_other _ other)
    · rw [setPc_pc]
      exact first
  cases t with
  | record cell =>
    simp only [writerStep, pc]
    exact write cell _
  | lend =>
    simp only [writerStep, pc]
    have after : (s.setSequence g c (c + 2) (.lent w c)).owner (g.pos c) = .lent w c := update_self _ _ _
    refine h.handsOn (w := w) owned busy (fun p other => update_of_ne other _ _)
      (fun p other => update_of_ne other _ _) (fun _ => .inl rfl) ?_ ?_ rfl rfl rfl rfl rfl rfl ?_ ?_
    · change (s.setSequence g c (c + 2) (.lent w c)).owner (g.pos c) ≠ .unread
      rw [after]
      simp
    · intro v i _ here
      change (s.setSequence g c (c + 2) (.lent w c)).owner (g.pos c) = .lent v i at here
      rw [after] at here
      cases here
      exact .inr fresh.2
    · exact fun v other => congrArg Writer.pc (update_of_ne other _ _)
    · dsimp only
      rw [update_self]
      trivial
  | refer j =>
    simp only [writerStep, pc]
    exact write (.ref j) _

theorem handOver_datagram {d : δ} {r : Nat} (full : s.cell (g.pos j) = .datagram d) :
    s.handOver g w j r = { s with
      handed := update s.handed r (some (w, d))
      log := update s.log w (s.log w ++ [r]) } := by
  unfold handOver
  rw [full]

theorem handOver_none {r : Nat} (bare : ∀ d, s.cell (g.pos j) ≠ .datagram d) : s.handOver g w j r = s := by
  unfold handOver
  split
  · rename_i d full
    exact absurd full (bare d)
  · rfl

theorem carries_none (bare : ∀ d, s.cell (g.pos i) ≠ .datagram d) (own : ∀ j, s.cell (g.pos i) ≠ .ref j)
    (nothing : s.handed i = none) : s.Carries g i := by
  unfold Carries
  split
  · rename_i d full
    exact absurd full (bare d)
  · rename_i j ref
    exact absurd ref (own j)
  · exact nothing

theorem carries_ref {d : δ} (ref : s.cell (g.pos i) = .ref j) (given : s.handed i = some (w, d))
    (full : s.cell (g.pos j) = .datagram d) : s.Carries g i := by
  unfold Carries
  rw [ref]
  exact ⟨w, d, given, full⟩

/-- A datagram goes over in its own slot. -/
theorem Recorded.handsOver (h : s.Recorded g) (owned : s.Owned g) {d : δ} (due : s.readTo ≤ c) (fresh : s.handed c = none)
    (claimed : c < s.writeIndex) (ahead : s.readIndex ≤ c) (first : ∀ i ∈ s.log w, i < c) (busy : s.owner (g.pos c) ≠ .unread)
    (full : s.cell (g.pos c) = .datagram d) :
    (((s.setSequence g c (c + 1) .unread).setPc w .idle).handOver g w c c).Recorded g := by
  have there : ((s.setSequence g c (c + 1) .unread).setPc w .idle).cell (g.pos c) = .datagram d := full
  rw [handOver_datagram there]
  refine h.publishes (w := w) owned (some d) due fresh claimed ahead first rfl rfl rfl rfl rfl rfl ?_ ?_ ?_ ?_ rfl
    (update_self _ _ _) busy (update_self _ _ _) ?_ ?_
  · exact fun v other => congrArg Writer.pc (setPc_other _ other)
  · exact setPc_pc _
  · exact fun p other who => (update_of_ne other _ _).symm.trans who
  · exact fun p other => update_of_ne other _ _
  · intro p v i who
    exact (of_update (f := s.owner) (o := .unread) who (by simp)).2
  · unfold Carries
    dsimp only
    rw [there]
    exact ⟨w, update_self _ _ _⟩

theorem Recorded.filled (h : s.Recorded g) (owned : s.Owned g) (pc : (s.writers w).pc = .filled t c) :
    (s.writerStep g w spurious).Recorded g := by
  have fits := owned.writer w
  rw [pc] at fits
  obtain ⟨mine, behind, who, value, written⟩ := fits
  have first := h.latest w
  rw [pc] at first
  have between := owned.filling who value
  obtain ⟨due, fresh⟩ := h.fresh owned between.1 (.inl value)
  have busy : s.owner (g.pos c) ≠ .unread := by simp [who]
  have unread : (s.setSequence g c (c + 1) .unread).owner (g.pos c) = .unread := update_self _ _ _
  cases t with
  | lend => exact written.elim
  | record cell =>
    simp only [writerStep, pc]
    by_cases bare : ∀ d, s.cell (g.pos c) ≠ .datagram d
    · have nothing : ((s.setSequence g c (c + 1) .unread).setPc w .idle).handOver g w c c =
          (s.setSequence g c (c + 1) .unread).setPc w .idle := handOver_none bare
      rw [nothing]
      refine h.publishes (w := w) owned none due fresh between.2 between.1 first ?_ ?_ rfl rfl rfl rfl ?_ ?_ ?_ ?_ rfl
        (update_self _ _ _) busy unread ?_ ?_
      · rw [Option.map_none, ← fresh, update_eq_self]
        rfl
      · rw [Option.toList_none, List.map_nil, List.append_nil, update_eq_self]
        rfl
      · exact fun v other => congrArg Writer.pc (setPc_other _ other)
      · exact setPc_pc _
      · exact fun p other who => (update_of_ne other _ _).symm.trans who
      · exact fun p other => update_of_ne other _ _
      · intro p v i lent
        exact (of_update (f := s.owner) (o := .unread) lent (by simp)).2
      · apply carries_none bare _ fresh
        intro j ref
        exact mine j (written.symm.trans ref)
    · push Not at bare
      obtain ⟨d, full⟩ := bare
      exact h.handsOver owned due fresh between.2 between.1 first busy full
  | refer j =>
    simp only [writerStep, pc]
    obtain ⟨returned, d, full⟩ := mine
    have apart := returned.apart who
    have there : { (s.setSequence g c (c + 1) .unread).setPc w .idle with
        owner := update ((s.setSequence g c (c + 1) .unread).setPc w .idle).owner (g.pos j) (.referred c j) }.cell (g.pos j) =
          .datagram d := full
    rw [handOver_datagram there]
    have published : update (s.setSequence g c (c + 1) .unread).owner (g.pos j) (.referred c j) (g.pos c) = .unread :=
      (update_of_ne apart.symm _ _).trans unread
    refine h.publishes (w := w) owned (some d) due fresh between.2 between.1 first rfl rfl rfl rfl rfl rfl ?_ ?_ ?_ ?_ rfl
      (update_self _ _ _) busy published ?_ ?_
    · exact fun v other => congrArg Writer.pc (setPc_other _ other)
    · exact setPc_pc _
    · intro p other here
      have before := (of_update (o := .referred c j) here (by simp)).2
      exact (update_of_ne other _ _).symm.trans before
    · exact fun p other => update_of_ne other _ _
    · intro p v i lent
      have before := (of_update (o := .referred c j) lent (by simp)).2
      exact (of_update (f := s.owner) (o := .unread) before (by simp)).2
    · have ref : s.cell (g.pos c) = .ref j := written
      exact carries_ref (w := w) (d := d) ref (update_self _ _ _) full

theorem Recorded.inPlace (h : s.Recorded g) (owned : s.Owned g) (pc : (s.writers w).pc = .inPlace j)
    (near : s.writeIndex + 4 * g.slots < j + 2 ^ 31) : (s.writerStep g w spurious).Recorded g := by
  have fits := owned.writer w
  rw [pc] at fits
  obtain ⟨b, m, _, held, _⟩ := owned.lent fits.1.1
  have claimed := held.claimed
  simp only [writerStep, pc]
  split
  · rename_i last
    rw [word_eq_iff (by omega) (by omega)] at last
    apply h.setPc owned
    intro i mem
    have earlier := h.log_lt mem
    have other : i ≠ j := by
      rintro rfl
      obtain ⟨d, given⟩ := (h.named w i).mp mem
      rw [h.lent w i fits.1.1] at given
      cases given
    omega
  · exact h.setPc owned _ trivial

theorem Recorded.publish (h : s.Recorded g) (owned : s.Owned g) (pc : (s.writers w).pc = .publish j)
    (near : s.writeIndex + 4 * g.slots < j + 2 ^ 31) : (s.writerStep g w spurious).Recorded g := by
  have fits := owned.writer w
  rw [pc] at fits
  obtain ⟨returned, d, full⟩ := fits
  have first := h.latest w
  rw [pc] at first
  have slots := g.slots_le
  obtain ⟨least, limit⟩ := owned.near j
  simp only [writerStep, pc]
  split
  · rename_i same
    obtain ⟨b, m, value, held, unread⟩ := owned.lent returned.1
    have claimed := held.claimed
    rw [word_eq_iff (by omega) (by omega)] at same
    obtain ⟨rfl, rfl⟩ := @Geometry.phase_unique g b j m 2 held.same.symm (by omega) held.phase_lt (by omega)
    obtain ⟨due, fresh⟩ := h.fresh owned (unread rfl) (.inr same)
    exact h.handsOver owned due fresh claimed (unread rfl) first (by simp [returned.1]) full
  · exact h.setPc owned _ trivial

theorem Recorded.giveBack (h : s.Recorded g) (owned : s.Owned g) (pc : (s.writers w).pc = .giveBack j) :
    (s.writerStep g w spurious).Recorded g := by
  have returned := owned.writer w
  rw [pc] at returned
  obtain ⟨b, m, value, held, _⟩ := owned.lent returned.1
  simp only [writerStep, pc]
  rw [unhold_eq value held]
  refine h.givesTo (w := w) owned (j := j) ?_ (by simp) (by simp) rfl (fun p other => update_of_ne other _ _) rfl rfl rfl rfl rfl rfl
    rfl ?_ ?_
  · simp [returned.1]
  · exact fun v other => congrArg Writer.pc (setPc_other _ other)
  · rw [setPc_pc]
    trivial

theorem Recorded.writerStep (h : s.Recorded g) (owned : s.Owned g) (timely : s.Timely g (.writer w spurious)) :
    (s.writerStep g w spurious).Recorded g := by
  have owned' := owned.writerStep timely
  unfold Timely at timely
  dsimp only at timely
  cases pc : (s.writers w).pc with
  | idle =>
    simp only [Ring.writerStep, pc]
    exact h
  | load t =>
    simp only [Ring.writerStep, pc]
    exact h.setPc owned _ trivial
  | range t c =>
    simp only [Ring.writerStep, pc]
    split
    · exact h.refuse owned t
    · exact h.setPc owned _ trivial
  | check t c =>
    simp only [Ring.writerStep, pc]
    split
    · exact h.setPc owned _ trivial
    · split
      · exact h.setPc owned _ trivial
      · split
        · exact h.setPc owned _ trivial
        · exact h.refuse owned t
  | exchange t c => exact h.exchange owned owned' pc
  | mark t c sequence => exact h.mark owned owned' pc
  | skip t c => exact h.skip owned pc
  | won t c => exact h.won owned pc
  | filled t c => exact h.filled owned pc
  | inPlace j =>
    rw [pc] at timely
    exact h.inPlace owned pc timely
  | publish j =>
    rw [pc] at timely
    exact h.publish owned pc timely
  | giveBack j => exact h.giveBack owned pc

/-! ## The applications -/

/-- A slot lent to an application is written. -/
theorem Recorded.lends (h : s.Recorded g) (owned : s.Owned g) (mem : j ∈ (s.writers w).claims) (handed : s'.handed = s.handed)
    (log : s'.log = s.log) (reads : s'.reads = s.reads) (write : s'.writeIndex = s.writeIndex)
    (read : s'.readIndex = s.readIndex) (reader : s'.reader = s.reader) (sequence : s'.sequence = s.sequence)
    (owner : s'.owner = s.owner) (cell : ∀ p, p ≠ g.pos j → s'.cell p = s.cell p)
    (others : ∀ v, v ≠ w → (s'.writers v).pc = (s.writers v).pc) (latest : s.Latest w (s'.writers w).pc) : s'.Recorded g := by
  have who := owned.claims w j mem
  have busy : s.owner (g.pos j) ≠ .unread := by simp [who]
  apply h.handsOn owned busy (fun _ _ => by rw [owner]) (fun _ _ => by rw [sequence]) _ (by rw [owner]; exact busy) _
    handed log reads write read reader others latest
  · intro p
    by_cases here : p = g.pos j
    · exact .inr (.inr ⟨w, j, here ▸ who⟩)
    · exact .inl (cell p here)
  · intro v i _ lent
    rw [owner] at lent
    exact .inl lent

theorem Recorded.start (h : s.Recorded g) (owned : s.Owned g) (op : Op δ) : (s.start g w op).Recorded g := by
  unfold Ring.start
  split
  · exact h.setPc owned _ trivial
  · exact h.setPc owned _ trivial
  · exact h.setPc owned _ trivial
  · split
    · rename_i mem
      refine h.lends (w := w) owned mem rfl rfl rfl rfl rfl rfl rfl rfl ?_ ?_ ?_
      · exact fun p other => update_of_ne other _ _
      · exact fun v other => congrArg Writer.pc (update_of_ne other _ _)
      · dsimp only
        rw [update_self]
        trivial
    · exact h
  · split
    · rename_i mem
      refine h.lends (w := w) owned mem rfl rfl rfl rfl rfl rfl rfl rfl ?_ ?_ ?_
      · exact fun _ _ => rfl
      · exact fun v other => congrArg Writer.pc (update_of_ne other _ _)
      · dsimp only
        rw [update_self]
        trivial
    · exact h
  · exact h

theorem Recorded.fill (h : s.Recorded g) (owned : s.Owned g) (mem : j ∈ (s.writers w).claims) (d : δ) :
    (s.setCell g j (.datagram d)).Recorded g := by
  refine h.lends (w := w) owned mem rfl rfl rfl rfl rfl rfl rfl rfl ?_ ?_ ?_
  · exact fun p other => update_of_ne other _ _
  · exact fun _ _ => rfl
  · exact h.latest w

theorem Recorded.release (h : s.Recorded g) (owned : s.Owned g) (mem : j ∈ s.retained) :
    { s.unhold g j with retained := s.retained.erase j }.Recorded g := by
  have who := owned.retained j mem
  obtain ⟨b, m, value, held⟩ := owned.held (.inr who)
  rw [unhold_eq value held]
  refine h.givesTo (w := 0) owned (j := j) ?_ (by simp) (by simp) rfl (fun p other => update_of_ne other _ _) rfl rfl rfl rfl rfl rfl
    rfl (fun _ _ => rfl) (h.latest 0)
  simp [who]

/-! ## The reader -/

/-- The steps of the reader: what it reads is the next that was handed over. -/
theorem Recorded.byReader (h : s.Recorded g) (handed : s'.handed = s.handed) (log : s'.log = s.log)
    (writers : s'.writers = s.writers) (cell : s'.cell = s.cell) (write : s.writeIndex ≤ s'.writeIndex)
    (unread : ∀ p, s'.owner p = .unread → s.owner p = .unread ∧ s'.sequence p = s.sequence p)
    (lent : ∀ p v j, s'.owner p = .lent v j → s.owner p = .lent v j)
    (waiting : ∀ i, s.handed i ≠ none → s'.readTo ≤ i → s.readTo ≤ i → s.Waits g i → s'.Waits g i)
    (reader : s'.TakesUp g s'.reader)
    (new : s'.reads = s.reads ∧ s.readTo ≤ s'.readTo ∧ (∀ i, s.readTo ≤ i → i < s'.readTo → s.handed i = none) ∨
      ∃ v d, s.handed s.readTo = some (v, d) ∧ s'.readTo = s.readTo + 1 ∧ s'.reads = s.reads ++ [(s.readTo, v, d)]) :
    s'.Recorded g := by
  have onward : s.readTo ≤ s'.readTo := by
    rcases new with ⟨_, le, _⟩ | ⟨_, _, _, next, _⟩
    · exact le
    · omega
  refine ⟨?_, ?_, ?_, ?_, ?_, ?_, ?_, reader, ?_, ?_, ?_, ?_⟩
  · rw [log, handed]
    exact h.named
  · rw [log]
    exact h.ordered
  · rw [handed]
    exact fun i given => (h.below i given).trans_le write
  · intro v
    rw [writers]
    exact (h.latest v).carry (by rw [log])
  · intro v j who
    rw [handed]
    exact h.lent v j (lent _ v j who)
  · intro i who value
    obtain ⟨before, same⟩ := unread _ who
    rw [same] at value
    exact (h.carries i before value).carry (by rw [handed]) (by rw [cell]) (fun _ _ => by rw [cell])
  · intro i given due
    rw [handed] at given
    exact waiting i given due (onward.trans due) (h.waiting i given (onward.trans due))
  · rcases new with ⟨reads, _⟩ | ⟨v, d, _, _, reads⟩
    · rw [reads]
      exact h.sorted
    · rw [reads, List.map_append, List.pairwise_append]
      refine ⟨h.sorted, List.pairwise_singleton _ _, ?_⟩
      intro i mem k last
      obtain ⟨x, old, rfl⟩ := List.mem_map.mp mem
      rw [List.map_singleton, List.mem_singleton] at last
      rw [last]
      exact h.before x old
  · intro x mem
    rcases new with ⟨reads, _⟩ | ⟨v, d, _, next, reads⟩
    · rw [reads] at mem
      exact (h.before x mem).trans_le onward
    · rw [reads, List.mem_append, List.mem_singleton] at mem
      rcases mem with old | rfl
      · exact (h.before x old).trans_le onward
      · rw [next]
        exact Nat.lt_succ_self _
  · intro x mem
    rw [handed]
    rcases new with ⟨reads, _⟩ | ⟨v, d, given, _, reads⟩
    · rw [reads] at mem
      exact h.same x mem
    · rw [reads, List.mem_append, List.mem_singleton] at mem
      rcases mem with old | rfl
      · exact h.same x old
      · exact given
  · intro i v d earlier given
    rw [handed] at given
    by_cases old : i < s.readTo
    · have mem := h.all i v d old given
      rcases new with ⟨reads, _⟩ | ⟨_, _, _, _, reads⟩
      · rw [reads]
        exact mem
      · rw [reads]
        exact List.mem_append_left _ mem
    · rcases new with ⟨_, _, nothing⟩ | ⟨v', d', there, next, reads⟩
      · rw [nothing i (by omega) earlier] at given
        cases given
      · have here : i = s.readTo := by omega
        subst here
        rw [there] at given
        cases given
        rw [reads]
        exact List.mem_append_right _ (List.mem_singleton_self _)

/-! ## What a step does -/

variable {v : Nat} {d : δ}

/-- Nothing is handed over. -/
structure Still (s s' : Ring δ) : Prop where
  log : s'.log = s.log
  handed : s'.handed = s.handed
  dropped : s.dropped <+: s'.dropped

/-- `w` hands a datagram over at `c`. -/
structure HandsOver (s s' : Ring δ) (w c : Nat) (d : δ) : Prop where
  log : s'.log = update s.log w (s.log w ++ [c])
  handed : s'.handed = update s.handed c (some (w, d))
  dropped : s'.dropped = s.dropped

variable (g) in
/-- What a step on `w`'s side does: to the others nothing, a slot changes only while `w` fills it or has it lent, and `write_index` goes on
by one at most. -/
structure Effect (s s' : Ring δ) (w : Nat) : Prop where
  others : ∀ v, v ≠ w → s'.writers v = s.writers v
  history : Still s s' ∨ ∃ c d, HandsOver s s' w c d
  cell : s'.cell = s.cell ∨ ∃ c x, s'.cell = update s.cell (g.pos c) x ∧
    ((∃ t, (s.writers w).pc = .won t c) ∨ c ∈ (s.writers w).claims)
  write : s'.writeIndex ≤ s.writeIndex + 1

theorem effect_still (others : ∀ v, v ≠ w → s'.writers v = s.writers v) (log : s'.log = s.log) (handed : s'.handed = s.handed)
    (dropped : s'.dropped = s.dropped) (cell : s'.cell = s.cell) (write : s'.writeIndex ≤ s.writeIndex + 1) : Effect g s s' w :=
  ⟨others, .inl ⟨log, handed, by rw [dropped]⟩, .inl cell, write⟩

theorem effect_refl : Effect g s s w := effect_still (fun _ _ => rfl) rfl rfl rfl rfl (Nat.le_succ _)

theorem effect_refuse (t : Task δ) : Effect g s (s.refuse w t) w := by
  cases t with
  | record cell | lend => exact effect_still (fun v other => setPc_other _ other) rfl rfl rfl rfl (Nat.le_succ _)
  | refer j => exact ⟨fun v other => setPc_other _ other, .inl ⟨rfl, rfl, List.prefix_append _ _⟩, .inl rfl, Nat.le_succ _⟩

theorem handsOver_datagram {s₀ : Ring δ} (log : s₀.log = s.log) (handed : s₀.handed = s.handed) (dropped : s₀.dropped = s.dropped)
    (full : s₀.cell (g.pos j) = .datagram d) : HandsOver s (s₀.handOver g w j c) w c d := by
  rw [handOver_datagram full]
  exact ⟨by dsimp only; rw [log], by dsimp only; rw [handed], dropped⟩

theorem handOver_effect {s₀ : Ring δ} (others : ∀ v, v ≠ w → s₀.writers v = s.writers v) (log : s₀.log = s.log)
    (handed : s₀.handed = s.handed) (dropped : s₀.dropped = s.dropped) (cell : s₀.cell = s.cell) (write : s₀.writeIndex = s.writeIndex) :
    Effect g s (s₀.handOver g w j c) w := by
  by_cases bare : ∀ d, s₀.cell (g.pos j) ≠ .datagram d
  · rw [handOver_none bare]
    exact effect_still others log handed dropped cell (write ▸ Nat.le_succ _)
  · push Not at bare
    obtain ⟨d, full⟩ := bare
    have hands : HandsOver s (s₀.handOver g w j c) w c d := handsOver_datagram log handed dropped full
    rw [handOver_datagram full] at hands ⊢
    exact ⟨others, .inr ⟨c, d, hands⟩, .inl cell, write ▸ Nat.le_succ _⟩

theorem writerStep_effect (spurious : Bool) : Effect g s (s.writerStep g w spurious) w := by
  have others : ∀ (s₀ : Ring δ) (pc : WriterPc δ), s₀.writers = s.writers → ∀ v, v ≠ w → (s₀.setPc w pc).writers v = s.writers v := by
    intro s₀ pc same v other
    rw [setPc_other pc other, same]
  have still : ∀ (s₀ : Ring δ) (pc : WriterPc δ), s₀.writers = s.writers → s₀.log = s.log → s₀.handed = s.handed →
      s₀.dropped = s.dropped → s₀.cell = s.cell → s₀.writeIndex ≤ s.writeIndex + 1 → Effect g s (s₀.setPc w pc) w := by
    intro s₀ pc same log handed dropped cell write
    exact effect_still (others s₀ pc same) log handed dropped cell write
  cases pc : (s.writers w).pc with
  | idle =>
    simp only [writerStep, pc]
    exact effect_refl
  | load t | giveBack j =>
    simp only [writerStep, pc]
    exact still _ _ rfl rfl rfl rfl rfl (Nat.le_succ _)
  | range t c =>
    simp only [writerStep, pc]
    split
    · exact effect_refuse t
    · exact still _ _ rfl rfl rfl rfl rfl (Nat.le_succ _)
  | check t c =>
    simp only [writerStep, pc]
    split
    · exact still _ _ rfl rfl rfl rfl rfl (Nat.le_succ _)
    · split
      · exact still _ _ rfl rfl rfl rfl rfl (Nat.le_succ _)
      · split
        · exact still _ _ rfl rfl rfl rfl rfl (Nat.le_succ _)
        · exact effect_refuse t
  | mark t c n | inPlace j =>
    simp only [writerStep, pc]
    split
    · exact still _ _ rfl rfl rfl rfl rfl (Nat.le_succ _)
    · exact still _ _ rfl rfl rfl rfl rfl (Nat.le_succ _)
  | exchange t c | skip t c =>
    simp only [writerStep, pc]
    split
    · exact still _ _ rfl rfl rfl rfl rfl (Nat.le_refl _)
    · exact still _ _ rfl rfl rfl rfl rfl (Nat.le_succ _)
  | won t c =>
    cases t with
    | record x | refer j =>
      simp only [writerStep, pc]
      exact ⟨others _ _ rfl, .inl ⟨rfl, rfl, List.prefix_refl _⟩, .inr ⟨c, _, rfl, .inl ⟨_, pc⟩⟩, Nat.le_succ _⟩
    | lend =>
      simp only [writerStep, pc]
      exact effect_still (fun v other => update_of_ne other _ _) rfl rfl rfl rfl (Nat.le_succ _)
  | filled t c =>
    cases t with
    | record cell | lend | refer j =>
      simp only [writerStep, pc]
      exact handOver_effect (others _ _ rfl) rfl rfl rfl rfl rfl
  | publish j =>
    simp only [writerStep, pc]
    split
    · exact handOver_effect (others _ _ rfl) rfl rfl rfl rfl rfl
    · exact still _ _ rfl rfl rfl rfl rfl (Nat.le_succ _)

theorem readerStep_rest (choice : Choice) : (s.readerStep g choice).writers = s.writers ∧ (s.readerStep g choice).log = s.log ∧
    (s.readerStep g choice).handed = s.handed ∧ (s.readerStep g choice).dropped = s.dropped ∧
    (s.readerStep g choice).cell = s.cell ∧ (s.readerStep g choice).writeIndex ≤ s.writeIndex + 1 := by
  unfold readerStep
  cases pc : s.reader with
  | idle | advance | refReleased => exact ⟨rfl, rfl, rfl, rfl, rfl, Nat.le_succ _⟩
  | passing =>
    refine ⟨rfl, rfl, rfl, rfl, rfl, ?_⟩
    dsimp only
    split
    · exact Nat.le_refl _
    · exact Nat.le_succ _
  | looked sequence =>
    dsimp only
    split
    · cases full : s.cell (g.pos s.readIndex) with
      | ref j => exact ⟨rfl, rfl, rfl, rfl, rfl, Nat.le_succ _⟩
      | datagram | blank | fence =>
        dsimp only
        split
        · exact ⟨rfl, rfl, rfl, rfl, rfl, Nat.le_succ _⟩
        · exact ⟨rfl, rfl, rfl, rfl, rfl, Nat.le_succ _⟩
    · split
      · split
        · exact ⟨rfl, rfl, rfl, rfl, rfl, Nat.le_succ _⟩
        · exact ⟨rfl, rfl, rfl, rfl, rfl, Nat.le_succ _⟩
      · split
        · exact ⟨rfl, rfl, rfl, rfl, rfl, Nat.le_succ _⟩
        · exact ⟨rfl, rfl, rfl, rfl, rfl, Nat.le_succ _⟩
  | reading j | readingRef j =>
    dsimp only
    split
    · exact ⟨rfl, rfl, rfl, rfl, rfl, Nat.le_succ _⟩
    · exact ⟨rfl, rfl, rfl, rfl, rfl, Nat.le_succ _⟩
  | referring j r =>
    dsimp only
    split
    · cases full : s.cell (g.pos j) with
      | datagram | ref | blank | fence => exact ⟨rfl, rfl, rfl, rfl, rfl, Nat.le_succ _⟩
    · exact ⟨rfl, rfl, rfl, rfl, rfl, Nat.le_succ _⟩

theorem start_effect (op : Op δ) : Effect g s (s.start g v op) v := by
  have others : ∀ (s₀ : Ring δ) (x : Writer δ), s₀.writers = s.writers →
      ∀ u, u ≠ v → update s₀.writers v x u = s.writers u := by
    intro s₀ x same u other
    rw [update_of_ne other, same]
  unfold Ring.start
  split
  · exact effect_still (others s _ rfl) rfl rfl rfl rfl (Nat.le_succ _)
  · exact effect_still (others s _ rfl) rfl rfl rfl rfl (Nat.le_succ _)
  · exact effect_still (others s _ rfl) rfl rfl rfl rfl (Nat.le_succ _)
  · split
    · rename_i mem
      exact ⟨others s _ rfl, .inl ⟨rfl, rfl, List.prefix_refl _⟩, .inr ⟨_, _, rfl, .inr mem⟩, Nat.le_succ _⟩
    · exact effect_refl
  · split
    · exact effect_still (others s _ rfl) rfl rfl rfl rfl (Nat.le_succ _)
    · exact effect_refl
  · exact effect_refl

/-- Who takes a step; the reader's and the releases are nobody's. -/
theorem step_effect (event : RingEvent δ) : ∃ v, Effect g s (s.step g event) v := by
  cases event with
  | start v op => exact ⟨v, start_effect op⟩
  | fill v j d =>
    refine ⟨v, ?_⟩
    simp only [step]
    split
    · rename_i mem
      exact ⟨fun _ _ => rfl, .inl ⟨rfl, rfl, List.prefix_refl _⟩, .inr ⟨j, _, rfl, .inr mem⟩, Nat.le_succ _⟩
    · exact effect_refl
  | writer v spurious => exact ⟨v, writerStep_effect spurious⟩
  | reader choice =>
    obtain ⟨writers, log, handed, dropped, cell, write⟩ := readerStep_rest (g := g) (s := s) choice
    exact ⟨0, effect_still (fun v _ => congrFun writers v) log handed dropped cell write⟩
  | release j =>
    simp only [step]
    split
    · exact ⟨0, effect_still (fun _ _ => rfl) rfl rfl rfl rfl (Nat.le_succ _)⟩
    · exact ⟨0, effect_refl⟩

/-- No index comes round in a run that is short enough. -/
theorem timely_of_short {events : List (RingEvent δ)} (short : s.writeIndex + events.length + 4 * g.slots < 2 ^ 31) :
    Run.Sound (step g) (Timely g) s events := by
  induction events generalizing s with
  | nil => trivial
  | cons event rest ih =>
    rw [List.length_cons] at short
    obtain ⟨_, next⟩ := step_effect (g := g) (s := s) event
    have := next.write
    refine ⟨?_, ih (by omega)⟩
    unfold Timely
    split
    · split
      all_goals first | trivial | omega
    · trivial

end Ring

end Segment

end Tickle
