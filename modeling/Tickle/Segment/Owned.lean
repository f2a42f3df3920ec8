import Tickle.Segment.Ring

/-! # Who has which slot

The invariant of the ring: what the sequence of a slot says fits who has it, and what a writer or the reader
is about to do rests on the slots that are its own. It holds in every state as long as no index comes round
while a writer has it loaded (`Timely`).
-/

namespace Tickle

namespace Segment

namespace Ring

variable {δ : Type} {g : Geometry} {s s' : Ring δ} {p b m j w c i : Nat}

variable (g s) in
/-- A slot claimed or read at `j` is held, marked last at `b`. -/
structure Held (b m j : Nat) : Prop where
  phase : m = 2 ∨ m = 3
  same : g.pos j = g.pos b
  after : j ≤ b
  claimed : j < s.writeIndex
  upper : b ≤ s.writeIndex
  lower : s.writeIndex ≤ b + g.slots
  passed : m = 3 → b ≤ s.readIndex

variable (g s) in
/-- What the sequence `b + m` of a slot says of it, by who has it. -/
def State (b m : Nat) : Owner → Prop
  | .free => m = 0 ∧ s.writeIndex ≤ b ∧ b ≤ s.writeIndex + g.slots
  | .filling _ => m = 0 ∧ s.readIndex ≤ b ∧ b < s.writeIndex
  | .unread => m = 1 ∧ s.readIndex ≤ b ∧ b < s.writeIndex ∧
      ∀ j, s.cell (g.pos b) = .ref j → s.owner (g.pos j) = .referred b j
  | .reading => m = 1 ∧ b + 1 = s.readIndex ∧ s.writeIndex ≤ b + g.slots ∧ s.reader = .reading b
  | .lent _ j => s.Held g b m j ∧ (m = 2 → s.readIndex ≤ b)
  | .referred r j => s.Held g b m j ∧ (m = 2 → s.readIndex ≤ b) ∧ j < r ∧ r + 4 * g.slots < j + 2 ^ 31
  | .referring j => s.Held g b m j ∧ (m = 2 → s.readIndex ≤ b)
  | .kept j => s.Held g b m j

variable (g s) in
def Fits (p : Nat) : Prop := ∃ b m, s.sequence p = b + m ∧ g.pos b = p ∧ s.State g b m (s.owner p)

theorem State.phase_lt {o : Owner} (h : s.State g b m o) : m < 4 := by
  cases o with
  | free | filling w | unread | reading => have := h.1; omega
  | lent w j | referred r j | referring j => have := h.1.phase; omega
  | kept j => have := h.phase; omega

/-- What a sequence says, once it is known. -/
theorem Fits.state (h : s.Fits g p) (value : s.sequence p = b + m) (here : g.pos b = p) (small : m < 4) :
    s.State g b m (s.owner p) := by
  obtain ⟨b', m', value', here', state⟩ := h
  obtain ⟨rfl, rfl⟩ := Geometry.phase_unique (here'.trans here.symm) (value'.symm.trans value) state.phase_lt small
  exact state

variable (g s) in
/-- Index `c` has been passed over. -/
def Passed (c : Nat) : Prop :=
  s.sequence (g.pos c) = c + 2 ∨ s.sequence (g.pos c) = c + 3 ∨ s.sequence (g.pos c) = c + g.slots

variable (g s) in
/-- The reader has passed its head over, or given the slot back. -/
def PassedHead : Prop :=
  s.sequence (g.pos s.readIndex) = s.readIndex + 3 ∨
    s.sequence (g.pos s.readIndex) = s.readIndex + g.slots

variable (g s) in
/-- The writer has lent the slot, and the application has given it back. -/
def Returned (w j : Nat) : Prop := s.owner (g.pos j) = .lent w j ∧ j ∉ (s.writers w).claims

variable (g s) in
/-- The claim a reference is for is the writer's, its record complete; a record is no reference. -/
def Mine (w : Nat) : Task δ → Prop
  | .record cell => ∀ j, cell ≠ .ref j
  | .lend => True
  | .refer j => s.Returned g w j ∧ ∃ d, s.cell (g.pos j) = .datagram d

/-- The reference comes after the claim. -/
def Behind (c : Nat) : Task δ → Prop
  | .refer j => j < c
  | _ => True

/-- What a task writes into its slot. -/
def Written : Task δ → Cell δ → Prop
  | .record cell, written => written = cell
  | .lend, _ => False
  | .refer j, written => written = .ref j

variable (g s) in
/-- What a writer's next step rests on. -/
def WriterFits (w : Nat) : WriterPc δ → Prop
  | .idle => True
  | .load t => s.Mine g w t
  | .range t c => s.Mine g w t ∧ Behind c t ∧ c ≤ s.writeIndex
  | .check t c => s.Mine g w t ∧ Behind c t ∧ c ≤ s.writeIndex ∧ c < s.readIndex + g.slots
  | .exchange t c => s.Mine g w t ∧ Behind c t ∧ c ≤ s.writeIndex ∧ c < s.readIndex + g.slots ∧
      (s.writeIndex = c → s.sequence (g.pos c) = c)
  | .mark t c sq => s.Mine g w t ∧ Behind c t ∧ c ≤ s.writeIndex ∧ c < s.readIndex + g.slots ∧
      (sq + g.slots = c + 2 ∨ sq + g.slots = c + 3)
  | .skip t c => s.Mine g w t ∧ Behind c t ∧ c ≤ s.writeIndex ∧ c < s.readIndex + g.slots ∧
      (s.writeIndex = c → s.Passed g c)
  | .won t c => s.Mine g w t ∧ Behind c t ∧ s.owner (g.pos c) = .filling w ∧ s.sequence (g.pos c) = c
  | .filled t c => s.Mine g w t ∧ Behind c t ∧ s.owner (g.pos c) = .filling w ∧ s.sequence (g.pos c) = c ∧
      Written t (s.cell (g.pos c))
  | .inPlace j => s.Mine g w (.refer j)
  | .publish j => s.Mine g w (.refer j)
  | .giveBack j => s.Returned g w j

variable (g s) in
/-- What the reader's next step rests on. -/
def ReaderFits : ReaderPc → Prop
  | .idle => True
  | .looked sq => s.readIndex ≤ sq + g.slots ∧ sq ≤ s.readIndex + 2 * g.slots + 3 ∧
      (sq = s.readIndex + 1 → s.sequence (g.pos s.readIndex) = s.readIndex + 1) ∧
      (sq = s.readIndex + 3 ∨ sq = s.readIndex + g.slots → s.PassedHead g)
  | .passing => s.PassedHead g
  | .advance => s.readIndex < s.writeIndex ∧ s.PassedHead g
  | .reading b => b + 1 = s.readIndex ∧ s.owner (g.pos b) = .reading ∧ s.sequence (g.pos b) = b + 1
  | .refReleased j => s.readIndex < s.writeIndex ∧
      s.sequence (g.pos s.readIndex) = s.readIndex + g.slots ∧ s.owner (g.pos j) = .referring j ∧
      j < s.readIndex ∧ s.readIndex + 4 * g.slots < j + 2 ^ 31
  | .referring j r => r + 1 = s.readIndex ∧ s.owner (g.pos j) = .referring j ∧ j < r ∧
      r + 4 * g.slots < j + 2 ^ 31
  | .readingRef j => s.owner (g.pos j) = .referring j

variable (g s) in
/-- The invariant. -/
structure Owned : Prop where
  lower : s.readIndex ≤ s.writeIndex
  upper : s.writeIndex ≤ s.readIndex + g.slots
  fits : ∀ p < g.slots, s.Fits g p
  writer : ∀ w, s.WriterFits g w (s.writers w).pc
  reader : s.ReaderFits g s.reader
  claims : ∀ w, ∀ j ∈ (s.writers w).claims, s.owner (g.pos j) = .lent w j
  once : ∀ w, (s.writers w).claims.Nodup
  retained : ∀ j ∈ s.retained, s.owner (g.pos j) = .kept j
  retained_once : s.retained.Nodup

theorem create_owned : (create : Ring δ).Owned g where
  lower := Nat.zero_le _
  upper := Nat.zero_le _
  fits := by
    intro p below
    refine ⟨p, 0, rfl, Nat.mod_eq_of_lt below, rfl, Nat.zero_le p, ?_⟩
    simp only [create, Nat.zero_add]
    omega
  writer := fun _ => trivial
  reader := trivial
  claims := by simp [create]
  once := by simp [create]
  retained := by simp [create]
  retained_once := by simp [create]

variable (g s) in
/-- No index comes round while a writer has it loaded, and a claim is published within half the indices. -/
def Timely : RingEvent δ → Prop
  | .writer w _ =>
    match (s.writers w).pc with
    | .range _ c | .check _ c | .exchange _ c | .mark _ c _ | .skip _ c => s.writeIndex + 4 * g.slots < c + 2 ^ 32
    | .filled (.refer j) _ | .inPlace j | .publish j => s.writeIndex + 4 * g.slots < j + 2 ^ 31
    | _ => True
  | _ => True

/-! ## What a step leaves as it is -/

theorem Held.carry (h : s.Held g b m j) (write : s.writeIndex ≤ s'.writeIndex) (read : s.readIndex ≤ s'.readIndex)
    (lap : s.writeIndex ≤ b + g.slots → s'.writeIndex ≤ b + g.slots) : s'.Held g b m j where
  phase := h.phase
  same := h.same
  after := h.after
  claimed := h.claimed.trans_le write
  upper := h.upper.trans write
  lower := lap h.lower
  passed := fun three => (h.passed three).trans read

/-- A slot's state while the indices move on. -/
theorem State.carry {o : Owner} (h : s.State g b m o) (write : s.writeIndex ≤ s'.writeIndex)
    (read : s.readIndex ≤ s'.readIndex) (ahead : m = 0 → s.writeIndex ≤ b → s'.writeIndex ≤ b)
    (lap : s.writeIndex ≤ b + g.slots → s'.writeIndex ≤ b + g.slots)
    (behind : m < 3 → s.readIndex ≤ b → b ≤ s.writeIndex → s'.readIndex ≤ b)
    (refs : o = .unread → ∀ j, (s.cell (g.pos b) = .ref j → s.owner (g.pos j) = .referred b j) →
      s'.cell (g.pos b) = .ref j → s'.owner (g.pos j) = .referred b j)
    (reading : o = .reading → s'.readIndex = s.readIndex ∧ s'.reader = s.reader) : s'.State g b m o := by
  have four := g.four_le_slots
  cases o with
  | free =>
    obtain ⟨zero, least, most⟩ := h
    have := ahead zero least
    exact ⟨zero, this, by omega⟩
  | filling w =>
    obtain ⟨zero, least, most⟩ := h
    exact ⟨zero, behind (by omega) least most.le, by omega⟩
  | unread =>
    obtain ⟨one, least, most, target⟩ := h
    exact ⟨one, behind (by omega) least most.le, by omega, fun j => refs rfl j (target j)⟩
  | reading =>
    obtain ⟨one, head, most, pc⟩ := h
    obtain ⟨read', reader'⟩ := reading rfl
    exact ⟨one, head.trans read'.symm, lap most, reader'.trans pc⟩
  | lent w j =>
    refine ⟨h.1.carry write read lap, ?_⟩
    intro two
    exact behind (by omega) (h.2 two) h.1.upper
  | referred r j =>
    refine ⟨h.1.carry write read lap, ?_, h.2.2⟩
    intro two
    exact behind (by omega) (h.2.1 two) h.1.upper
  | referring j =>
    refine ⟨h.1.carry write read lap, ?_⟩
    intro two
    exact behind (by omega) (h.2 two) h.1.upper
  | kept j => exact Held.carry h write read lap

/-- A writer's next step while the indices and others' slots move on. -/
theorem WriterFits.carry {pc : WriterPc δ} (h : s.WriterFits g w pc) (write : s.writeIndex ≤ s'.writeIndex)
    (read : s.readIndex ≤ s'.readIndex)
    (next : s'.writeIndex = s.writeIndex → s.sequence (g.pos s.writeIndex) = s.writeIndex →
      s'.sequence (g.pos s.writeIndex) = s.writeIndex)
    (passed : s'.writeIndex = s.writeIndex → s.Passed g s.writeIndex → s'.Passed g s.writeIndex)
    (returned : ∀ j, s.Returned g w j → s'.Returned g w j ∧ s'.cell (g.pos j) = s.cell (g.pos j))
    (filling : ∀ p, s.owner p = .filling w →
      s'.owner p = .filling w ∧ s'.sequence p = s.sequence p ∧ s'.cell p = s.cell p) : s'.WriterFits g w pc := by
  have mine : ∀ t : Task δ, s.Mine g w t → s'.Mine g w t := by
    intro t own
    cases t with
    | record cell => exact own
    | lend => trivial
    | refer j =>
      obtain ⟨returned', cell'⟩ := returned j own.1
      exact ⟨returned', by rw [cell']; exact own.2⟩
  cases pc with
  | idle => trivial
  | load t => exact mine t h
  | range t c => exact ⟨mine t h.1, h.2.1, h.2.2.trans write⟩
  | check t c =>
    obtain ⟨own, after, most, room⟩ := h
    exact ⟨mine t own, after, most.trans write, by omega⟩
  | exchange t c =>
    obtain ⟨own, after, most, room, free⟩ := h
    refine ⟨mine t own, after, most.trans write, by omega, ?_⟩
    intro here
    have same : s.writeIndex = c := by omega
    have := next (by omega) (by rw [same]; exact free same)
    rwa [same] at this
  | mark t c sq =>
    obtain ⟨own, after, most, room, held⟩ := h
    exact ⟨mine t own, after, most.trans write, by omega, held⟩
  | skip t c =>
    obtain ⟨own, after, most, room, pass⟩ := h
    refine ⟨mine t own, after, most.trans write, by omega, ?_⟩
    intro here
    have same : s.writeIndex = c := by omega
    have := passed (by omega) (by rw [same]; exact pass same)
    rwa [same] at this
  | won t c =>
    obtain ⟨own, after, who, value⟩ := h
    obtain ⟨owner', sequence', _⟩ := filling _ who
    exact ⟨mine t own, after, owner', sequence'.trans value⟩
  | filled t c =>
    obtain ⟨own, after, who, value, written⟩ := h
    obtain ⟨owner', sequence', cell'⟩ := filling _ who
    exact ⟨mine t own, after, owner', sequence'.trans value, by rw [cell']; exact written⟩
  | inPlace j | publish j => exact mine (.refer j) h
  | giveBack j => exact (returned j h).1

/-- The reader's next step while others move on. -/
theorem ReaderFits.carry {pc : ReaderPc} (h : s.ReaderFits g pc) (write : s.writeIndex ≤ s'.writeIndex)
    (read : s'.readIndex = s.readIndex)
    (unread : s.sequence (g.pos s.readIndex) = s.readIndex + 1 → s'.sequence (g.pos s.readIndex) = s.readIndex + 1)
    (passed : s.PassedHead g → s'.PassedHead g)
    (given : s.sequence (g.pos s.readIndex) = s.readIndex + g.slots →
      s'.sequence (g.pos s.readIndex) = s.readIndex + g.slots)
    (reading : ∀ p, s.owner p = .reading → s'.owner p = .reading ∧ s'.sequence p = s.sequence p)
    (referring : ∀ p j, s.owner p = .referring j → s'.owner p = .referring j) : s'.ReaderFits g pc := by
  cases pc with
  | idle => trivial
  | looked sq =>
    obtain ⟨least, most, one, pass⟩ := h
    unfold ReaderFits
    rw [read]
    exact ⟨least, most, fun here => unread (one here), fun here => passed (pass here)⟩
  | passing => exact passed h
  | advance => exact ⟨by have := h.1; omega, passed h.2⟩
  | reading b =>
    obtain ⟨head, who, value⟩ := h
    obtain ⟨owner', sequence'⟩ := reading _ who
    exact ⟨head.trans read.symm, owner', sequence'.trans value⟩
  | refReleased j =>
    obtain ⟨less, value, who, behind, near⟩ := h
    unfold ReaderFits
    rw [read]
    exact ⟨less.trans_le write, given value, referring _ _ who, behind, near⟩
  | referring j r =>
    obtain ⟨head, who, behind, near⟩ := h
    exact ⟨head.trans read.symm, referring _ _ who, behind, near⟩
  | readingRef j => exact referring _ _ h

end Ring

end Segment

end Tickle
