import Mathlib

/-! # Runs

A state machine given by its step function, run over a list of events. A run is sound when every step
of it meets a condition in the state it is taken in; what sound steps keep, sound runs keep
(`keeps`), and what every step keeps, every run keeps (`always`).
-/

namespace Run

variable {σ ε : Type*} {step : σ → ε → σ}

/-- The state after the events. -/
def after (step : σ → ε → σ) (s : σ) (events : List ε) : σ := events.foldl step s

def Sound (step : σ → ε → σ) (ok : σ → ε → Prop) : σ → List ε → Prop
  | _, [] => True
  | s, event :: rest => ok s event ∧ Sound step ok (step s event) rest

instance Sound.decidable {ok : σ → ε → Prop} [∀ s event, Decidable (ok s event)] :
    ∀ s events, Decidable (Sound step ok s events)
  | _, [] => isTrue trivial
  | s, event :: rest =>
    @instDecidableAnd (ok s event) (Sound step ok (step s event) rest) _
      (Sound.decidable (step s event) rest)

theorem Sound.imp {ok ok' : σ → ε → Prop} (weaker : ∀ s event, ok s event → ok' s event) {s : σ}
    {events : List ε} (sound : Sound step ok s events) : Sound step ok' s events := by
  induction events generalizing s with
  | nil => trivial
  | cons event rest ih => exact ⟨weaker s event sound.1, ih sound.2⟩

theorem keeps {ok : σ → ε → Prop} {inv : σ → Prop}
    (kept : ∀ s event, inv s → ok s event → inv (step s event)) {s : σ} {events : List ε}
    (h : inv s) (sound : Sound step ok s events) : inv (after step s events) := by
  induction events generalizing s with
  | nil => exact h
  | cons event rest ih => exact ih (kept s event h sound.1) sound.2

theorem always {inv : σ → Prop} (kept : ∀ s event, inv s → inv (step s event)) {s : σ} (h : inv s)
    (events : List ε) : inv (after step s events) := by
  induction events generalizing s with
  | nil => exact h
  | cons event rest ih => exact ih (kept s event h)

theorem after_append (s : σ) (before rest : List ε) :
    after step s (before ++ rest) = after step (after step s before) rest := by
  simp [after]

theorem sound_append {ok : σ → ε → Prop} {s : σ} {before rest : List ε} :
    Sound step ok s (before ++ rest) ↔ Sound step ok s before ∧ Sound step ok (after step s before) rest := by
  induction before generalizing s with
  | nil => simp [Sound, after]
  | cons event before ih =>
    simp only [List.cons_append, Sound, ih, and_assoc]
    rfl

end Run
