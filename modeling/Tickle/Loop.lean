import Mathlib

/-! # Bounded loops

`while (cond s) s = body s` with a bound on the number of rounds. A loop whose measure is at most
its bound leaves it by its own condition, so the bound is never what ended it:

* an invariant kept by the body holds of the result (`whileN_invariant`);
* a loop whose measure falls on every round ends with its condition false (`whileN_exit`);
* what each round adds to a figure and takes from it, summed over the rounds, is the difference between
  its first and its last value (`whileN_balance`).
-/

namespace Loop

variable {σ : Type*}

def whileN (cond : σ → Bool) (body : σ → σ) : Nat → σ → σ
  | 0, s => s
  | fuel + 1, s => if cond s then whileN cond body fuel (body s) else s

variable {cond : σ → Bool} {body : σ → σ}

theorem whileN_of_not {s : σ} (h : cond s = false) (fuel : Nat) :
    whileN cond body fuel s = s := by
  cases fuel with
  | zero => rfl
  | succ fuel => simp [whileN, h]

theorem whileN_step {s : σ} (h : cond s = true) (fuel : Nat) :
    whileN cond body (fuel + 1) s = whileN cond body fuel (body s) := by
  simp [whileN, h]

/-- A map that neither the condition nor the body sees. -/
theorem whileN_comm (g : σ → σ) (seen : ∀ s, cond (g s) = cond s) (moves : ∀ s, body (g s) = g (body s)) (fuel : Nat)
    (s : σ) : whileN cond body fuel (g s) = g (whileN cond body fuel s) := by
  induction fuel generalizing s with
  | zero => rfl
  | succ fuel ih =>
    unfold whileN
    rw [seen, moves, ih]
    split
    · rfl
    · rfl

theorem whileN_invariant {P : σ → Prop} (step : ∀ s, cond s = true → P s → P (body s))
    (fuel : Nat) {s : σ} (h : P s) : P (whileN cond body fuel s) := by
  induction fuel generalizing s with
  | zero => exact h
  | succ fuel ih =>
    unfold whileN
    split
    · next hc => exact ih (step s hc h)
    · exact h

/-- The measure needs to fall only on states the invariant describes. -/
theorem whileN_exit {P : σ → Prop} (measure : σ → Nat)
    (step : ∀ s, cond s = true → P s → P (body s))
    (falls : ∀ s, cond s = true → P s → measure (body s) < measure s)
    (fuel : Nat) {s : σ} (h : P s) (hm : measure s ≤ fuel) :
    cond (whileN cond body fuel s) = false := by
  induction fuel generalizing s with
  | zero =>
    cases hc : cond s with
    | false => exact hc
    | true => have := falls s hc h; omega
  | succ fuel ih =>
    unfold whileN
    split
    · next hc =>
      have := falls s hc h
      exact ih (step s hc h) (by omega)
    · next hc => simpa using hc

/-- The states the body is run in. -/
def rounds (cond : σ → Bool) (body : σ → σ) : Nat → σ → List σ
  | 0, _ => []
  | fuel + 1, s => if cond s then s :: rounds cond body fuel (body s) else []

theorem whileN_balance {P : σ → Prop} (figure : σ → Nat) {adds takes : σ → Bool}
    (step : ∀ s, cond s = true → P s → P (body s))
    (balance : ∀ s, cond s = true → P s →
      figure (body s) + (takes s).toNat = figure s + (adds s).toNat)
    (fuel : Nat) {s : σ} (h : P s) :
    figure (whileN cond body fuel s) + (rounds cond body fuel s).countP takes =
      figure s + (rounds cond body fuel s).countP adds := by
  induction fuel generalizing s with
  | zero => rfl
  | succ fuel ih =>
    unfold whileN rounds
    split
    · next hc =>
      have rest := ih (step s hc h)
      have round := balance s hc h
      have asNat : ∀ b : Bool, (if b = true then 1 else 0) = b.toNat := by decide
      rw [List.countP_cons, List.countP_cons, asNat, asNat]
      omega
    · rfl

end Loop
