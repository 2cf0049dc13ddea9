import Mathlib.Data.Nat.Notation

/-!
# Deterministic machines

A machine is a partial step function. It is run with fuel, and a measure that
every step decreases shows that the fuel suffices and the run stops.
-/

set_option autoImplicit false

namespace FastSync.Machine

variable {σ : Type*}

def run (step : σ → Option σ) : ℕ → σ → σ
  | 0, s => s
  | fuel+1, s =>
    match step s with
    | none => s
    | some s' => run step fuel s'

theorem run_invariant (step : σ → Option σ) (Inv : σ → Prop)
    (hstep : ∀ s s', Inv s → step s = some s' → Inv s') (fuel : ℕ) (s : σ) (h : Inv s) :
    Inv (run step fuel s) := by
  induction fuel generalizing s with
  | zero => exact h
  | succ fuel ih =>
    rw [run]
    split
    · exact h
    · rename_i s' hs'
      exact ih s' (hstep s s' h hs')

/-- With as much fuel as the measure the machine has stopped. -/
theorem run_stops {step : σ → Option σ} {measure : σ → ℕ}
    (hstep : ∀ s s', step s = some s' → measure s' < measure s) {fuel : ℕ} (s : σ)
    (h : measure s ≤ fuel) : step (run step fuel s) = none := by
  induction fuel generalizing s with
  | zero =>
    cases hs : step s with
    | none => exact hs
    | some s' =>
      have := hstep s s' hs
      omega
  | succ fuel ih =>
    rw [run]
    split
    · assumption
    · rename_i s' hs'
      have := hstep s s' hs'
      exact ih s' (by omega)

end FastSync.Machine
