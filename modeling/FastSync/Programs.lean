import Mathlib.Logic.Basic

/-!
# Programs over a state

A program takes a state to a result and a new state. What a program may do to
the state is a relation between the state before and the state after it; for a
reflexive and transitive relation the effects of the parts give the effect of
the whole.
-/

set_option autoImplicit false

namespace FastSync.Programs

variable {σ α β : Type}

def Prog (σ α : Type) : Type := σ → α × σ

instance : Monad (Prog σ) where
  pure a := fun s => (a,s)
  bind m f := fun s => f (m s).1 (m s).2

theorem pure_apply (a : α) (s : σ) : (pure a : Prog σ α) s = (a,s) := rfl

theorem bind_apply (m : Prog σ α) (f : α → Prog σ β) (s : σ) :
    (m >>= f) s = f (m s).1 (m s).2 := rfl

/-- Every run of `m` moves the state along `R` and returns a value in `Q`. -/
def Effect (R : σ → σ → Prop) (m : Prog σ α) (Q : α → Prop) : Prop :=
  ∀ s, R s (m s).2 ∧ Q (m s).1

/-- The relations that describe effects. -/
structure Composable (R : σ → σ → Prop) : Prop where
  refl : ∀ s, R s s
  trans : ∀ s s' s'', R s s' → R s' s'' → R s s''

section Rules

variable {R : σ → σ → Prop} {P : α → Prop} {Q : β → Prop}

theorem effect_pure (hR : Composable R) {a : α} (h : P a) : Effect R (pure a) P :=
  fun s => ⟨hR.refl s,h⟩

theorem effect_bind (hR : Composable R) {m : Prog σ α} {f : α → Prog σ β} (hm : Effect R m P)
    (hf : ∀ a, P a → Effect R (f a) Q) : Effect R (m >>= f) Q := by
  intro s
  have h := hf (m s).1 (hm s).2 (m s).2
  exact ⟨hR.trans _ _ _ (hm s).1 h.1,h.2⟩

theorem effect_mono {P' : α → Prop} {m : Prog σ α} (hm : Effect R m P) (h : ∀ a, P a → P' a) :
    Effect R m P' := fun s => ⟨(hm s).1,h _ (hm s).2⟩

theorem effect_ite {c : Prop} [Decidable c] {m n : Prog σ α} (hm : c → Effect R m P)
    (hn : ¬c → Effect R n P) : Effect R (if c then m else n) P := by
  split
  · exact hm ‹_›
  · exact hn ‹_›

end Rules

section Folds

variable {R : σ → σ → Prop} {Inv : β → Prop}

def fold (step : α → β → Prog σ β) : List α → β → Prog σ β
  | [], b => pure b
  | a::as, b => do
    let b' ← step a b
    fold step as b'

theorem effect_fold (hR : Composable R) {step : α → β → Prog σ β}
    (hstep : ∀ a b, Inv b → Effect R (step a b) Inv) {as : List α} (b : β) (h : Inv b) :
    Effect R (fold step as b) Inv := by
  induction as generalizing b with
  | nil => exact effect_pure hR h
  | cons a as ih => exact effect_bind hR (hstep a b h) fun b' h' => ih b' h'

end Folds

end FastSync.Programs
