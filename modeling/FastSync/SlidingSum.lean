import Mathlib.Algebra.BigOperators.Group.List.Basic
import Mathlib.Algebra.Module.NatInt
import Mathlib.Tactic.Abel

/-!
# Plain and position-weighted sums of a sliding window

The weighted sum counts the first element of a window once for every element
of the window and the last element once. Moving the window by one element
changes both sums by terms that depend only on the elements that leave and
enter, so both can be maintained without reading the window again.
-/

set_option autoImplicit false

namespace FastSync.SlidingSum

variable {G : Type} [AddCommGroup G]

def weighted : List G → G
  | [] => 0
  | x::xs => (xs.length+1) • x+weighted xs

@[simp] theorem weighted_nil : weighted ([] : List G) = 0 := rfl

@[simp] theorem weighted_cons (x : G) (xs : List G) :
    weighted (x::xs) = (xs.length+1) • x+weighted xs := rfl

theorem weighted_snoc (xs : List G) (y : G) : weighted (xs++[y]) = weighted xs+xs.sum+y := by
  induction xs with
  | nil => simp
  | cons x xs ih =>
    simp only [List.cons_append, weighted_cons, ih, List.length_append, List.length_singleton,
      List.sum_cons, succ_nsmul]
    abel

def accumulate : G × G → List G → G × G
  | s, [] => s
  | s, x::xs => accumulate (s.1+x, s.2+(s.1+x)) xs

theorem accumulate_eq (xs : List G) (s : G × G) :
    accumulate s xs = (s.1+xs.sum, s.2+xs.length • s.1+weighted xs) := by
  induction xs generalizing s with
  | nil => simp [accumulate]
  | cons x xs ih =>
    rw [accumulate, ih]
    ext
    · simp [add_assoc]
    · simp only [weighted_cons, List.length_cons, nsmul_add, succ_nsmul]
      abel

/-- One step of the window: both running sums after the step, computed from
the sums before it and the two elements at its ends. -/
theorem accumulate_slide (x y : G) (xs : List G) (s : G × G) :
    accumulate s (xs++[y]) =
      ((accumulate s (x::xs)).1-x+y,
       (accumulate s (x::xs)).2-(xs.length+1) • x+((accumulate s (x::xs)).1-x+y)-s.1) := by
  rw [accumulate_eq, accumulate_eq, weighted_snoc]
  ext
  · simp only [List.sum_append, List.sum_cons, List.sum_nil]
    abel
  · simp only [List.sum_cons, List.length_append, List.length_cons, List.length_nil,
      weighted_cons, succ_nsmul]
    abel

end FastSync.SlidingSum
