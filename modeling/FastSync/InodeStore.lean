import Mathlib.Data.Nat.Notation
import Mathlib.Tactic.SplitIfs

/-!
# Directories of numbered objects

Names in directories denote numbered objects, and several names may denote the
same one. Every number in use is below a bound, so that a new object never
coincides with one a name already denotes.
-/

set_option autoImplicit false

namespace FastSync.InodeStore

/-- Directories `D` with names `N`, over objects with contents `β`. -/
structure Volume (D N β : Type*) where
  entries : D → N → Option ℕ
  content : ℕ → β
  next : ℕ
  bounded : ∀ d n i, entries d n = some i → i < next

namespace Volume

variable {D N β : Type*} [DecidableEq D] [DecidableEq N]

def empty (b : β) : Volume D N β where
  entries := fun _ _ => none
  content := fun _ => b
  next := 0
  bounded := fun _ _ _ h => nomatch h

def setEntry (e : D → N → Option ℕ) (d : D) (n : N) (x : Option ℕ) : D → N → Option ℕ :=
  fun d' n' => if d' = d ∧ n' = n then x else e d' n'

section
variable (e : D → N → Option ℕ)

theorem setEntry_self (d : D) (n : N) (x : Option ℕ) : setEntry e d n x d n = x := if_pos ⟨rfl,rfl⟩

theorem setEntry_ne (d d' : D) (n n' : N) (x : Option ℕ) (h : ¬(d' = d ∧ n' = n)) :
    setEntry e d n x d' n' = e d' n' := if_neg h

theorem setEntry_restore (d : D) (n : N) (x : Option ℕ) :
    setEntry (setEntry e d n x) d n (e d n) = e := by
  funext d' n'
  by_cases h : d' = d ∧ n' = n
  · rw [h.1, h.2, setEntry_self]
  · rw [setEntry_ne _ _ _ _ _ _ h, setEntry_ne _ _ _ _ _ _ h]

end

def denotes (v : Volume D N β) (d : D) (n : N) : Option (ℕ × β) :=
  (v.entries d n).map fun i => (i, v.content i)

def fill (v : Volume D N β) (i : ℕ) (b : β) : Volume D N β :=
  { v with content := fun j => if j = i then b else v.content j }

def create (v : Volume D N β) (d : D) (n : N) (b : β) : Volume D N β where
  entries := setEntry v.entries d n (some v.next)
  content := fun j => if j = v.next then b else v.content j
  next := v.next+1
  bounded := by
    intro d' n' i h
    unfold setEntry at h
    split_ifs at h
    · cases h
      exact Nat.lt_succ_self _
    · exact Nat.lt_succ_of_lt (v.bounded d' n' i h)

def unlink (v : Volume D N β) (d : D) (n : N) : Volume D N β where
  entries := setEntry v.entries d n none
  content := v.content
  next := v.next
  bounded := by
    intro d' n' i h
    unfold setEntry at h
    split_ifs at h
    exact v.bounded d' n' i h

def link (v : Volume D N β) (d : D) (n : N) (d' : D) (n' : N) : Volume D N β where
  entries := setEntry v.entries d' n' (v.entries d n)
  content := v.content
  next := v.next
  bounded := by
    intro d'' n'' i h
    unfold setEntry at h
    split_ifs at h
    · exact v.bounded d n i h
    · exact v.bounded d'' n'' i h

/-- Moves a name; two names of one object are both left in place. -/
def rename (v : Volume D N β) (d : D) (n : N) (d' : D) (n' : N) : Volume D N β :=
  if v.entries d n = v.entries d' n' then v else (v.link d n d' n').unlink d n

section
variable (v : Volume D N β) (d : D) (n : N) (d' : D) (n' : N)

theorem rename_of_ne (h : v.entries d n ≠ v.entries d' n') :
    v.rename d n d' n' = (v.link d n d' n').unlink d n := if_neg h

theorem rename_of_eq (h : v.entries d n = v.entries d' n') : v.rename d n d' n' = v := if_pos h

end

end Volume

end FastSync.InodeStore
