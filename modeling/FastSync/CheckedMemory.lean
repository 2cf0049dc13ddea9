import Mathlib.Algebra.Ring.Nat
import Mathlib.Data.List.Basic
import Mathlib.Data.List.TakeDrop
import Mathlib.Logic.Function.Basic

/-!
# Checked memory accesses

A computation over buffers it was handed has three outcomes: it touches memory
outside those buffers, it refuses its input, or it returns a value. The first
outcome is sticky, so a computation that ends in one of the others has made no
access out of bounds on the way.
-/

set_option autoImplicit false

namespace FastSync.CheckedMemory

def uint32Max : ℕ := 2^32-1
def uint64Max : ℕ := 2^64-1
def sizeMax : ℕ := 2^64-1

inductive Checked (α : Type) where
  | fault
  | reject
  | done (a : α)
deriving DecidableEq, Repr

def Checked.bind {α β : Type} : Checked α → (α → Checked β) → Checked β
  | .fault, _ => .fault
  | .reject, _ => .reject
  | .done a, f => f a

instance : Monad Checked where
  pure := .done
  bind := .bind

variable {α : Type}

@[simp] theorem pure_done (a : α) : (pure a : Checked α) = .done a := rfl

variable {β : Type}

@[simp] theorem done_bind (a : α) (f : α → Checked β) :
    (Checked.done a >>= f) = f a := rfl

@[simp] theorem reject_bind (f : α → Checked β) :
    ((Checked.reject : Checked α) >>= f) = .reject := rfl

@[simp] theorem fault_bind (f : α → Checked β) :
    ((Checked.fault : Checked α) >>= f) = .fault := rfl

theorem bind_eq_done {x : Checked α} {f : α → Checked β} {b : β} :
    (x >>= f) = .done b ↔ ∃ a, x = .done a ∧ f a = .done b := by
  cases x <;> simp

def require (p : Prop) [Decidable p] : Checked Unit :=
  if p then .done () else .reject

@[simp] theorem require_pos {p : Prop} [Decidable p] (h : p) : require p = .done () := if_pos h

@[simp] theorem require_neg {p : Prop} [Decidable p] (h : ¬p) : require p = .reject := if_neg h

theorem require_congr {p q : Prop} [Decidable p] [Decidable q] (h : p ↔ q) :
    require p = require q := by
  simp [require, h]

def Ensures {α : Type} (x : Checked α) (post : α → Prop) : Prop :=
  match x with
  | .fault => False
  | .reject => True
  | .done a => post a

@[simp] theorem ensures_done (a : α) (post : α → Prop) :
    Ensures (.done a) post ↔ post a := Iff.rfl

theorem ensures_bind {x : Checked α} {f : α → Checked β} {mid : α → Prop}
    {post : β → Prop} (hx : Ensures x mid) (hf : ∀ a, mid a → Ensures (f a) post) :
    Ensures (x >>= f) post := by
  cases x with
  | fault => exact hx
  | reject => trivial
  | done a => exact hf a hx

theorem ensures_mono {x : Checked α} {post post' : α → Prop} (hx : Ensures x post)
    (h : ∀ a, post a → post' a) : Ensures x post' := by
  cases x with
  | fault => exact hx
  | reject => trivial
  | done a => exact h a hx

theorem ensures_require {p : Prop} [Decidable p] {f : Unit → Checked β}
    {post : β → Prop} (h : p → Ensures (f ()) post) : Ensures (require p >>= f) post := by
  by_cases hp : p
  · rw [require_pos hp]
    exact h hp
  · rw [require_neg hp]
    trivial

def slice {α : Type} (buf : List α) (pos len : ℕ) : Checked (List α) :=
  if pos+len ≤ buf.length then .done ((buf.drop pos).take len) else .fault

def sliceExact {α : Type} (buf : List α) (pos len : ℕ) : Checked {xs : List α // xs.length = len} :=
  if h : pos+len ≤ buf.length then
    .done ⟨(buf.drop pos).take len,by rw [List.length_take, List.length_drop]; omega⟩
  else .fault

def load {α : Type} (buf : List α) (pos : ℕ) : Checked α :=
  match buf[pos]? with
  | some a => .done a
  | none => .fault

def store {α : Type} (buf : List α) (pos : ℕ) (a : α) : Checked (List α) :=
  if pos < buf.length then .done (buf.set pos a) else .fault

section
variable {buf : List α} {pos len : ℕ} (h : pos+len ≤ buf.length)
include h

theorem slice_done : slice buf pos len = .done ((buf.drop pos).take len) := if_pos h

theorem sliceExact_done :
    sliceExact buf pos len =
      .done ⟨(buf.drop pos).take len,by rw [List.length_take, List.length_drop]; omega⟩ := dif_pos h

end

theorem slice_mid (xs ys zs : List α) : slice (xs++ys++zs) xs.length ys.length = .done ys := by
  rw [slice_done (by simp)]
  simp

section
variable {buf : List α} {pos : ℕ}

theorem load_done (h : pos < buf.length) : load buf pos = .done buf[pos] := by
  simp [load, h]

theorem load_eq_done {a : α} : load buf pos = .done a ↔ buf[pos]? = some a := by
  unfold load
  cases h : buf[pos]? <;> simp

theorem store_done {a : α} (h : pos < buf.length) :
    store buf pos a = .done (buf.set pos a) := if_pos h

end

def Holds {α : Type} (buf : List α) (n : ℕ) (f : ℕ → α) : Prop := ∀ i < n, buf[i]? = some (f i)

section
variable {buf : List α} {n : ℕ} {f : ℕ → α} (h : Holds buf n f)
include h

theorem load_holds {i : ℕ} (hi : i < n) : load buf i = .done (f i) := load_eq_done.mpr (h i hi)

theorem holds_set {pos : ℕ} (a : α) (hpos : pos < buf.length) :
    Holds (buf.set pos a) n (Function.update f pos a) := by
  intro i hi
  rw [List.getElem?_set]
  by_cases hp : pos = i
  · subst hp
    simp [hpos]
  · rw [if_neg hp, h i hi, Function.update_of_ne (fun he => hp he.symm)]

theorem holds_extend (a : α) (hn : n < buf.length) :
    Holds (buf.set n a) (n+1) (Function.update f n a) := by
  intro i hi
  rcases Nat.lt_succ_iff_lt_or_eq.mp hi with hi | rfl
  · exact holds_set h a hn i hi
  · simp [hn]

end

def tabulate {α : Type} (f : ℕ → Checked α) : (n : ℕ) → Checked {xs : List α // xs.length = n}
  | 0 => .done ⟨[],rfl⟩
  | n+1 => do
    let xs ← tabulate f n
    let x ← f n
    pure ⟨xs.1++[x],by simp [xs.2]⟩

theorem tabulate_done (f : ℕ → Checked α) (g : ℕ → α) (n : ℕ) (h : ∀ i < n, f i = .done (g i)) :
    tabulate f n = .done ⟨(List.range n).map g,by simp⟩ := by
  induction n with
  | zero => rfl
  | succ n ih =>
    rw [tabulate, ih (fun i hi => h i (by omega)), done_bind, h n (by omega), done_bind]
    simp [List.range_succ]

end FastSync.CheckedMemory
