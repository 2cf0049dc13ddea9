import Mathlib.Algebra.BigOperators.Group.List.Basic
import Mathlib.Order.WellFounded
import Mathlib.Tactic.Ring

/-!
# Interleaved threads

Threads share one state and take turns. A turn is an action of one thread on the
shared state and its own. What one thread does to a sum over all threads is seen
with the other threads as an arbitrary rest.
-/

set_option autoImplicit false

namespace FastSync.Threads

variable {α σ τ : Type}

structure World (σ τ : Type) where
  shared : σ
  threads : List τ

/-- Thread `i` takes a turn; a turn that is not possible leaves no world. -/
def turn (act : α → σ → τ → Option (σ × τ)) (w : World σ τ) (i : ℕ) (a : α) :
    Option (World σ τ) :=
  match w.threads[i]? with
  | none => none
  | some t =>
    match act a w.shared t with
    | none => none
    | some next => some ⟨next.1,w.threads.set i next.2⟩

def run (act : α → σ → τ → Option (σ × τ)) : List (ℕ × α) → World σ τ → Option (World σ τ)
  | [], w => some w
  | (i,a)::schedule, w =>
    match turn act w i a with
    | none => none
    | some w' => run act schedule w'

def weight (f : τ → ℕ) (threads : List τ) : ℕ := (threads.map f).sum

section Rules
variable {act : α → σ → τ → Option (σ × τ)}

theorem turn_some {w w' : World σ τ} {i : ℕ} {a : α} (h : turn act w i a = some w') :
    ∃ t next, w.threads[i]? = some t ∧ act a w.shared t = some next ∧
      w' = ⟨next.1,w.threads.set i next.2⟩ := by
  unfold turn at h
  cases ht : w.threads[i]? with
  | none => simp [ht] at h
  | some t =>
    cases ha : act a w.shared t with
    | none => simp [ht, ha] at h
    | some next =>
      simp only [ht, ha, Option.some.injEq] at h
      exact ⟨t,next,rfl,ha,h.symm⟩

variable {threads : List τ}

theorem weight_set {f : τ → ℕ} {i : ℕ} {t : τ} (h : threads[i]? = some t) :
    ∃ rest, weight f threads = f t+rest ∧ ∀ t', weight f (threads.set i t') = f t'+rest := by
  induction threads generalizing i with
  | nil => simp at h
  | cons x threads ih =>
    cases i with
    | zero =>
      simp only [List.getElem?_cons_zero, Option.some.injEq] at h
      subst h
      exact ⟨weight f threads,by simp [weight],fun t' => by simp [weight]⟩
    | succ i =>
      obtain ⟨rest,hsum,hset⟩ := ih h
      refine ⟨f x+rest,?_,fun t' => ?_⟩
      · have hx : weight f (x::threads) = f x+weight f threads := by simp [weight]
        rw [hx, hsum]
        ring
      · have hx : weight f ((x::threads).set (i+1) t') = f x+weight f (threads.set i t') := by
          simp [weight]
        rw [hx, hset t']
        ring

theorem run_invariant (Inv : World σ τ → Prop)
    (hturn : ∀ w w' i a, Inv w → turn act w i a = some w' → Inv w') (schedule : List (ℕ × α))
    {w w' : World σ τ} (hw : Inv w) (h : run act schedule w = some w') : Inv w' := by
  induction schedule generalizing w with
  | nil =>
    cases h
    exact hw
  | cons turned schedule ih =>
    obtain ⟨i,a⟩ := turned
    rw [run] at h
    cases ht : turn act w i a with
    | none => simp [ht] at h
    | some w₁ =>
      simp only [ht] at h
      exact ih (hturn w w₁ i a hw ht) h

theorem all_turn {P : τ → Prop} {w w' : World σ τ} {i : ℕ} {a : α}
    (hall : ∀ t ∈ w.threads, P t) (h : turn act w i a = some w')
    (hact : ∀ t next, t ∈ w.threads → act a w.shared t = some next → P next.2) :
    ∀ t ∈ w'.threads, P t := by
  obtain ⟨t,next,ht,ha,rfl⟩ := turn_some h
  intro t' ht'
  rcases List.mem_or_eq_of_mem_set ht' with hmem | rfl
  · exact hall t' hmem
  · exact hact t next (List.mem_of_getElem? ht) ha

theorem weight_le {f g : τ → ℕ} (h : ∀ t ∈ threads, f t ≤ g t) :
    weight f threads ≤ weight g threads := by
  induction threads with
  | nil => exact Nat.le_refl 0
  | cons x threads ih =>
    have hx := h x List.mem_cons_self
    have hrest := ih (fun t ht => h t (List.mem_cons_of_mem x ht))
    unfold weight at hrest ⊢
    rw [List.map_cons, List.map_cons, List.sum_cons, List.sum_cons]
    omega

theorem weight_eq_zero {f : τ → ℕ} (h : ∀ t ∈ threads, f t = 0) : weight f threads = 0 := by
  induction threads with
  | nil => rfl
  | cons x threads ih =>
    have hx := h x List.mem_cons_self
    have hrest := ih (fun t ht => h t (List.mem_cons_of_mem x ht))
    unfold weight at hrest ⊢
    rw [List.map_cons, List.sum_cons, hx, hrest]

end Rules

/-! ## Fair schedules -/

section Fair
variable {ι : Type} {next : σ → ι → σ}

def trace (next : σ → ι → σ) (s : σ) (schedule : ℕ → ι) : ℕ → σ
  | 0 => s
  | n+1 => next (trace next s schedule n) (schedule n)

/-- Again and again it is the turn of one of these. -/
def Fair (turns : ι → Prop) (schedule : ℕ → ι) : Prop := ∀ n, ∃ m, n ≤ m ∧ turns (schedule m)

theorem trace_invariant {P : σ → Prop} {s : σ} {schedule : ℕ → ι} (hs : P s)
    (hstep : ∀ s i, P s → P (next s i)) {n : ℕ} : P (trace next s schedule n) := by
  induction n with
  | zero => exact hs
  | succ n ih => exact hstep _ _ ih

section
variable (rank : σ → ℕ) (hrank : ∀ s i, next s i = s ∨ rank (next s i) < rank s) (s : σ)
  (schedule : ℕ → ι)
include hrank

/-- Where every move that changes the state lowers a rank, the state stands still
from some point on. -/
theorem trace_settles : ∃ n, ∀ m, n ≤ m → trace next s schedule m = trace next s schedule n := by
  let value := fun n => rank (trace next s schedule n)
  obtain ⟨n,hn⟩ : ∃ n, ∀ m, value n ≤ value m :=
    ⟨Function.argmin value,fun m => Function.argmin_le value m⟩
  apply Exists.intro n
  intro m hm
  induction m, hm using Nat.le_induction with
  | base => rfl
  | succ m _ ih =>
    apply (hrank (trace next s schedule m) (schedule m)).elim
    · intro hsame
      exact hsame.trans ih
    · intro hless
      have hmin := hn (m+1)
      have hvalue : value m = value n := congrArg rank ih
      have hless' : value (m+1) < value m := hless
      omega

theorem fair_settles :
    ∃ n, ∀ turns, Fair turns schedule →
      ∃ i, turns i ∧ next (trace next s schedule n) i = trace next s schedule n := by
  obtain ⟨n,hn⟩ := trace_settles rank hrank s schedule
  apply Exists.intro n
  intro turns hfair
  obtain ⟨m,hm,hturn⟩ := hfair n
  apply Exists.intro (schedule m)
  apply And.intro hturn
  have hnext := hn (m+1) (by omega)
  rw [trace, hn m hm] at hnext
  exact hnext

end

/-- Where no turn raises a rank and some turns lower it, a run that takes such a turn
again and again comes to its end, with what its turns keep. -/
theorem fair_reaches (Inv End : σ → Prop) {turns : ι → Prop} {s : σ} (rank : σ → ℕ)
    (schedule : ℕ → ι) {first : ℕ} (hfirst : Inv (trace next s schedule first))
    (hstep : ∀ n, Inv (trace next s schedule n) → ¬ End (trace next s schedule n) →
      Inv (trace next s schedule (n+1)) ∧
        rank (trace next s schedule (n+1)) ≤ rank (trace next s schedule n) ∧
        (turns (schedule n) →
          rank (trace next s schedule (n+1)) < rank (trace next s schedule n)))
    (hfair : Fair turns schedule) :
    ∃ n, first ≤ n ∧ Inv (trace next s schedule n) ∧ End (trace next s schedule n) := by
  by_contra hnone
  have hinv : ∀ n, Inv (trace next s schedule (first+n)) ∧
      ¬ End (trace next s schedule (first+n)) := by
    intro n
    induction n with
    | zero => exact ⟨hfirst,fun hend => hnone ⟨first,Nat.le_refl _,hfirst,hend⟩⟩
    | succ n ih =>
      have hnext := (hstep (first+n) ih.1 ih.2).1
      exact ⟨hnext,fun hend => hnone ⟨first+(n+1),Nat.le_add_right _ _,hnext,hend⟩⟩
  let value := fun n => rank (trace next s schedule (first+n))
  -- the least rank of the run would fall once more
  obtain ⟨n,hn⟩ : ∃ n, ∀ m, value n ≤ value m :=
    ⟨Function.argmin value,fun m => Function.argmin_le value m⟩
  have hle : ∀ k, value (n+k) ≤ value n := by
    intro k
    induction k with
    | zero => exact Nat.le_refl _
    | succ k ih => exact Nat.le_trans (hstep _ (hinv (n+k)).1 (hinv (n+k)).2).2.1 ih
  obtain ⟨m,hm,hturn⟩ := hfair (first+n)
  obtain ⟨k,rfl⟩ := Nat.exists_eq_add_of_le hm
  rw [Nat.add_assoc] at hturn
  have hless : value (n+k+1) < value (n+k) :=
    (hstep _ (hinv (n+k)).1 (hinv (n+k)).2).2.2 hturn
  have hmin := hn (n+k+1)
  have hmax := hle k
  omega

end Fair

end FastSync.Threads
