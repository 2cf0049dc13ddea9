import Mathlib.Data.List.Basic
import Mathlib.Logic.Function.Basic

/-!
# Chained buckets over an initial segment of the indices

Indices are inserted in ascending order. Each bucket remembers its first and
last index, and every index links to the next one of its own bucket. Walking a
chain for a property that only members of the bucket can have finds the same
index as a scan of the whole segment.
-/

set_option autoImplicit false

namespace FastSync.BucketChain

def firstFrom (p : ℕ → Prop) [DecidablePred p] (lo n : ℕ) : Option ℕ :=
  (List.range' lo (n-lo)).find? fun j => decide (p j)

def lastBelow (p : ℕ → Prop) [DecidablePred p] : ℕ → Option ℕ
  | 0 => none
  | n+1 => if p n then some n else lastBelow p n

section First
variable (p : ℕ → Prop) [DecidablePred p]

theorem firstFrom_stop {lo n : ℕ} (h : n ≤ lo) : firstFrom p lo n = none := by
  simp [firstFrom, Nat.sub_eq_zero_of_le h]

theorem firstFrom_step {lo n : ℕ} (h : lo < n) :
    firstFrom p lo n = if p lo then some lo else firstFrom p (lo+1) n := by
  have hs : n-lo = (n-(lo+1))+1 := by omega
  rw [firstFrom, hs, List.range'_succ, List.find?_cons]
  by_cases hp : p lo <;> simp [hp, firstFrom]

theorem firstFrom_succ {lo n : ℕ} (h : lo ≤ n) :
    firstFrom p lo (n+1) = (firstFrom p lo n).or (if p n then some n else none) := by
  have hs : n+1-lo = (n-lo)+1 := by omega
  have hn : lo+(n-lo) = n := by omega
  rw [firstFrom, hs, List.range'_concat, List.find?_append, firstFrom]
  by_cases hp : p n <;> simp [hn, hp]

theorem firstFrom_some {lo n j : ℕ} (h : firstFrom p lo n = some j) : lo ≤ j ∧ j < n ∧ p j := by
  have hm := List.mem_of_find?_eq_some h
  have hp := List.find?_some h
  rw [List.mem_range'_1] at hm
  exact ⟨hm.1,by omega,by simpa using hp⟩

theorem firstFrom_none {lo n : ℕ} : firstFrom p lo n = none ↔ ∀ j, lo ≤ j → j < n → ¬p j := by
  simp only [firstFrom, List.find?_eq_none, List.mem_range'_1, decide_eq_true_eq]
  exact ⟨fun h j hl hn => h j ⟨hl,by omega⟩,fun h j hj => h j hj.1 (by omega)⟩

theorem firstFrom_refine (q : ℕ → Prop) [DecidablePred q] (hpq : ∀ j, q j → p j) {lo n : ℕ} :
    firstFrom q lo n = match firstFrom p lo n with
      | none => none
      | some j => if q j then some j else firstFrom q (j+1) n := by
  by_cases hlo : lo < n
  · rw [firstFrom_step p hlo, firstFrom_step q hlo]
    by_cases hp : p lo
    · simp [hp]
    · have hq : ¬q lo := fun h => hp (hpq lo h)
      simp only [hp, hq, if_false]
      exact firstFrom_refine q hpq
  · rw [firstFrom_stop p (by omega), firstFrom_stop q (by omega)]
termination_by n-lo

theorem lastBelow_some {n t : ℕ} (h : lastBelow p n = some t) :
    t < n ∧ p t ∧ ∀ j, t < j → j < n → ¬p j := by
  induction n with
  | zero => simp [lastBelow] at h
  | succ n ih =>
    rw [lastBelow] at h
    by_cases hp : p n
    · rw [if_pos hp, Option.some.injEq] at h
      subst h
      exact ⟨by omega,hp,fun j _ _ => by omega⟩
    · rw [if_neg hp] at h
      obtain ⟨ht,hpt,hlast⟩ := ih h
      refine ⟨by omega,hpt,fun j hj hn => ?_⟩
      rcases Nat.lt_succ_iff_lt_or_eq.mp hn with hn | rfl
      · exact hlast j hj hn
      · exact hp

theorem lastBelow_none {n : ℕ} : lastBelow p n = none ↔ ∀ j < n, ¬p j := by
  induction n with
  | zero => simp [lastBelow]
  | succ n ih =>
    rw [lastBelow]
    by_cases hp : p n
    · simp only [hp, if_true, reduceCtorEq, false_iff, not_forall, not_not]
      exact ⟨n,by omega,hp⟩
    · rw [if_neg hp, ih]
      refine ⟨fun h j hj => ?_,fun h j hj => h j (by omega)⟩
      rcases Nat.lt_succ_iff_lt_or_eq.mp hj with hj | rfl
      · exact h j hj
      · exact hp

end First

structure Chains where
  heads : ℕ → Option ℕ
  tails : ℕ → Option ℕ
  next : ℕ → Option ℕ

section Build
variable (bucketOf : ℕ → ℕ)

def linked (c : Chains) (j : ℕ) : ℕ → Option ℕ :=
  match c.tails (bucketOf j) with
  | none => c.next
  | some t => Function.update c.next t (some j)

def extend (c : Chains) (j : ℕ) : Chains where
  heads := if c.heads (bucketOf j) = none then
    Function.update c.heads (bucketOf j) (some j) else c.heads
  tails := Function.update c.tails (bucketOf j) (some j)
  next := Function.update (linked bucketOf c j) j none

def build : ℕ → Chains
  | 0 => ⟨fun _ => none,fun _ => none,fun _ => none⟩
  | n+1 => extend bucketOf (build n) n

theorem build_heads (n b : ℕ) : (build bucketOf n).heads b = firstFrom (bucketOf · = b) 0 n := by
  induction n generalizing b with
  | zero => rw [firstFrom_stop _ (Nat.le_refl 0)]; rfl
  | succ n ih =>
    rw [firstFrom_succ _ (Nat.zero_le n), ← ih b]
    simp only [build, extend]
    by_cases hb : bucketOf n = b
    · subst hb
      cases h : (build bucketOf n).heads (bucketOf n) <;> simp [h]
    · have hb' : b ≠ bucketOf n := fun h => hb h.symm
      split <;> simp [Function.update_of_ne hb']

theorem build_tails (n b : ℕ) : (build bucketOf n).tails b = lastBelow (bucketOf · = b) n := by
  induction n generalizing b with
  | zero => rfl
  | succ n ih =>
    simp only [build, extend, lastBelow]
    by_cases hb : bucketOf n = b
    · subst hb
      simp
    · rw [Function.update_of_ne (fun h => hb h.symm), if_neg hb, ih]

theorem linked_next {n j : ℕ} (hj : j < n)
    (ih : (build bucketOf n).next j = firstFrom (bucketOf · = bucketOf j) (j+1) n) :
    linked bucketOf (build bucketOf n) n j = firstFrom (bucketOf · = bucketOf j) (j+1) (n+1) := by
  rw [firstFrom_succ _ (by omega), linked, build_tails]
  by_cases hb : bucketOf n = bucketOf j
  · cases ht : lastBelow (bucketOf · = bucketOf n) n with
    | none => exact absurd hb.symm ((lastBelow_none _).mp ht j hj)
    | some t =>
      obtain ⟨htn,htb,hlast⟩ := lastBelow_some _ ht
      by_cases hjt : j = t
      · subst hjt
        have hnone : firstFrom (bucketOf · = bucketOf j) (j+1) n = none := by
          rw [firstFrom_none]
          intro i hi hn hib
          exact hlast i (by omega) hn (hib.trans hb.symm)
        simp [hnone, hb]
      · have hlt : j < t := by
          by_contra hge
          exact hlast j (by omega) hj hb.symm
        have hsome : firstFrom (bucketOf · = bucketOf j) (j+1) n ≠ none := by
          rw [Ne, firstFrom_none]
          intro hall
          exact hall t (by omega) htn (htb.trans hb)
        obtain ⟨i,hi⟩ := Option.ne_none_iff_exists'.mp hsome
        simp only [Function.update_of_ne hjt, ih, hi, Option.some_or]
  · have htail : ∀ t, lastBelow (bucketOf · = bucketOf n) n = some t → j ≠ t := by
      rintro t ht rfl
      exact hb (lastBelow_some _ ht).2.1.symm
    rw [if_neg hb, Option.or_none, ← ih]
    cases ht : lastBelow (bucketOf · = bucketOf n) n with
    | none => rfl
    | some t => simp only [Function.update_of_ne (htail t ht)]

theorem build_next {n j : ℕ} (hj : j < n) :
    (build bucketOf n).next j = firstFrom (bucketOf · = bucketOf j) (j+1) n := by
  induction n with
  | zero => omega
  | succ n ih =>
    rcases Nat.lt_succ_iff_lt_or_eq.mp hj with hj | rfl
    · simp only [build, extend]
      rw [Function.update_of_ne (by omega), linked_next bucketOf hj (ih hj)]
    · simp [build, extend, firstFrom_stop]

def walk (next : ℕ → Option ℕ) (q : ℕ → Prop) [DecidablePred q] :
    ℕ → Option ℕ → Option (Option ℕ)
  | _, none => some none
  | 0, some _ => none
  | k+1, some j => if q j then some (some j) else walk next q k (next j)

/-- A walk through one bucket, started at its first member from `lo` on, ends
within as many steps as indices remain and finds what the scan finds. -/
theorem walk_firstFrom {q : ℕ → Prop} [DecidablePred q] (b n k lo : ℕ)
    (hq : ∀ j, q j → bucketOf j = b) (hk : n-lo ≤ k) :
    walk (build bucketOf n).next q k (firstFrom (bucketOf · = b) lo n) =
      some (firstFrom q lo n) := by
  induction k generalizing lo with
  | zero =>
    rw [firstFrom_stop _ (by omega), firstFrom_stop _ (by omega), walk]
  | succ k ih =>
    rw [firstFrom_refine (bucketOf · = b) q hq]
    cases hf : firstFrom (bucketOf · = b) lo n with
    | none => rfl
    | some j =>
      obtain ⟨hlo,hn,hb⟩ := firstFrom_some _ hf
      by_cases hqj : q j
      · simp [walk, hqj]
      · simp only [walk, hqj, if_false]
        rw [build_next bucketOf hn, hb]
        exact ih (j+1) (by omega)

end Build

end FastSync.BucketChain
