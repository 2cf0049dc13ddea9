import Mathlib.Data.List.Dedup
import Mathlib.Data.List.Infix

/-!
# Trees of directories

A tree assigns an object to some of the positions below its root. The root is a
directory, and so is the parent of every position that holds an object. The
positions in use are listed, in the order in which a directory shows them.
-/

set_option autoImplicit false

namespace FastSync.FileTree

inductive Node (ω : Type) where
  | dir
  | leaf (o : ω)
deriving DecidableEq, Repr

structure Tree (ν ω : Type) where
  node : List ν → Option (Node ω)
  support : List (List ν)
  rooted : node [] = some .dir
  closed : ∀ p n, node (p++[n]) ≠ none → node p = some .dir
  covered : ∀ p, p ≠ [] → node p ≠ none → p ∈ support

namespace Tree

variable {ν ω : Type} [DecidableEq ν]

def children (t : Tree ν ω) (d : List ν) : List ν :=
  (t.support.filterMap fun q =>
    if q.dropLast = d ∧ (t.node q).isSome then q.getLast? else none).dedup

theorem mem_children (t : Tree ν ω) (d : List ν) (n : ν) :
    n ∈ t.children d ↔ t.node (d++[n]) ≠ none := by
  rw [children, List.mem_dedup, List.mem_filterMap]
  constructor
  · rintro ⟨q,-,hq⟩
    split_ifs at hq with h
    obtain ⟨l,rfl⟩ := List.getLast?_eq_some_iff.mp hq
    rw [List.dropLast_concat] at h
    rw [← h.1]
    exact Option.isSome_iff_ne_none.mp h.2
  · intro h
    refine ⟨d++[n],t.covered _ (by simp) h,?_⟩
    rw [if_pos ⟨List.dropLast_concat,Option.isSome_iff_ne_none.mpr h⟩]
    simp

def place (t : Tree ν ω) (d : List ν) (n : ν) (o : Node ω) (hd : t.node d = some .dir)
    (hfree : t.node (d++[n]) = none) : Tree ν ω where
  node := fun q => if q = d++[n] then some o else t.node q
  support := (d++[n])::t.support
  rooted := by
    rw [if_neg (by simp)]
    exact t.rooted
  closed := by
    intro p m h
    by_cases hp : p++[m] = d++[n]
    · obtain ⟨rfl,-⟩ := List.append_inj' hp rfl
      rw [if_neg (by simp)]
      exact hd
    · rw [if_neg hp] at h
      have hdir := t.closed p m h
      rw [if_neg]
      · exact hdir
      · rintro rfl
        rw [hfree] at hdir
        cases hdir
  covered := by
    intro p hp h
    by_cases hq : p = d++[n]
    · rw [hq]
      exact List.mem_cons_self
    · rw [if_neg hq] at h
      exact List.mem_cons_of_mem _ (t.covered p hp h)

def remove (t : Tree ν ω) (p : List ν) (hp : p ≠ []) (hempty : t.children p = []) :
    Tree ν ω where
  node := fun q => if q = p then none else t.node q
  support := t.support
  rooted := by
    rw [if_neg hp.symm]
    exact t.rooted
  closed := by
    intro q m h
    split_ifs at h
    · exact absurd rfl h
    · rw [if_neg]
      · exact t.closed q m h
      · rintro rfl
        have := (t.mem_children q m).mpr h
        rw [hempty] at this
        cases this
  covered := by
    intro q hq h
    split_ifs at h
    · exact absurd rfl h
    · exact t.covered q hq h

/-- What lies at or below `p` goes to `d++[n]`, in the place of what was there. -/
def move (t : Tree ν ω) (p d : List ν) (n : ν) (hd : t.node d = some .dir)
    (hapart : ¬p <+: d++[n]) : Tree ν ω where
  node := fun r =>
    if d++[n] <+: r then t.node (p++r.drop (d++[n]).length)
    else if p <+: r then none
    else t.node r
  support := (t.support.filterMap fun r =>
    if p <+: r then some (d++[n]++r.drop p.length) else none)++t.support
  rooted := by
    rw [if_neg (by simp), if_neg]
    · exact t.rooted
    · intro h
      rw [List.prefix_nil.mp h] at hapart
      exact hapart List.nil_prefix
  closed := by
    intro r m h
    by_cases hq : d++[n] <+: r++[m]
    · rcases List.prefix_concat_iff.mp hq with heq | hr
      · obtain ⟨rfl,-⟩ := List.append_inj' heq rfl
        rw [if_neg (fun h => absurd h.length_le (by simp)), if_neg]
        · exact hd
        · exact fun h => hapart (h.trans (List.prefix_append _ _))
      · obtain ⟨s,rfl⟩ := hr
        rw [if_pos hq, List.append_assoc, List.drop_left, ← List.append_assoc] at h
        rw [if_pos (List.prefix_append _ _), List.drop_left]
        exact t.closed _ m h
    · rw [if_neg hq] at h
      split_ifs at h with hp
      · exact absurd rfl h
      · rw [if_neg (fun hr => hq (hr.trans (List.prefix_append _ _))),
          if_neg (fun hr => hp (hr.trans (List.prefix_append _ _)))]
        exact t.closed r m h
  covered := by
    intro r hr h
    rw [List.mem_append]
    split_ifs at h with hq hp
    · obtain ⟨s,rfl⟩ := hq
      rw [List.drop_left] at h
      have hne : p++s ≠ [] := by
        intro hnil
        rw [List.append_eq_nil_iff] at hnil
        rw [hnil.1] at hapart
        exact hapart List.nil_prefix
      refine .inl (List.mem_filterMap.mpr ⟨p++s,t.covered _ hne h,?_⟩)
      rw [if_pos (List.prefix_append _ _), List.drop_left]
    · exact absurd rfl h
    · exact .inr (t.covered r hr h)

theorem children_leaf (t : Tree ν ω) (p : List ν) (o : ω) (h : t.node p = some (.leaf o)) :
    t.children p = [] := by
  rw [List.eq_nil_iff_forall_not_mem]
  intro n hn
  have := t.closed p n ((t.mem_children p n).mp hn)
  rw [h] at this
  cases this

end Tree

end FastSync.FileTree
