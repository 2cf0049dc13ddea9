import FastSync.FileList

/-!
# What the queries of a file list answer

The walk over the directories above a path meets every prefix of it that ends
before a slash. With the exact answers of the index, a path is affected when it
is listed, lies below a listed path or leads to one.
-/

set_option autoImplicit false

namespace FastSync.FileListQueries
open DeletePaths (Bytes slash)
open CheckedMemory (sizeMax)
open StringIndex FileList

def ProperAncestor (e r : Bytes) : Prop := e++[slash] <+: r

theorem properAncestor_iff {e r : Bytes} :
    ProperAncestor e r ↔ ∃ i < r.length, r[i]? = some slash ∧ r.take i = e := by
  constructor
  · rintro ⟨t,ht⟩
    refine ⟨e.length,?_,?_,?_⟩
    · simp [← ht]
    · simp [← ht]
    · simp [← ht]
  · rintro ⟨i,hi,hs,he⟩
    refine ⟨r.drop (i+1),?_⟩
    rw [List.getElem?_eq_getElem hi, Option.some.injEq] at hs
    rw [← he, ← hs, List.append_assoc, List.singleton_append, ← List.drop_eq_getElem_cons hi,
      List.take_append_drop]

section Walk
variable {rel : Bytes}

theorem lastSlash_none {len : ℕ} (h : lastSlash rel len = none) :
    ∀ i < len, rel[i]? ≠ some slash := by
  induction len with
  | zero =>
    intro i hi
    omega
  | succ len ih =>
    rw [lastSlash] at h
    by_cases hs : rel[len]? = some slash
    · simp [hs] at h
    · rw [if_neg hs] at h
      intro i hi
      by_cases hil : i = len
      · exact hil ▸ hs
      · exact ih h i (by omega)

theorem lastSlash_some {len i : ℕ} (h : lastSlash rel len = some i) :
    rel[i]? = some slash ∧ ∀ k, i < k → k < len → rel[k]? ≠ some slash := by
  induction len with
  | zero => cases h
  | succ len ih =>
    rw [lastSlash] at h
    by_cases hs : rel[len]? = some slash
    · rw [if_pos hs, Option.some.injEq] at h
      subst h
      exact ⟨hs,fun k h1 h2 => by omega⟩
    · rw [if_neg hs] at h
      obtain ⟨hi,hlast⟩ := ih h
      refine ⟨hi,fun k h1 h2 => ?_⟩
      by_cases hkl : k = len
      · exact hkl ▸ hs
      · exact hlast k h1 (by omega)

variable {hash : Bytes → ℕ} {entries : List Bytes} {set : FileListSet}

theorem ancestorListed_exact (h : pathIndexBuild hash entries = some set.index) {len : ℕ} :
    ancestorListed hash set rel len =
      some (decide (∃ i < len, rel[i]? = some slash ∧ rel.take i ∈ entries)) := by
  induction len using Nat.strong_induction_on with
  | _ len ih =>
    rw [ancestorListed]
    by_cases hlen : len > 0
    · rw [if_pos hlen]
      split
      · rename_i hnone
        have hno := lastSlash_none hnone
        rw [eq_comm, Option.some.injEq, decide_eq_false_iff_not]
        rintro ⟨i,hi,hs,_⟩
        exact hno i hi hs
      · rename_i i hsome
        obtain ⟨hs,hlast⟩ := lastSlash_some hsome
        have hi := lastSlash_lt hsome
        rw [pathIndexContainsN_exact h]
        by_cases hmem : rel.take i ∈ entries
        · simp only [hmem, decide_true]
          rw [eq_comm, Option.some.injEq, decide_eq_true_iff]
          exact ⟨i,hi,hs,hmem⟩
        · simp only [hmem, decide_false]
          rw [ih i hi, Option.some.injEq, decide_eq_decide]
          constructor
          · rintro ⟨k,hk,h⟩
            exact ⟨k,by omega,h⟩
          · rintro ⟨k,hk,hsk,hmk⟩
            rcases Nat.lt_trichotomy k i with hlt | rfl | hgt
            · exact ⟨k,hlt,hsk,hmk⟩
            · exact absurd hmk hmem
            · exact absurd hsk (hlast k hgt hk)
    · rw [if_neg hlen, eq_comm, Option.some.injEq, decide_eq_false_iff_not]
      rintro ⟨i,hi,_⟩
      omega

theorem ancestorListed_ancestor (rel : Bytes) (h : pathIndexBuild hash entries = some set.index) :
    ∃ b, ancestorListed hash set rel rel.length = some b ∧
      (b = true ↔ ∃ e ∈ entries, ProperAncestor e rel) := by
  refine ⟨_,ancestorListed_exact h,?_⟩
  rw [decide_eq_true_iff]
  constructor
  · rintro ⟨i,hi,hs,hmem⟩
    exact ⟨_,hmem,properAncestor_iff.mpr ⟨i,hi,hs,rfl⟩⟩
  · rintro ⟨e,he,hanc⟩
    obtain ⟨i,hi,hs,htake⟩ := properAncestor_iff.mp hanc
    exact ⟨i,hi,hs,htake ▸ he⟩

end Walk

section Exact
variable {hash : Bytes → ℕ} {E : List Bytes} {set : FileListSet}

theorem indexBuild_some (h : E.length ≤ sizeMax/8) :
    ∃ set, fileListIndexBuild hash E = some set ∧ pathIndexBuild hash E = some set.index ∧
      (set.wholeTree = true ↔ [] ∈ E) := by
  have hbuilt : ∃ index, pathIndexBuild hash E = some index := pathIndexBuild_some h
  obtain ⟨index,hindex⟩ := hbuilt
  refine ⟨⟨E,index,E.any fun e => decide (e = [])⟩,?_,hindex,?_⟩
  · rw [fileListIndexBuild, hindex]
  · simp

section
variable (h : pathIndexBuild hash E = some set.index) (hpart : set.wholeTree = false) {r : Bytes}
  (hr : r ≠ [])
include h hpart hr

theorem affects_exact :
    ∃ b, fileListAffects hash set r = some b ∧
      (b = true ↔ ∃ e ∈ E, e = r ∨ ProperAncestor e r ∨ ProperAncestor r e) := by
  obtain ⟨a,hwalk,ha⟩ := ancestorListed_ancestor r h
  have hbelow := pathIndexHasDescendant_exact h r
  refine ⟨decide (r ∈ E) || a || pathIndexHasDescendant set.index r,?_,?_⟩
  · rw [fileListAffects, hpart, pathIndexContains_exact h, hwalk]
    by_cases hmem : r ∈ E <;> cases a <;> simp [hmem]
  · rw [Bool.or_eq_true, Bool.or_eq_true, decide_eq_true_iff, ha, hbelow, and_iff_right hr]
    constructor
    · rintro ((h | ⟨e,he,h⟩) | ⟨e,he,h⟩)
      · exact ⟨r,h,.inl rfl⟩
      · exact ⟨e,he,.inr (.inl h)⟩
      · exact ⟨e,he,.inr (.inr h)⟩
    · rintro ⟨e,he,rfl | h | h⟩
      · exact .inl (.inl he)
      · exact .inl (.inr ⟨e,he,h⟩)
      · exact .inr ⟨e,he,h⟩

theorem dirInScope_exact :
    ∃ b, fileListDirInScope hash set r = some b ∧
      (b = true ↔ ∃ e ∈ E, e = r ∨ ProperAncestor e r) := by
  obtain ⟨a,hwalk,ha⟩ := ancestorListed_ancestor r h
  refine ⟨a || decide (r ∈ E),?_,?_⟩
  · rw [fileListDirInScope, hpart, if_neg hr, pathIndexContains_exact h, hwalk]
    cases a <;> simp
  · rw [Bool.or_eq_true, decide_eq_true_iff, ha]
    constructor
    · rintro (⟨e,he,h⟩ | h)
      · exact ⟨e,he,.inr h⟩
      · exact ⟨r,h,.inl rfl⟩
    · rintro ⟨e,he,rfl | h⟩
      · exact .inr he
      · exact .inl ⟨e,he,h⟩

end

end Exact

/-- The index of a list that fits in memory is built, every query of it ends,
and the answers are exact. Without an empty entry the two scope tests are exact
as well. -/
theorem path_queries_exact (hash : Bytes → ℕ) (E : List Bytes) (hE : E.length ≤ sizeMax/8) :
    ∃ set, fileListIndexBuild hash E = some set ∧ pathIndexBuild hash E = some set.index ∧
      ∀ r, r ≠ [] →
        pathIndexContains hash set.index r = some (decide (r ∈ E)) ∧
        (∀ n ≤ r.length, pathIndexContainsN hash set.index r n = some (decide (r.take n ∈ E))) ∧
        (pathIndexHasDescendant set.index r = true ↔ ∃ e ∈ E, ProperAncestor r e) ∧
        ([] ∉ E →
          (∃ b, fileListAffects hash set r = some b ∧
            (b = true ↔ ∃ e ∈ E, e = r ∨ ProperAncestor e r ∨ ProperAncestor r e)) ∧
          ∃ b, fileListDirInScope hash set r = some b ∧
            (b = true ↔ ∃ e ∈ E, e = r ∨ ProperAncestor e r)) := by
  have hbuilt : ∃ set, fileListIndexBuild hash E = some set ∧
      pathIndexBuild hash E = some set.index ∧ (set.wholeTree = true ↔ [] ∈ E) :=
    indexBuild_some hE
  obtain ⟨set,hset,hindex,hwhole⟩ := hbuilt
  refine ⟨set,hset,hindex,fun r hr => ⟨pathIndexContains_exact hindex,
    fun n _ => pathIndexContainsN_exact hindex,?_,fun hempty => ?_⟩⟩
  · rw [pathIndexHasDescendant_exact hindex]
    exact and_iff_right hr
  · have hpart : set.wholeTree = false := by
      rw [← Bool.not_eq_true, hwhole]
      exact hempty
    exact ⟨affects_exact hindex hpart hr,dirInScope_exact hindex hpart hr⟩

/-- `a/b` and `a-x` with every hash colliding: `a` leads to a listed path. -/
theorem path_queries_exact_colliding :
    ∃ set, fileListIndexBuild (fun _ => 0) [[97,slash,98],[97,45,120]] = some set ∧
      fileListAffects (fun _ => 0) set [97] = some true := by
  obtain ⟨set,hset,_,hquery⟩ :=
    path_queries_exact (fun _ => 0) [[97,slash,98],[97,45,120]] (by simp [sizeMax])
  obtain ⟨b,hb,hiff⟩ := ((hquery [97] (by simp)).2.2.2 (by decide)).1
  have htrue : b = true := hiff.mpr
    ⟨[97,slash,98],by simp,.inr (.inr ⟨[98],rfl⟩)⟩
  exact ⟨set,hset,htrue ▸ hb⟩

end FastSync.FileListQueries
