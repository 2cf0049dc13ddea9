import FastSync.FiniteTree
import Mathlib.Data.List.Induction

/-!
# Paths, keep sets and skip prefixes of the delete engine

Paths are byte strings. A directory entry's name is a non-empty string without
a slash or a NUL and is never `.` or `..`. The path index is taken as the set
of its strings, with the two queries the delete engine makes.
-/

set_option autoImplicit false

namespace FastSync.DeletePaths
open FiniteTree

abbrev Bytes := List UInt8

scoped instance lawfulBytes : LawfulBEq Bytes := inferInstanceAs (LawfulBEq (List UInt8))

def slash : UInt8 := 47
def dot : UInt8 := 46

def ValidName (n : Bytes) : Prop :=
  n ≠ [] ∧ slash ∉ n ∧ 0 ∉ n ∧ n ≠ [dot] ∧ n ≠ [dot, dot]

instance (n : Bytes) : Decidable (ValidName n) := inferInstanceAs (Decidable (_ ∧ _))

abbrev Name := {n : Bytes // ValidName n}

abbrev Position := List Name

abbrev DeleteDirEntry := Entry Name

def stripTrailing (p : Bytes) : Bytes := if p.getLast? = some slash then p.dropLast else p

def stripLeading (p : Bytes) : Bytes := if p.head? = some slash then p.tail else p

def pathCat (path1 path2 : Bytes) : Bytes :=
  if path1 = [] then path2
  else if path2 = [] then path1
  else stripTrailing path1++slash::stripLeading path2

/-- The relative path the walkers build on the way from the root down to a
position. -/
def relPath (p : Position) : Bytes := p.foldl (fun rel n => pathCat rel n.1) []

def dirName (d : Position) : Bytes := if d = [] then [dot] else relPath d

def components : Bytes → List Bytes
  | [] => [[]]
  | b::bs =>
    if b = slash then []::components bs
    else match components bs with
      | [] => [[b]]
      | c::cs => (b::c)::cs

def name? (c : Bytes) : Option Name := if h : ValidName c then some ⟨c,h⟩ else none

/-- The position a component walk ends at. Empty components and `.` stand for
the directory itself; a walk through `..` is refused. -/
def resolve (cs : List Bytes) : Option Position :=
  (cs.filter fun c => decide (c ≠ [] ∧ c ≠ [dot])).mapM name?

def hasPathTraversal (path : Bytes) : Bool := decide ([dot, dot] ∈ components path)

structure PathIndex where
  items : List Bytes
deriving DecidableEq, Repr

def pathIndexContains (index : PathIndex) (path : Bytes) : Bool := decide (path ∈ index.items)

def pathIndexHasDescendant (index : PathIndex) (path : Bytes) : Bool :=
  decide (path ≠ []) && index.items.any fun e => (path++[slash]).isPrefixOf e

def keepIsDir (keep : PathIndex) (rel : Bytes) : Bool :=
  pathIndexContains keep rel || pathIndexHasDescendant keep rel

def keepIsFile (keep : PathIndex) (rel : Bytes) : Bool := pathIndexContains keep rel

structure DeleteSkipEntry where
  prefixPath : Bytes
  topLevelOnly : Bool
deriving DecidableEq, Repr

/-- A skip entry covers its own path and everything below it, at the first
slash boundary after the stored string. -/
def skipCovers (s : DeleteSkipEntry) (childRel : Bytes) : Bool :=
  s.prefixPath.isPrefixOf childRel &&
    (match childRel.drop s.prefixPath.length with
      | [] => true
      | b::_ => decide (b = slash))

def pathUnderSkipPrefix (childRel : Bytes) (atRoot : Bool) : List DeleteSkipEntry → Bool
  | [] => false
  | s::skips =>
    if s.topLevelOnly && !atRoot then pathUnderSkipPrefix childRel atRoot skips
    else if skipCovers s childRel then true
    else pathUnderSkipPrefix childRel atRoot skips

inductive FilterAction where
  | none
  | exclude
  | include
  | protect
  | risk
deriving DecidableEq, Repr

/-- What one delete run is given: the manifest, the synchronized directories
when they are known, the skip entries, and the receiver-side verdict of the
protect rules on a relative path, its leaf and its kind. -/
structure DeleteRun where
  keep : PathIndex
  dirs : Option PathIndex
  skips : List DeleteSkipEntry
  protectRules : Option (Bytes → Bytes → Bool → FilterAction)

def isSyncedDir (dirs : Option PathIndex) (rel : Bytes) : Bool :=
  match dirs with
  | none => true
  | some dirs => pathIndexContains dirs (if rel = [] then [dot] else rel)

def childSynced (dirs : Option PathIndex) (childRel : Bytes) : Bool :=
  match dirs with
  | none => false
  | some dirs => pathIndexContains dirs childRel

def ruleProtects (rules : Option (Bytes → Bytes → Bool → FilterAction)) (childRel leaf : Bytes)
    (isDir : Bool) : Bool :=
  match rules with
  | none => false
  | some verdict => decide (verdict childRel leaf isDir = .protect)

theorem relPath_nil : relPath [] = [] := rfl

theorem relPath_child (d : Position) (n : Name) : relPath (d++[n]) = pathCat (relPath d) n.1 := by
  simp [relPath]

theorem pathCat_ne_nil (rel : Bytes) (n : Name) : pathCat rel n.1 ≠ [] := by
  have hn := n.2.1
  unfold pathCat
  split_ifs with h1
  · exact hn
  · simp

theorem relPath_eq_nil {dir : Position} : relPath dir = [] ↔ dir = [] := by
  constructor
  · intro h
    rcases List.eq_nil_or_concat' dir with rfl | ⟨d,n,rfl⟩
    · rfl
    · rw [relPath_child] at h
      exact absurd h (pathCat_ne_nil _ n)
  · rintro rfl
    rfl

theorem name_head {n : Name} : n.1.head? ≠ some slash := fun h => n.2.2.1 (List.mem_of_head? h)

theorem name_getLast (n : Name) : n.1.getLast? ≠ some slash :=
  fun h => n.2.2.1 (List.mem_of_getLast? h)

theorem relPath_getLast {p : Position} : (relPath p).getLast? ≠ some slash := by
  rcases List.eq_nil_or_concat' p with rfl | ⟨d,n,rfl⟩
  · simp [relPath_nil]
  · rw [relPath_child]
    have hn := name_getLast n
    unfold pathCat stripLeading
    split_ifs with h1 h2 h3
    · exact hn
    · exact absurd h2 n.2.1
    · exact absurd h3 name_head
    · rw [List.getLast?_append, List.getLast?_cons]
      cases hg : n.1.getLast? with
      | none => exact absurd (List.getLast?_eq_none_iff.mp hg) n.2.1
      | some b =>
        rw [hg] at hn
        simpa using hn

theorem relPath_root_child (n : Name) : relPath [n] = n.1 := rfl

theorem relPath_deep {d : Position} {n : Name} (hd : d ≠ []) :
    relPath (d++[n]) = relPath d++slash::n.1 := by
  rw [relPath_child, pathCat, if_neg (fun h => hd (relPath_eq_nil.mp h)), if_neg n.2.1,
    stripTrailing, if_neg relPath_getLast, stripLeading, if_neg name_head]

theorem last_slash_inj {a b n m : Bytes} (hn : slash ∉ n) (hm : slash ∉ m)
    (h : a++slash::n = b++slash::m) : a = b ∧ n = m := by
  rcases List.append_eq_append_iff.mp h with ⟨c,rfl,hc⟩ | ⟨c,rfl,hc⟩ <;> cases c with
  | nil => simp_all
  | cons x c =>
    simp_all

theorem relPath_injective : Function.Injective relPath := by
  intro p
  induction p using List.reverseRecOn with
  | nil => exact fun q h => (relPath_eq_nil.mp h.symm).symm
  | append_singleton d n ih =>
    intro q h
    rcases List.eq_nil_or_concat' q with rfl | ⟨d',m,rfl⟩
    · exact relPath_eq_nil.mp h
    by_cases hd : d = []
    · subst hd
      by_cases hd' : d' = []
      · subst hd'
        rw [List.nil_append, List.nil_append, Subtype.ext h]
      · rw [relPath_deep hd'] at h
        refine absurd ?_ n.2.2.1
        show slash ∈ relPath [n]
        simp only [List.nil_append] at h
        simp [h]
    · by_cases hd' : d' = []
      · subst hd'
        rw [relPath_deep hd] at h
        refine absurd ?_ m.2.2.1
        show slash ∈ relPath [m]
        simp only [List.nil_append] at h
        simp [← h]
      · rw [relPath_deep hd, relPath_deep hd'] at h
        obtain ⟨h1,h2⟩ := last_slash_inj n.2.2.1 m.2.2.1 h
        rw [ih h1, Subtype.ext h2]

theorem components_ne_nil {p : Bytes} : components p ≠ [] := by
  cases p with
  | nil => simp [components]
  | cons b bs =>
    rw [components]
    split_ifs
    · simp
    · split <;> simp

theorem components_plain (n : Bytes) (hn : slash ∉ n) : components n = [n] := by
  induction n with
  | nil => rfl
  | cons b bs ih =>
    rw [List.mem_cons, not_or] at hn
    rw [components, if_neg (fun h => hn.1 h.symm), ih hn.2]

theorem components_append (a b : Bytes) :
    components (a++slash::b) = components a++components b := by
  induction a with
  | nil => simp [components]
  | cons x a ih =>
    rw [List.cons_append, components, components, ih]
    split_ifs with hx
    · rfl
    · cases hc : components a with
      | nil => exact absurd hc components_ne_nil
      | cons c cs => rfl

section
variable (p : Position)

theorem components_relPath (hp : p ≠ []) : components (relPath p) = p.map Subtype.val := by
  induction p using List.reverseRecOn with
  | nil => exact absurd rfl hp
  | append_singleton d n ih =>
    by_cases hd : d = []
    · subst hd
      exact components_plain n.1 n.2.2.1
    · rw [relPath_deep hd, components_append, components_plain n.1 n.2.2.1, ih hd]
      simp

theorem resolve_names : (p.map Subtype.val).mapM name? = some p := by
  induction p with
  | nil => rfl
  | cons n p ih =>
    rw [List.map_cons, List.mapM_cons, ih, name?, dif_pos n.2]
    rfl

theorem resolve_position : resolve (p.map Subtype.val) = some p := by
  rw [resolve, List.filter_eq_self.mpr, resolve_names]
  intro c hc
  obtain ⟨n,-,rfl⟩ := List.mem_map.mp hc
  exact decide_eq_true ⟨n.2.1,n.2.2.2.2.1⟩

theorem resolve_relPath : resolve (components (relPath p)) = some p := by
  by_cases hp : p = []
  · subst hp
    rfl
  · rw [components_relPath p hp, resolve_position]

theorem relPath_ne_dot : relPath p ≠ [dot] := by
  intro h
  have hp : p ≠ [] := by
    rintro rfl
    cases h
  have hc := components_relPath p hp
  rw [h] at hc
  have hone : p.map Subtype.val = [[dot]] := hc.symm
  obtain ⟨n,rfl,hn⟩ := List.map_eq_singleton_iff.mp hone
  exact n.2.2.2.2.1 hn

end

theorem dirName_injective : Function.Injective dirName := by
  intro p q h
  unfold dirName at h
  split_ifs at h with hp hq hq
  · rw [hp, hq]
  · exact absurd h.symm (relPath_ne_dot q)
  · exact absurd h (relPath_ne_dot p)
  · exact relPath_injective h

theorem relPath_head {p : Position} : (relPath p).head? ≠ some slash := by
  induction p using List.reverseRecOn with
  | nil => simp [relPath_nil]
  | append_singleton d n ih =>
    by_cases hd : d = []
    · subst hd
      exact name_head
    · rw [relPath_deep hd]
      cases hr : relPath d with
      | nil => exact absurd (relPath_eq_nil.mp hr) hd
      | cons b bs =>
        rw [hr] at ih
        exact ih

theorem relPath_below {q p : Position} (hq : q ≠ []) (h : Below q p) :
    ∃ rest, relPath p = relPath q++slash::rest := by
  obtain ⟨n,s,rfl⟩ := h
  induction s using List.reverseRecOn with
  | nil => exact ⟨n.1,relPath_deep hq⟩
  | append_singleton s m ih =>
    obtain ⟨rest,hrest⟩ := ih
    refine ⟨rest++slash::m.1,?_⟩
    rw [← List.cons_append, ← List.append_assoc, relPath_deep (by simp), hrest]
    simp

theorem below_of_relPath {q p : Position} (hq : q ≠ [])
    (h : (relPath q++[slash]) <+: relPath p) : Below q p := by
  obtain ⟨rest,hrest⟩ := h
  have hp : p ≠ [] := by
    rintro rfl
    simp [relPath_nil] at hrest
  have hc := congrArg components hrest
  rw [List.append_assoc, List.singleton_append, components_append, components_relPath q hq,
    components_relPath p hp] at hc
  obtain ⟨l₁,l₂,rfl,h₁,h₂⟩ := List.map_eq_append_iff.mp hc.symm
  rw [List.map_injective_iff.mpr Subtype.val_injective h₁]
  cases l₂ with
  | nil => exact absurd h₂.symm components_ne_nil
  | cons n s => exact ⟨n,s,rfl⟩

theorem skipCovers_below {s : DeleteSkipEntry} {q p : Position} (hq : q ≠ [])
    (h : skipCovers s (relPath q) = true) (hb : Below q p) : skipCovers s (relPath p) = true := by
  obtain ⟨rest,hrest⟩ := relPath_below hq hb
  rw [skipCovers, Bool.and_eq_true, List.isPrefixOf_iff_prefix] at h ⊢
  obtain ⟨⟨l,hl⟩,hd⟩ := h
  rw [← hl, List.drop_left] at hd
  rw [hrest, ← hl, List.append_assoc, List.drop_left]
  refine ⟨List.prefix_append _ _,?_⟩
  cases l with
  | nil => simp
  | cons b l => simpa using hd

theorem pathUnderSkipPrefix_iff {childRel : Bytes} {atRoot : Bool} {skips : List DeleteSkipEntry} :
    pathUnderSkipPrefix childRel atRoot skips = true ↔
      ∃ s ∈ skips, (s.topLevelOnly = true → atRoot = true) ∧ skipCovers s childRel = true := by
  induction skips with
  | nil => simp [pathUnderSkipPrefix]
  | cons s skips ih =>
    rw [pathUnderSkipPrefix]
    simp only [List.mem_cons, exists_eq_or_imp, ← ih]
    cases s.topLevelOnly <;> cases atRoot <;> cases skipCovers s childRel <;> simp

end FastSync.DeletePaths
