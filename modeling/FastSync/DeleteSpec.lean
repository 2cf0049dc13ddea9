import FastSync.DeleteListing
import FastSync.CheckedMemory
import Mathlib.Data.List.Perm.Subperm

/-!
# What the delete walk is for

The removed positions are described without the traversal: nothing on the way
to the position is shielded, some directory strictly above it is synchronized,
and it is a file outside the manifest or a directory that is neither kept nor
synchronized and loses all its content. The walk removes exactly these.
-/

set_option autoImplicit false

namespace FastSync.DeleteSpec
open FiniteTree DeletePaths DeleteWalk DeleteExtras
open DeleteListing
open CheckedMemory

/-- A destination whose entries can be counted in a `size_t`. -/
structure Destination where
  tree : DirTree Name
  count_fits : ∀ ps : List Position, ps.Nodup → (∀ p ∈ ps, Listed tree p) → ps.length ≤ sizeMax

def shielded (run : DeleteRun) (dir : Position) (e : DeleteDirEntry) : Bool :=
  pathUnderSkipPrefix (relPath (dir++[e.name])) (decide (dir = [])) run.skips ||
    ruleProtects run.protectRules (relPath (dir++[e.name])) e.name.1 e.isDir

theorem classify_shielded {run : DeleteRun} {dir : Position} {deletable : Bool}
    {e : DeleteDirEntry} :
    classify run (relPath dir) deletable e = .shielded ↔ shielded run dir e = true := by
  have hroot : decide (relPath dir = []) = decide (dir = []) :=
    decide_eq_decide.mpr relPath_eq_nil
  simp only [classify,shielded,hroot,relPath_child]
  cases pathUnderSkipPrefix (pathCat (relPath dir) e.name.1) (decide (dir = [])) run.skips
  · cases ruleProtects run.protectRules (pathCat (relPath dir) e.name.1) e.name.1 e.isDir
    · simp only [Bool.false_eq_true,if_false,Bool.or_false,iff_false]
      split_ifs <;> simp
    · simp
  · simp

/-- A file outside the manifest, or a directory that is neither synchronized
nor in the manifest nor above anything in it. -/
def Unkept (run : DeleteRun) (p : Position) (isDir : Bool) : Prop :=
  relPath p ∉ run.keep.items ∧ (isDir = true →
    (∀ ds, run.dirs = some ds → relPath p ∉ ds.items) ∧
      ∀ k ∈ run.keep.items, ¬(relPath p++[slash]) <+: k)

theorem childSynced_false (dirs : Option PathIndex) (rel : Bytes) :
    childSynced dirs rel = false ↔ ∀ ds, dirs = some ds → rel ∉ ds.items := by
  cases dirs <;> simp [childSynced,pathIndexContains]

theorem keepIsDir_false (keep : PathIndex) {rel : Bytes} (hne : rel ≠ []) :
    keepIsDir keep rel = false ↔ rel ∉ keep.items ∧ ∀ k ∈ keep.items, ¬(rel++[slash]) <+: k := by
  simp [keepIsDir,pathIndexContains,pathIndexHasDescendant,hne]

theorem classify_extra (run : DeleteRun) (dir : Position) (deletable : Bool) (e : DeleteDirEntry) :
    classify run (relPath dir) deletable e = .extra ↔
      shielded run dir e = false ∧ deletable = true ∧ Unkept run (dir++[e.name]) e.isDir := by
  have hne := pathCat_ne_nil (relPath dir) e.name
  cases hs : shielded run dir e with
  | true => simp [classify_shielded.mpr hs]
  | false =>
    have hroot : decide (relPath dir = []) = decide (dir = []) :=
      decide_eq_decide.mpr relPath_eq_nil
    simp only [shielded,relPath_child,Bool.or_eq_false_iff] at hs
    simp only [classify,hroot,hs.1,hs.2,Unkept,relPath_child,Bool.false_eq_true,if_false,
      true_and]
    cases hdir : e.isDir with
    | true =>
      have hc := childSynced_false run.dirs (pathCat (relPath dir) e.name.1)
      have hk := keepIsDir_false run.keep hne
      rw [if_pos rfl,← hc]
      simp only [true_implies,
        and_left_comm (b := childSynced run.dirs (pathCat (relPath dir) e.name.1) = false),← hk]
      cases deletable <;> cases childSynced run.dirs (pathCat (relPath dir) e.name.1) <;>
        cases keepIsDir run.keep (pathCat (relPath dir) e.name.1) <;> simp
    | false => simp [keepIsFile,pathIndexContains]

section Characterization
variable (t : DirTree Name) (run : DeleteRun)

def Shielded (p : Position) : Prop :=
  ∃ d e q, p = d++e.name::q ∧ e ∈ t.entries d ∧ shielded run d e = true

/-- A directory strictly above the position is synchronized. -/
def syncedAbove (p : Position) : Bool :=
  (List.range p.length).any fun k => isSyncedDir run.dirs (relPath (p.take k))

theorem syncedAbove_iff (p : Position) :
    syncedAbove run p = true ↔ ∃ d, Below d p ∧ isSyncedDir run.dirs (relPath d) = true := by
  simp only [syncedAbove,List.any_eq_true,List.mem_range]
  constructor
  · rintro ⟨k,hk,hs⟩
    refine ⟨p.take k,⟨p.get ⟨k,hk⟩,p.drop (k+1),?_⟩,hs⟩
    rw [List.get_eq_getElem,← List.drop_eq_getElem_cons hk,List.take_append_drop]
  · rintro ⟨d,⟨n,q,rfl⟩,hs⟩
    refine ⟨d.length,by simp,?_⟩
    rw [List.take_left]
    exact hs

section
variable (d : Position)

theorem syncedAbove_child (n : Name) :
    syncedAbove run (d++[n]) = (syncedAbove run d || isSyncedDir run.dirs (relPath d)) := by
  rw [Bool.eq_iff_iff,Bool.or_eq_true,syncedAbove_iff,syncedAbove_iff]
  simp only [below_concat,or_and_right,exists_or,exists_eq_left]

section
variable {e : DeleteDirEntry} (he : e ∈ t.entries d)
include he

theorem shielded_child :
    Shielded t run (d++[e.name]) ↔ Shielded t run d ∨ shielded run d e = true := by
  constructor
  · rintro ⟨d',e',q,hp,he',hs⟩
    rcases List.eq_nil_or_concat' q with rfl | ⟨q',m,rfl⟩
    · obtain ⟨rfl,hn⟩ := List.append_inj' hp rfl
      rw [entry_eq_of_name he he' (List.cons.inj hn).1]
      exact .inr hs
    · rw [← List.cons_append,← List.append_assoc] at hp
      obtain ⟨rfl,-⟩ := List.append_inj' hp rfl
      exact .inl ⟨d',e',q',rfl,he',hs⟩
  · rintro (⟨d',e',q,rfl,he',hs⟩ | hs)
    · exact ⟨d',e',q++[e.name],by simp,he',hs⟩
    · exact ⟨d,e,[],rfl,he,hs⟩

def removable (d : Position) : List Position :=
  (extrasBelow t run (t.height d+1) d (relPath d) (syncedAbove run d)).1.map Prod.fst

theorem removable_deeper (hdir : e.isDir = true) {p : Position} (hp : Below (d++[e.name]) p) :
    p ∈ removable t run d ↔ shielded run d e = false ∧ p ∈ removable t run (d++[e.name]) := by
  have hh := t.height_lt d e he hdir
  rw [removable,mem_extrasBelow_deeper t run _ d _ _ e he hdir p hp,Ne,classify_shielded,
    Bool.not_eq_true,removable,relPath_child,syncedAbove_child,
    extrasBelow_fuel t run (t.height d) (t.height (d++[e.name])+1) _ _ _ hh (by omega)]

theorem removable_child :
    d++[e.name] ∈ removable t run d ↔ shielded run d e = false ∧
      syncedAbove run (d++[e.name]) = true ∧ Unkept run (d++[e.name]) e.isDir ∧
      (e.isDir = true → ∀ c ∈ t.entries (d++[e.name]),
        d++[e.name]++[c.name] ∈ removable t run (d++[e.name])) := by
  rw [removable,mem_extrasBelow_child t run _ d _ _ he,classify_extra,and_assoc,and_assoc,
    syncedAbove_child]
  refine and_congr_right fun _ => and_congr_right fun _ => and_congr_right fun _ => ?_
  refine forall_congr' fun hdir => ?_
  have hh := t.height_lt d e he hdir
  rw [extrasBelow_fuel t run (t.height d) (t.height (d++[e.name])+1) _ _ _ hh (by omega),
    extrasBelow_flag,removable,relPath_child,syncedAbove_child]

end

/-- Nothing below a shielded directory is an extra of the whole walk, and below
any other directory the walk's extras are the directory's own. -/
theorem removable_root (hd : IsDir t d) (p : Position) (hp : Below d p) :
    p ∈ removable t run [] ↔ ¬Shielded t run d ∧ p ∈ removable t run d := by
  induction hd generalizing p with
  | root =>
    have hroot : ¬Shielded t run [] := by
      rintro ⟨d,e,q,h,-⟩
      simp at h
    simp [hroot]
  | child d e hd he hdir ih =>
    rw [ih p (below_child hp),removable_deeper t run d he hdir hp,
      shielded_child t run d he,not_or,and_assoc,Bool.not_eq_true]

theorem mem_removable (hd : IsDir t d) (e : DeleteDirEntry) (he : e ∈ t.entries d) :
    d++[e.name] ∈ removable t run [] ↔ ¬Shielded t run (d++[e.name]) ∧
      syncedAbove run (d++[e.name]) = true ∧ Unkept run (d++[e.name]) e.isDir ∧
      (e.isDir = true → ∀ c ∈ t.entries (d++[e.name]),
        d++[e.name]++[c.name] ∈ removable t run []) := by
  rw [removable_root t run d hd _ (below_self d e.name),removable_child t run d he,
    shielded_child t run d he,not_or,and_assoc,Bool.not_eq_true]
  refine and_congr_right fun hnd => and_congr_right fun hne => and_congr_right fun _ =>
    and_congr_right fun _ => forall_congr' fun hdir => forall₂_congr fun c _ => ?_
  have hns : ¬Shielded t run (d++[e.name]) := by
    rw [shielded_child t run d he,not_or,Bool.not_eq_true]
    exact ⟨hnd,hne⟩
  rw [removable_root t run _ (.child d e hd he hdir) _ (below_self _ c.name)]
  exact (and_iff_right hns).symm

end

end Characterization

/-- The spelling of a position in the output: its path, with a trailing slash
for a directory. -/
def spelling (t : DirTree Name) (p : Position) : Bytes :=
  relPath p++(if isDirAt t p then [slash] else [])

theorem spelling_injective {t : DirTree Name} : Function.Injective (spelling t) := by
  intro p q h
  unfold spelling at h
  split_ifs at h with hp hq hq
  · exact relPath_injective (List.append_cancel_right h)
  · rw [List.append_nil] at h
    exact absurd (by rw [← h]; simp) relPath_getLast
  · rw [List.append_nil] at h
    exact absurd (by rw [h]; simp) relPath_getLast
  · exact relPath_injective (List.append_cancel_right h)

section Results
variable (run : DeleteRun)

theorem allExtras_positions {t : DirTree Name} : (allExtras t run).map Prod.fst = removable t run [] :=
  rfl

theorem removable_listed (t : DirTree Name) : ∀ p ∈ removable t run [], Listed t p := by
  intro p hp
  obtain ⟨x,hx,rfl⟩ := List.mem_map.mp hp
  obtain ⟨d,e,hd,he,hp,-⟩ := extrasBelow_listed t run _ [] _ _ .root x hx
  exact ⟨d,e,hd,he,hp⟩

theorem removable_nodup (t : DirTree Name) : (removable t run []).Nodup :=
  extrasBelow_nodup t run _ _ _ _

theorem allExtras_kind {t : DirTree Name} : ∀ x ∈ allExtras t run, spell x = spelling t x.1 := by
  intro x hx
  obtain ⟨d,e,hd,he,hp,hk⟩ := extrasBelow_listed t run _ [] _ _ .root x hx
  rw [spell,spelling,hp,isDirAt_entry t he,hk]

theorem syncedAbove_listed (d : Position) (n : Name) :
    syncedAbove run (d++[n]) = true ↔
      ∀ ds, run.dirs = some ds → ∃ a, Below a (d++[n]) ∧ dirName a ∈ ds.items := by
  rw [syncedAbove_iff]
  cases hd : run.dirs with
  | none => simpa [isSyncedDir] using ⟨d,below_self d n⟩
  | some ds => simp [isSyncedDir,pathIndexContains,dirName,relPath_eq_nil]

theorem deleteExtrasLimitedObserved_unlimited (dst : Destination) :
    let r := (deleteExtrasLimitedObserved dst.tree run sizeMax).1
    r.gone = removable dst.tree run [] ∧
      r.budget.deleted = (removable dst.tree run []).length := by
  obtain ⟨hgone,-,hdel,-⟩ := deleteExtrasLimitedObserved_gone dst.tree run sizeMax
  have hfit : (allExtras dst.tree run).length ≤ sizeMax := by
    have := dst.count_fits _ (removable_nodup run dst.tree) (removable_listed run dst.tree)
    rwa [← allExtras_positions,List.length_map] at this
  constructor
  · rw [hgone,List.take_of_length_le hfit,allExtras_positions]
  · rw [hdel,min_eq_right hfit,← allExtras_positions,List.length_map]

/-- With no limit the walk removes a listed entry exactly when no entry on the
way to it is shielded, a directory above it is synchronized or no list of
synchronized directories is given, the manifest does not keep it, and all its
own entries go. What it counts is what it removes; no manifest entry goes, and
no directory above one. -/
theorem deleteExtrasLimitedObserved_exact (dst : Destination) :
    let r := (deleteExtrasLimitedObserved dst.tree run sizeMax).1
    (∀ d e, IsDir dst.tree d → e ∈ dst.tree.entries d →
      (d++[e.name] ∈ r.gone ↔ ¬Shielded dst.tree run (d++[e.name]) ∧
        (∀ ds, run.dirs = some ds → ∃ a, Below a (d++[e.name]) ∧ dirName a ∈ ds.items) ∧
        Unkept run (d++[e.name]) e.isDir ∧
        (e.isDir = true →
          ∀ c ∈ dst.tree.entries (d++[e.name]), d++[e.name]++[c.name] ∈ r.gone))) ∧
    (∀ p ∈ r.gone, Listed dst.tree p) ∧ r.gone.Nodup ∧ r.budget.deleted = r.gone.length ∧
    ∀ p ∈ r.gone, relPath p ∉ run.keep.items ∧
      (isDirAt dst.tree p = true → ∀ k ∈ run.keep.items, ¬(relPath p++[slash]) <+: k) := by
  intro r
  obtain ⟨hr,hdel⟩ := deleteExtrasLimitedObserved_unlimited run dst
  have hexact : ∀ d e, IsDir dst.tree d → e ∈ dst.tree.entries d → _ :=
    fun d e hd he => mem_removable dst.tree run d hd e he
  rw [show r.gone = removable dst.tree run [] from hr]
  refine ⟨?_,removable_listed run dst.tree,removable_nodup run dst.tree,hdel,?_⟩
  · intro d e hd he
    rw [← syncedAbove_listed]
    exact hexact d e hd he
  · intro p hp
    obtain ⟨d,e,hd,he,rfl⟩ := removable_listed run dst.tree p hp
    obtain ⟨-,-,hk,-⟩ := (hexact d e hd he).mp hp
    rw [isDirAt_entry dst.tree he]
    exact ⟨hk.1,fun hdir => (hk.2 hdir).2⟩

def nameA : Name := ⟨[97],by decide⟩

def loneFileTree : DirTree Name where
  entries d := if d = [] then [⟨nameA,false⟩] else []
  height _ := 0
  names_nodup d := by split_ifs <;> simp
  height_lt d e he hdir := by
    split_ifs at he
    · rw [List.mem_singleton.mp he] at hdir
      cases hdir
    · exact absurd he List.not_mem_nil

theorem loneFileTree_listed {p : Position} (h : Listed loneFileTree p) : p = [nameA] := by
  obtain ⟨d,e,-,he,rfl⟩ := h
  simp only [loneFileTree] at he
  split_ifs at he with hd
  · rw [List.mem_singleton.mp he,hd]
    rfl
  · exact absurd he List.not_mem_nil

def loneFile : Destination where
  tree := loneFileTree
  count_fits ps hn hl := by
    have hsub : ps ⊆ [[nameA]] := fun p hp =>
      List.mem_singleton.mpr (loneFileTree_listed (hl p hp))
    exact (List.subperm_of_subset hn hsub).length_le.trans (by decide)

/-- A manifest with the file `a/b`, and no other restriction. -/
def nestedRun : DeleteRun := ⟨⟨[[97,slash,98]]⟩,none,[],none⟩

/-- A file that stands where the manifest has a directory goes, although a
manifest entry lies below its path. -/
theorem deleteExtrasLimitedObserved_ancestor_file :
    [nameA] ∈ (deleteExtrasLimitedObserved loneFile.tree nestedRun sizeMax).1.gone ∧
      (relPath [nameA]++[slash]) <+: [97,slash,98] ∧
      [97,slash,98] ∈ nestedRun.keep.items := by
  refine ⟨?_,by decide,by decide⟩
  refine (mem_removable loneFileTree nestedRun [] .root ⟨nameA,false⟩ (by simp [loneFileTree])).mpr
    ⟨?_,by decide,⟨by decide,by simp⟩,by simp⟩
  rintro ⟨d,e,q,-,-,hs⟩
  simp [shielded,nestedRun,pathUnderSkipPrefix,ruleProtects] at hs

/-- The enumeration touches nothing, and a limited deletion removes exactly its
first entries: the same paths, in the same order and the same spelling. -/
theorem deleteExtrasLimitedObserved_list (t : DirTree Name) (maxDelete : ℕ) :
    let listing := deleteExtrasList t run
    let r := deleteExtrasLimitedObserved t run maxDelete
    listing.gone = [] ∧ listing.recorded = listing.out.length ∧
      r.1.gone.map (spelling t) = listing.out.take maxDelete ∧
      (∀ p, p ∈ r.1.gone ↔ Listed t p ∧ spelling t p ∈ listing.out.take maxDelete) ∧
      r.1.gone.Nodup ∧ r.1.observed = listing.out.take maxDelete ∧
      r.1.budget.deleted = min maxDelete listing.out.length ∧
      (r.2 = .limitReached ↔ maxDelete < listing.out.length) ∧ r.2 ≠ .error := by
  intro listing r
  obtain ⟨hout,hrec,hnone⟩ := deleteExtrasList_out t run
  obtain ⟨hgone,hobs,hdel,hlim⟩ := deleteExtrasLimitedObserved_gone t run maxDelete
  have hlen : listing.out.length = (allExtras t run).length := by
    rw [hout,List.length_map]
  have htake : listing.out.take maxDelete = ((allExtras t run).take maxDelete).map spell := by
    rw [hout,List.map_take]
  have hspell : r.1.gone.map (spelling t) = listing.out.take maxDelete := by
    rw [hgone,htake,List.map_map]
    exact List.map_congr_left fun x hx =>
      (allExtras_kind run x (List.take_subset _ _ hx)).symm
  have hsub : r.1.gone.Sublist (removable t run []) := by
    rw [hgone,← allExtras_positions]
    exact (List.take_sublist _ _).map _
  have hres : r.2 = if decide (maxDelete < (allExtras t run).length) then .limitReached else .ok := by
    rw [← hlim]
    rfl
  refine ⟨hnone,?_,hspell,?_,(removable_nodup run t).sublist hsub,?_,?_,?_,?_⟩
  · rw [hrec,hlen]
  · intro p
    rw [← hspell]
    constructor
    · exact fun hp => ⟨removable_listed run t p (hsub.subset hp),List.mem_map_of_mem hp⟩
    · rintro ⟨-,hp⟩
      exact (List.mem_map_of_injective spelling_injective).mp hp
  · rw [hobs,htake]
  · rw [hdel,hlen]
  · rw [hres,hlen]
    split_ifs with h <;> simpa using h
  · rw [hres]
    split_ifs <;> simp

end Results

end FastSync.DeleteSpec
