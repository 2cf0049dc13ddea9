import FastSync.DeletePaths
import Mathlib.Data.List.TakeWhile
import Mathlib.Data.List.Sort

/-!
# The whole-tree delete walker

One walk serves the real deletion and the dry-run enumeration. It sorts the
entries of a directory, classifies each of them, handles the extraneous
subdirectories, then the extraneous files, and descends into the kept
subdirectories last. The destination is a shrinking tree; the walk reads it as
it is at that moment.
-/

set_option autoImplicit false

namespace FastSync.DeleteWalk
open FiniteTree DeletePaths

inductive DeleteWalkMode where
  | delete
  | list
deriving DecidableEq, Repr

structure DeleteBudget where
  maxDelete : ℕ
  deleted : ℕ
  skipped : ℕ
  limitHit : Bool
deriving DecidableEq, Repr

structure DeleteWalkState where
  mode : DeleteWalkMode
  budget : DeleteBudget
  gone : List Position
  observed : List Bytes
  out : List Bytes
  recorded : ℕ

def deleteNameCmp : Bytes → Bytes → ℤ
  | a::as, b::bs => if a = b ∧ a ≠ 0 then deleteNameCmp as bs else (a.toNat : ℤ)-b.toNat
  | a::_, [] => a.toNat
  | [], b::_ => -b.toNat
  | [], [] => 0

def deleteDirEntryCmpDesc (a b : DeleteDirEntry) : ℤ :=
  if a.isDir ≠ b.isDir then (if a.isDir then -1 else 1)
  else -deleteNameCmp a.name.1 b.name.1

def sortEntries (entries : List DeleteDirEntry) : List DeleteDirEntry :=
  entries.insertionSort fun a b => deleteDirEntryCmpDesc a b ≤ 0

inductive Verdict where
  | shielded
  | extra
  | kept
deriving DecidableEq, Repr

def classify (run : DeleteRun) (rel : Bytes) (deletable : Bool) (e : DeleteDirEntry) : Verdict :=
  let childRel := pathCat rel e.name.1
  if pathUnderSkipPrefix childRel (decide (rel = [])) run.skips then .shielded
  else if ruleProtects run.protectRules childRel e.name.1 e.isDir then .shielded
  else if e.isDir then
    if deletable && !childSynced run.dirs childRel && !keepIsDir run.keep childRel then .extra
    else .kept
  else if deletable && !keepIsFile run.keep childRel then .extra
  else .kept

def limited (st : DeleteWalkState) : DeleteWalkState :=
  { st with budget := { st.budget with limitHit := true, skipped := st.budget.skipped+1 } }

def removed (st : DeleteWalkState) (gone : List Position) (spelled : Bytes) : DeleteWalkState :=
  { st with
    gone := gone
    observed := st.observed++[spelled]
    budget := { st.budget with deleted := st.budget.deleted+1 } }

def recordPath (st : DeleteWalkState) (spelled : Bytes) : DeleteWalkState :=
  { st with out := st.out++[spelled], recorded := st.recorded+1 }

def disposeWith (st : DeleteWalkState) (attempt : Except Errno (List Position))
    (spelled : Bytes) : DeleteWalkState × Bool :=
  match st.mode with
  | .list => (recordPath st spelled, false)
  | .delete =>
    if st.budget.deleted ≥ st.budget.maxDelete then (limited st, true)
    else match attempt with
      | .error _ => (st, true)
      | .ok gone => (removed st gone spelled, false)

def disposeDir (t : DirTree Name) (st : DeleteWalkState) (p : Position) (childRel : Bytes) :
    DeleteWalkState × Bool :=
  disposeWith st (rmdir t st.gone p) (childRel++[slash])

def disposeFile (st : DeleteWalkState) (p : Position) (childRel : Bytes) :
    DeleteWalkState × Bool :=
  disposeWith st (unlink st.gone p) childRel

def extraDirPass (t : DirTree Name) (dir : Position) (rel : Bytes) (deletable : Bool)
    (walk : Position → Bytes → DeleteWalkState → DeleteWalkState × Bool) :
    List DeleteDirEntry → DeleteWalkState × Bool → DeleteWalkState × Bool
  | [], acc => acc
  | e::es, (st, survives) =>
    let childRel := pathCat rel e.name.1
    let (st, childAllRemoved) := walk (dir++[e.name]) childRel st
    if childAllRemoved && deletable then
      let (st, left) := disposeDir t st (dir++[e.name]) childRel
      extraDirPass t dir rel deletable walk es (st, survives || left)
    else extraDirPass t dir rel deletable walk es (st, true)

def extraFilePass (dir : Position) (rel : Bytes) :
    List DeleteDirEntry → DeleteWalkState × Bool → DeleteWalkState × Bool
  | [], acc => acc
  | e::es, (st, survives) =>
    let (st, left) := disposeFile st (dir++[e.name]) (pathCat rel e.name.1)
    extraFilePass dir rel es (st, survives || left)

def keptDirPass (dir : Position) (rel : Bytes)
    (walk : Position → Bytes → DeleteWalkState → DeleteWalkState × Bool) :
    List DeleteDirEntry → DeleteWalkState × Bool → DeleteWalkState × Bool
  | [], acc => acc
  | e::es, (st, _) =>
    let (st, _) := walk (dir++[e.name]) (pathCat rel e.name.1) st
    keptDirPass dir rel walk es (st, true)

def walkEntries (t : DirTree Name) (run : DeleteRun) (dir : Position) (rel : Bytes)
    (deletable : Bool) (walk : Position → Bytes → DeleteWalkState → DeleteWalkState × Bool)
    (entries : List DeleteDirEntry) (st : DeleteWalkState) : DeleteWalkState × Bool :=
  let verdict := classify run rel deletable
  let dirs := entries.takeWhile fun e => e.isDir
  let files := entries.dropWhile fun e => e.isDir
  let survives := entries.any fun e => decide (verdict e ≠ .extra)
  let acc := extraDirPass t dir rel deletable walk
    (dirs.filter fun e => decide (verdict e = .extra)) (st, survives)
  let acc := extraFilePass dir rel (files.filter fun e => decide (verdict e = .extra)) acc
  let acc := keptDirPass dir rel walk
    (dirs.reverse.filter fun e => decide (verdict e = .kept)) acc
  (acc.1, !acc.2)

def deleteWalkFd (t : DirTree Name) (run : DeleteRun) :
    ℕ → Position → Bytes → Bool → DeleteWalkState → DeleteWalkState × Bool
  | 0, _, _, _, st => (st, false)
  | fuel+1, dir, rel, parentDeletable, st =>
    let deletable := parentDeletable || isSyncedDir run.dirs rel
    walkEntries t run dir rel deletable (fun p r st => deleteWalkFd t run fuel p r deletable st)
      (sortEntries (readdir t st.gone dir)) st

inductive DeleteWalkResult where
  | ok
  | limitReached
  | error
deriving DecidableEq, Repr

def deleteExtrasList (t : DirTree Name) (run : DeleteRun) : DeleteWalkState :=
  (deleteWalkFd t run (t.height []+1) [] [] false
    ⟨.list,⟨0,0,0,false⟩,[],[],[],0⟩).1

def deleteExtrasLimitedObserved (t : DirTree Name) (run : DeleteRun) (maxDelete : ℕ) :
    DeleteWalkState × DeleteWalkResult :=
  let st := (deleteWalkFd t run (t.height []+1) [] [] false
    ⟨.delete,⟨maxDelete,0,0,false⟩,[],[],[],0⟩).1
  (st, if st.budget.limitHit then .limitReached else .ok)

theorem deleteNameCmp_swap (a b : Bytes) : deleteNameCmp a b = -deleteNameCmp b a := by
  induction a generalizing b with
  | nil => cases b <;> simp [deleteNameCmp]
  | cons x as ih =>
    cases b with
    | nil => simp [deleteNameCmp]
    | cons y bs =>
      by_cases h : x = y
      · subst h
        by_cases hx : x = 0 <;> simp [deleteNameCmp, hx, ih bs]
      · have h' : ¬y = x := fun he => h he.symm
        simp only [deleteNameCmp, h, h', false_and, if_false]
        omega

theorem deleteNameCmp_trans (a b c : Bytes) (hab : deleteNameCmp a b ≤ 0)
    (hbc : deleteNameCmp b c ≤ 0) : deleteNameCmp a c ≤ 0 := by
  induction a generalizing b c with
  | nil => cases c <;> simp [deleteNameCmp]
  | cons x as ih =>
    cases b with
    | nil =>
      have hx : x.toNat = 0 := by simpa [deleteNameCmp] using hab
      have hx0 : x = 0 := UInt8.toNat_inj.mp hx
      cases c <;> simp [deleteNameCmp, hx0]
    | cons y bs =>
      cases c with
      | nil =>
        have hy : y.toNat = 0 := by simpa [deleteNameCmp] using hbc
        have hy0 : y = 0 := UInt8.toNat_inj.mp hy
        subst hy0
        by_cases hx : x = 0
        · simp [deleteNameCmp, hx]
        · simpa [deleteNameCmp, hx] using hab
      | cons z cs =>
        rw [deleteNameCmp] at hab hbc ⊢
        have inj : ∀ u v : UInt8, u = v ↔ u.toNat = v.toNat := fun u v => UInt8.toNat_inj.symm
        simp only [inj, UInt8.toNat_zero, ne_eq] at hab hbc ⊢
        split_ifs at hab hbc ⊢
        any_goals omega
        exact ih bs cs hab hbc

theorem cmpDesc_total (a b : DeleteDirEntry) :
    deleteDirEntryCmpDesc a b ≤ 0 ∨ deleteDirEntryCmpDesc b a ≤ 0 := by
  unfold deleteDirEntryCmpDesc
  have hs := deleteNameCmp_swap a.name.1 b.name.1
  cases a.isDir <;> cases b.isDir <;> simp <;> omega

theorem cmpDesc_trans (a b c : DeleteDirEntry) (hab : deleteDirEntryCmpDesc a b ≤ 0)
    (hbc : deleteDirEntryCmpDesc b c ≤ 0) : deleteDirEntryCmpDesc a c ≤ 0 := by
  unfold deleteDirEntryCmpDesc at *
  have h1 := deleteNameCmp_swap a.name.1 b.name.1
  have h2 := deleteNameCmp_swap b.name.1 c.name.1
  have h3 := deleteNameCmp_swap a.name.1 c.name.1
  have ht := deleteNameCmp_trans c.name.1 b.name.1 a.name.1
  cases ha : a.isDir <;> cases hb : b.isDir <;> cases hc : c.isDir <;>
    simp [ha, hb, hc] at hab hbc ⊢ <;> omega

section
variable (es : List DeleteDirEntry)

theorem mem_sortEntries {e : DeleteDirEntry} :
    e ∈ sortEntries es ↔ e ∈ es := List.mem_insertionSort _

theorem sortEntries_nodup (h : (es.map Entry.name).Nodup) :
    ((sortEntries es).map Entry.name).Nodup :=
  ((List.perm_insertionSort _ es).map Entry.name).nodup_iff.mpr h

def DirsFirst (es : List DeleteDirEntry) : Prop :=
  es.Pairwise fun a b => b.isDir = true → a.isDir = true

theorem sortEntries_dirsFirst : DirsFirst (sortEntries es) := by
  have htotal : Std.Total fun a b : DeleteDirEntry => deleteDirEntryCmpDesc a b ≤ 0 :=
    ⟨cmpDesc_total⟩
  have htrans : IsTrans DeleteDirEntry fun a b => deleteDirEntryCmpDesc a b ≤ 0 :=
    ⟨cmpDesc_trans⟩
  refine (List.pairwise_insertionSort _ es).imp fun {a b} hab hb => ?_
  unfold deleteDirEntryCmpDesc at hab
  cases ha : a.isDir with
  | true => rfl
  | false => simp [ha, hb] at hab

theorem dirsFirst_files (h : DirsFirst es) :
    ∀ e ∈ es.dropWhile (fun e => e.isDir), e.isDir = false := by
  induction es with
  | nil => simp
  | cons a es ih =>
    rw [DirsFirst, List.pairwise_cons] at h
    intro e he
    cases ha : a.isDir with
    | true =>
      rw [List.dropWhile_cons_of_pos ha] at he
      exact ih h.2 e he
    | false =>
      rw [List.dropWhile_cons_of_neg (by simp [ha])] at he
      rcases List.mem_cons.mp he with rfl | he
      · exact ha
      · by_contra hne
        have := h.1 e he (by simpa using hne)
        rw [ha] at this
        cases this

end

end FastSync.DeleteWalk
