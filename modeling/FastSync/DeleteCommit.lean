import FastSync.DeleteWalk
import FastSync.CheckedMemory

/-!
# The deletion commit of a whole manifest

A commit first removes the destination mirrors of missing source arguments and
then walks the tree for extras; both draw on one budget. The configuration is
the part of it that the deletion phases read.
-/

set_option autoImplicit false

namespace FastSync.DeleteCommit
open FiniteTree DeletePaths DeleteWalk CheckedMemory

def maxServerDeleteCount : ℕ := 100000

def delayUpdatesStagingDir : Bytes := [46,102,97,115,116,115,121,110,99,45,115,116,97,103,101]

structure Config where
  receiveRootDirectory : Bytes
  delayUpdates : Bool
  basisDirs : List Bytes
  protectRules : Option (Bytes → Bytes → Bool → FilterAction)
  useDelete : Bool
  deleteMissingArgs : Bool
  forceDelete : Bool
  dryRun : Bool
  deleteBefore : Bool
  deleteDuring : Bool
  deleteDelay : Bool
  maxDelete : ℤ

/-- The entries one deletion phase may remove: the client's bound when it is
below the server's, and the server's otherwise. -/
def effectiveMaxDelete (cfg : Config) : ℕ :=
  if 0 ≤ cfg.maxDelete ∧ cfg.maxDelete.toNat < maxServerDeleteCount then cfg.maxDelete.toNat
  else maxServerDeleteCount

theorem effectiveMaxDelete_le {cfg : Config} : effectiveMaxDelete cfg ≤ maxServerDeleteCount := by
  unfold effectiveMaxDelete
  split_ifs with h
  · exact h.2.le
  · exact le_rfl

theorem effectiveMaxDelete_ne_sizeMax (cfg : Config) : effectiveMaxDelete cfg ≠ sizeMax :=
  fun h => absurd (h ▸ effectiveMaxDelete_le) (by decide)

def trimRoot (root : Bytes) : Bytes :=
  let r := (root.reverse.dropWhile fun b => decide (b = slash)).reverse
  if r = [] then root.take 1 else r

def deleteBasisRelative (cfg : Config) (path : Bytes) : Option Bytes :=
  if path.head? ≠ some slash then some path
  else if cfg.receiveRootDirectory.head? ≠ some slash then none
  else
    let root := trimRoot cfg.receiveRootDirectory
    if !root.isPrefixOf path then none
    else if root.length = 1 then (if path.length = 1 then none else some (path.drop 1))
    else if (path.drop root.length).head? ≠ some slash then none
    else some (path.drop (root.length+1))

def deleteSkipsBuild (cfg : Config) (protectedPaths sizeSkipped : List Bytes)
    (basisRootRelative : Bool) : List DeleteSkipEntry :=
  (if cfg.delayUpdates then [⟨delayUpdatesStagingDir,true⟩] else [])++
    (if basisRootRelative then cfg.basisDirs.filterMap (deleteBasisRelative cfg)
      else cfg.basisDirs).map (⟨·,false⟩)++
    protectedPaths.map (⟨·,false⟩)++sizeSkipped.map (⟨·,false⟩)

structure DeleteManifest where
  keeps : List Bytes
  protectedPaths : List Bytes
  missing : List Bytes
  dirs : List Bytes

structure CommitState where
  budget : DeleteBudget
  gone : List Position
  observed : List Bytes
  ok : Bool

inductive LeafStat where
  | absent
  | self
  | entry (p : Position) (isDir : Bool)
deriving DecidableEq

/-- Opens the parent of a relative path and looks at its last component. An
empty last component names nothing, and `.` names the parent itself. -/
def statLeaf (t : DirTree Name) (gone : List Position) (rel : Bytes) : LeafStat :=
  let cs := components rel
  let leaf := cs.getLastD []
  match resolve cs.dropLast with
  | none => .absent
  | some d =>
    if stat t gone [] d ≠ some true ∨ leaf = [] then .absent
    else if leaf = [dot] then .self
    else match name? leaf with
      | none => .absent
      | some n =>
        match stat t gone d [n] with
        | none => .absent
        | some isDir => .entry (d++[n]) isDir

def noteLimit (st : CommitState) : CommitState :=
  { st with budget := { st.budget with limitHit := true, skipped := st.budget.skipped+1 } }

def noteRemoved (st : CommitState) (gone : List Position) (rel : Bytes) : CommitState :=
  { st with
    gone := gone
    observed := st.observed++[rel]
    budget := { st.budget with deleted := st.budget.deleted+1 } }

def bareRun : DeleteRun := ⟨⟨[]⟩,none,[],none⟩

/-- A non-empty missing-argument directory: its content goes through the
budgeted walker, and the emptied directory costs one more. -/
def removeMissingDir (cfg : Config) (t : DirTree Name) (rel : Bytes) (p : Position)
    (st : CommitState) : CommitState :=
  if cfg.useDelete || cfg.forceDelete then
    let walk := deleteExtrasLimitedObserved (subtree (prune t st.gone) p) bareRun
      (st.budget.maxDelete-st.budget.deleted)
    let st1 : CommitState :=
      { st with
        gone := st.gone++walk.1.gone.map (p++·)
        observed := st.observed++walk.1.observed.map (pathCat rel)
        budget := { st.budget with
          deleted := st.budget.deleted+walk.1.budget.deleted
          skipped := st.budget.skipped+walk.1.budget.skipped } }
    match walk.2 with
    | .limitReached => { st1 with budget := { st1.budget with limitHit := true } }
    | .error => { st1 with ok := false }
    | .ok =>
      if st1.budget.deleted ≥ st1.budget.maxDelete then noteLimit st1
      else noteRemoved st1 (st1.gone++content (prune t st1.gone) (t.height p+1) p++[p]) rel
  else st

/-- One missing argument, and whether the loop reaches its final check. -/
def deleteMissingArg (cfg : Config) (t : DirTree Name) (skips : List DeleteSkipEntry) (rel : Bytes)
    (st : CommitState) : CommitState × Bool :=
  if rel = [] ∨ rel.head? = some slash ∨ hasPathTraversal rel = true then
    ({ st with ok := false }, false)
  else if pathUnderSkipPrefix rel (decide (slash ∉ rel)) skips then (st, false)
  else match statLeaf t st.gone rel with
    | .absent => (st, false)
    | .self =>
      if st.budget.deleted ≥ st.budget.maxDelete then (noteLimit st, false)
      else ({ st with ok := false }, true)
    | .entry p isDir =>
      if st.budget.deleted ≥ st.budget.maxDelete then (noteLimit st, false)
      else if isDir then
        match rmdir t st.gone p with
        | .ok gone => (noteRemoved st gone rel, true)
        | .error .enotempty => (removeMissingDir cfg t rel p st, true)
        | .error .enoent => (st, true)
      else match unlink st.gone p with
        | .ok gone => (noteRemoved st gone rel, true)
        | .error _ => (st, true)

def deleteMissingLoop (cfg : Config) (t : DirTree Name) (skips : List DeleteSkipEntry) :
    List Bytes → CommitState → CommitState
  | [], st => st
  | rel::rels, st =>
    let r := deleteMissingArg cfg t skips rel st
    if r.2 && !r.1.ok then r.1 else deleteMissingLoop cfg t skips rels r.1

def deleteMissingArgsBudgetedObserved (cfg : Config) (t : DirTree Name) (missing : List Bytes)
    (st : CommitState) : CommitState :=
  if missing = [] then st
  else deleteMissingLoop cfg t (deleteSkipsBuild cfg [] [] true) missing st

def deleteExtrasBudgetedObserved (cfg : Config) (t : DirTree Name) (manifest : DeleteManifest)
    (st : CommitState) : CommitState :=
  let skips := deleteSkipsBuild cfg manifest.protectedPaths [] true
  let remaining := if st.budget.maxDelete = sizeMax then sizeMax
    else st.budget.maxDelete-st.budget.deleted
  let walk := deleteExtrasLimitedObserved (prune t st.gone)
    ⟨⟨manifest.keeps⟩,some ⟨manifest.dirs⟩,skips,cfg.protectRules⟩ remaining
  let st1 : CommitState :=
    { st with
      gone := st.gone++walk.1.gone
      observed := st.observed++walk.1.observed
      budget := { st.budget with
        deleted := st.budget.deleted+walk.1.budget.deleted
        skipped := st.budget.skipped+walk.1.budget.skipped } }
  match walk.2 with
  | .limitReached => { st1 with budget := { st1.budget with limitHit := true } }
  | .error => { st1 with ok := false }
  | .ok => st1

/-- The walk that removes the extras of a manifest from what a commit has left. -/
def extrasWalk (cfg : Config) (t : DirTree Name) (manifest : DeleteManifest) (st : CommitState) :
    DeleteWalkState :=
  (deleteExtrasLimitedObserved (prune t st.gone)
    ⟨⟨manifest.keeps⟩,some ⟨manifest.dirs⟩,deleteSkipsBuild cfg manifest.protectedPaths [] true,
      cfg.protectRules⟩
    (if st.budget.maxDelete = sizeMax then sizeMax
      else st.budget.maxDelete-st.budget.deleted)).1

theorem deleteExtrasBudgetedObserved_eq (cfg : Config) (t : DirTree Name) (manifest : DeleteManifest)
    (st : CommitState) :
    deleteExtrasBudgetedObserved cfg t manifest st =
      ⟨⟨st.budget.maxDelete,st.budget.deleted+(extrasWalk cfg t manifest st).budget.deleted,
        st.budget.skipped+(extrasWalk cfg t manifest st).budget.skipped,
        st.budget.limitHit || (extrasWalk cfg t manifest st).budget.limitHit⟩,
        st.gone++(extrasWalk cfg t manifest st).gone,
        st.observed++(extrasWalk cfg t manifest st).observed,st.ok⟩ := by
  have hwalk : ∀ u run n, (deleteExtrasLimitedObserved u run n).2 =
      if (deleteExtrasLimitedObserved u run n).1.budget.limitHit then .limitReached else .ok :=
    fun _ _ _ => rfl
  rw [deleteExtrasBudgetedObserved, hwalk]
  unfold extrasWalk
  generalize deleteExtrasLimitedObserved _ _ _ = w
  cases h : w.1.budget.limitHit <;> simp

inductive DeleteCommitResult where
  | ok
  | limitReached
  | error
deriving DecidableEq, Repr

def manifestDeleteAllObserved (cfg : Config) (t : DirTree Name) (manifest : DeleteManifest) :
    CommitState × DeleteCommitResult :=
  let st : CommitState := ⟨⟨effectiveMaxDelete cfg,0,0,false⟩,[],[],true⟩
  if cfg.dryRun then (st, .ok)
  else
    let st := if cfg.deleteMissingArgs then
      deleteMissingArgsBudgetedObserved cfg t manifest.missing st else st
    if !st.ok then (st, .error)
    else
      let st := if cfg.useDelete then deleteExtrasBudgetedObserved cfg t manifest st else st
      if !st.ok then (st, .error)
      else (st, if st.budget.limitHit then .limitReached else .ok)

end FastSync.DeleteCommit
