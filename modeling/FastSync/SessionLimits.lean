import FastSync.LimitedRun
import FastSync.SessionCalls

/-!
# Sessions whose limits are not reached

A session that says of no limit that it was reached is the session under any
wider limits, removal by removal and path by path: nothing was left in place
for want of budget or room.
-/

set_option autoImplicit false

namespace FastSync.SessionLimits
open FiniteTree DeletePaths DeleteWalk DeletePlan
open DeleteCommit DeleteSession DeleteBound SessionCalls
open LimitedRun

section Walker
variable {m : ℕ} (t : DirTree Name) {run : DeleteRun}

def walkLimits (m : ℕ) : Limits DeleteWalkState where
  hit st := st.budget.limitHit
  Tighter st := st.budget.maxDelete ≤ m
  widen st := {st with budget := {st.budget with maxDelete := m}}

theorem disposeWith_unhindered (attempt : Except Errno (List Position)) (spelled : Bytes) :
    Unhindered (walkLimits m) fun st => disposeWith st attempt spelled := by
  constructor
  · intro st h
    unfold disposeWith
    split
    · exact h
    · split_ifs
      · rfl
      · cases attempt <;> exact h
  · intro st h
    unfold disposeWith
    split
    · exact h
    · split_ifs
      · exact h
      · cases attempt <;> exact h
  · intro st hle h
    unfold disposeWith at h ⊢
    have hmode : ((walkLimits m).widen st).mode = st.mode := rfl
    rw [hmode]
    cases hm : st.mode with
    | list => rfl
    | delete =>
      rw [hm] at h
      by_cases hfull : st.budget.deleted ≥ st.budget.maxDelete
      · rw [if_pos hfull] at h
        cases h
      · have hroom : ¬((walkLimits m).widen st).budget.deleted ≥
            ((walkLimits m).widen st).budget.maxDelete := fun hm => hfull (le_trans hle hm)
        rw [if_neg hfull,if_neg hroom]
        cases attempt <;> rfl

theorem disposeDir_unhindered {p : Position} {rel : Bytes} :
    Unhindered (walkLimits m) fun st => disposeDir t st p rel :=
  unhindered_view (fun st => rmdir t st.gone p) (fun _ => rfl) fun attempt =>
    disposeWith_unhindered attempt (rel++[slash])

theorem disposeFile_unhindered {p : Position} {rel : Bytes} :
    Unhindered (walkLimits m) fun st => disposeFile st p rel :=
  unhindered_view (fun st => unlink st.gone p) (fun _ => rfl) fun attempt =>
    disposeWith_unhindered attempt rel

section Passes
variable {dir : Position} {rel : Bytes}
variable {walk : Position → Bytes → DeleteWalkState → DeleteWalkState × Bool}

theorem extraDirPass_unhindered (hwalk : ∀ p r, Unhindered (walkLimits m) (walk p r))
    (deletable : Bool) (es : List DeleteDirEntry) (survives : Bool) :
    Unhindered (walkLimits m) fun st => extraDirPass t dir rel deletable walk es (st, survives) := by
  induction es generalizing survives with
  | nil => exact unhindered_pure survives
  | cons e es ih =>
    refine unhindered_bind (g := fun all st => if all && deletable then
      extraDirPass t dir rel deletable walk es
        ((disposeDir t st (dir++[e.name]) (pathCat rel e.name.1)).1,
          survives || (disposeDir t st (dir++[e.name]) (pathCat rel e.name.1)).2)
      else extraDirPass t dir rel deletable walk es (st, true)) (hwalk _ _) fun all => ?_
    cases all && deletable with
    | true => exact unhindered_bind (disposeDir_unhindered t) fun left => ih (survives || left)
    | false => exact ih true

theorem extraFilePass_unhindered {es : List DeleteDirEntry} (survives : Bool) :
    Unhindered (walkLimits m) fun st => extraFilePass dir rel es (st, survives) := by
  induction es generalizing survives with
  | nil => exact unhindered_pure survives
  | cons e es ih =>
    exact unhindered_bind disposeFile_unhindered fun left => ih (survives || left)

theorem keptDirPass_unhindered (hwalk : ∀ p r, Unhindered (walkLimits m) (walk p r))
    (es : List DeleteDirEntry) (survives : Bool) :
    Unhindered (walkLimits m) fun st => keptDirPass dir rel walk es (st, survives) := by
  induction es generalizing survives with
  | nil => exact unhindered_pure survives
  | cons e es ih => exact unhindered_bind (hwalk _ _) fun _ => ih true

end Passes

theorem deleteWalkFd_unhindered {fuel : ℕ} (dir : Position) (rel : Bytes) (deletable : Bool) :
    Unhindered (walkLimits m) (deleteWalkFd t run fuel dir rel deletable) := by
  induction fuel generalizing dir rel deletable with
  | zero => exact unhindered_pure false
  | succ fuel ih =>
    refine unhindered_view (f := fun es => walkEntries t run dir rel
      (deletable || isSyncedDir run.dirs rel) (fun p r st => deleteWalkFd t run fuel p r
        (deletable || isSyncedDir run.dirs rel) st) es)
      (fun st => sortEntries (readdir t st.gone dir)) (fun _ => rfl) fun es => ?_
    have hsub : ∀ p r, Unhindered (walkLimits m) fun st => deleteWalkFd t run fuel p r
        (deletable || isSyncedDir run.dirs rel) st := fun p r => ih p r _
    have hdirs := @extraDirPass_unhindered m t dir rel _ hsub (deletable || isSyncedDir run.dirs rel)
    have hkept := @keptDirPass_unhindered m dir rel _ hsub
    exact unhindered_map (unhindered_bind (unhindered_bind (hdirs _ _) fun s =>
      extraFilePass_unhindered s) fun s => hkept _ s) fun s => !s

/-- A walk that reaches no limit is the walk under any larger one. -/
theorem deleteExtras_unhindered {n : ℕ} (hle : n ≤ m)
    (h : (deleteExtrasLimitedObserved t run n).1.budget.limitHit = false) :
    deleteExtrasLimitedObserved t run m =
      ((walkLimits m).widen (deleteExtrasLimitedObserved t run n).1,
        (deleteExtrasLimitedObserved t run n).2) := by
  have hsame := (deleteWalkFd_unhindered t [] [] false).same
    ⟨.delete,⟨n,0,0,false⟩,[],[],[],0⟩ hle h
  unfold deleteExtrasLimitedObserved
  rw [show (⟨.delete,⟨m,0,0,false⟩,[],[],[],0⟩ : DeleteWalkState) =
    (walkLimits m).widen ⟨.delete,⟨n,0,0,false⟩,[],[],[],0⟩ from rfl,hsame]
  rfl

end Walker

section Commit
variable {m : ℕ} (cfg : Config) (t : DirTree Name)

def commitLimits (m : ℕ) : Limits CommitState where
  hit st := st.budget.limitHit
  Tighter st := st.budget.maxDelete ≤ m
  widen st := {st with budget := {st.budget with maxDelete := m}}

theorem afterWalk_widen {rel : Bytes} {p : Position} {st : CommitState}
    (hle : st.budget.maxDelete ≤ m) (h : (missingWalk t p st).budget.limitHit = false) :
    (missingWalk t p ((commitLimits m).widen st)).budget.limitHit = false ∧
      afterWalk t rel p ((commitLimits m).widen st) =
        (commitLimits m).widen (afterWalk t rel p st) := by
  have hwalk : missingWalk t p ((commitLimits m).widen st) =
      (walkLimits (m-st.budget.deleted)).widen (missingWalk t p st) :=
    congrArg Prod.fst (deleteExtras_unhindered (subtree (prune t st.gone) p)
      (Nat.sub_le_sub_right hle _) h)
  constructor
  · rw [hwalk]
    exact h
  · rw [afterWalk,hwalk]
    rfl

theorem removeMissingDir_unhindered (rel : Bytes) (p : Position) :
    Unhindered (commitLimits m) fun st => (removeMissingDir cfg t rel p st, true) := by
  by_cases hrec : (cfg.useDelete || cfg.forceDelete) = true
  · simp only [removeMissingDir_eq t hrec]
    constructor
    · intro st h
      split_ifs
      · rfl
      · rfl
      · exact h
    · intro st h
      split_ifs <;> exact h
    · intro st hle h
      by_cases hlim : (missingWalk t p st).budget.limitHit = true
      · rw [if_pos hlim] at h
        cases h
      obtain ⟨hwide,hafter⟩ := afterWalk_widen t hle (by simpa using hlim)
      rw [if_neg hlim] at h ⊢
      rw [if_neg (by rw [hwide]; simp),hafter]
      by_cases hfull : (afterWalk t rel p st).budget.deleted ≥ st.budget.maxDelete
      · rw [if_pos hfull] at h
        cases h
      have hroom : ¬((commitLimits m).widen (afterWalk t rel p st)).budget.deleted ≥
          ((commitLimits m).widen st).budget.maxDelete := fun hm => hfull (le_trans hle hm)
      rw [if_neg hfull,if_neg hroom]
      rfl
  · simp only [removeMissingDir,if_neg hrec]
    exact unhindered_pure true

theorem missing_gate (a : Bool) {f : CommitState → CommitState × Bool}
    (hf : Unhindered (commitLimits m) f) : Unhindered (commitLimits m) fun st =>
      if st.budget.deleted ≥ st.budget.maxDelete then (noteLimit st, a) else f st :=
  unhindered_gate
    (fun _ hle hm => le_trans hle hm) hf (fun _ => rfl) fun _ h => h

theorem missingEntry_unhindered {rel : Bytes} {p : Position} {isDir : Bool}
    {skips : List DeleteSkipEntry}
    (hvalid : ¬(rel = [] ∨ rel.head? = some slash ∨ hasPathTraversal rel = true))
    (hskip : ¬pathUnderSkipPrefix rel (decide (slash ∉ rel)) skips = true) {gone : List Position}
    (hleaf : statLeaf t gone rel = .entry p isDir) :
    ∃ g, Unhindered (commitLimits m) g ∧
      ∀ st, st.gone = gone → deleteMissingArg cfg t skips rel st = g st := by
  have hremove : ∀ gone, Unhindered (commitLimits m) fun st => (noteRemoved st gone rel, true) :=
    fun _ => ⟨fun _ h => h,fun _ h => h,fun _ _ _ => rfl⟩
  cases isDir with
  | true =>
    cases hrm : rmdir t gone p with
    | ok gone' =>
      refine ⟨_,missing_gate false (hremove gone'),?_⟩
      rintro st rfl
      rw [deleteMissingArg,if_neg hvalid,if_neg hskip,hleaf]
      simp [hrm]
    | error e =>
      cases e with
      | enoent =>
        refine ⟨_,missing_gate false (unhindered_pure true),?_⟩
        rintro st rfl
        rw [deleteMissingArg,if_neg hvalid,if_neg hskip,hleaf]
        simp [hrm]
      | enotempty =>
        refine ⟨_,missing_gate false (removeMissingDir_unhindered cfg t rel p),?_⟩
        rintro st rfl
        rw [deleteMissingArg,if_neg hvalid,if_neg hskip,hleaf]
        simp [hrm]
  | false =>
    cases hul : unlink gone p with
    | ok gone' =>
      refine ⟨_,missing_gate false (hremove gone'),?_⟩
      rintro st rfl
      rw [deleteMissingArg,if_neg hvalid,if_neg hskip,hleaf]
      simp [hul]
    | error e =>
      refine ⟨_,missing_gate false (unhindered_pure true),?_⟩
      rintro st rfl
      rw [deleteMissingArg,if_neg hvalid,if_neg hskip,hleaf]
      simp [hul]

theorem missingArg_unhindered {skips : List DeleteSkipEntry} {rel : Bytes} :
    Unhindered (commitLimits m) (deleteMissingArg cfg t skips rel) := by
  have hfail : ∀ a, Unhindered (commitLimits m) fun st => ({ st with ok := false }, a) :=
    fun (_ : Bool) => ⟨fun _ h => h,fun _ h => h,fun _ _ _ => rfl⟩
  refine unhindered_at (fun st => st.gone) (fun _ => rfl) fun gone => ?_
  by_cases hvalid : rel = [] ∨ rel.head? = some slash ∨ hasPathTraversal rel = true
  · exact ⟨_,hfail false,fun st _ => by rw [deleteMissingArg,if_pos hvalid]⟩
  by_cases hskip : pathUnderSkipPrefix rel (decide (slash ∉ rel)) skips = true
  · exact ⟨_,unhindered_pure false,fun st _ => by rw [deleteMissingArg,if_neg hvalid,if_pos hskip]⟩
  cases hleaf : statLeaf t gone rel with
  | absent =>
    refine ⟨_,unhindered_pure false,?_⟩
    rintro st rfl
    rw [deleteMissingArg,if_neg hvalid,if_neg hskip,hleaf]
  | self =>
    refine ⟨_,missing_gate false (hfail true),?_⟩
    rintro st rfl
    rw [deleteMissingArg,if_neg hvalid,if_neg hskip,hleaf]
  | entry p isDir => exact missingEntry_unhindered cfg t hvalid hskip hleaf

theorem missingLoop_unhindered {skips : List DeleteSkipEntry} {rels : List Bytes} :
    Unhindered (commitLimits m) fun st => (deleteMissingLoop cfg t skips rels st, ()) := by
  induction rels with
  | nil => exact unhindered_pure ()
  | cons rel rels ih =>
    refine unhindered_bind (g := fun past st => (if past && !st.ok then st
      else deleteMissingLoop cfg t skips rels st, ())) (missingArg_unhindered cfg t)
      fun past => ?_
    refine unhindered_view (f := fun ok st => (if past && !ok then st
      else deleteMissingLoop cfg t skips rels st, ())) (fun st => st.ok) (fun _ => rfl) fun ok => ?_
    cases past && !ok with
    | true => exact unhindered_pure ()
    | false => exact ih

end Commit

section Plans
variable {m k : ℕ} (cfg : Config) (t : DirTree Name)

def sessionLimits (m k : ℕ) : Limits DeletePlanSession where
  hit s := s.limitHit
  Tighter s := s.maxDelete ≤ m ∧ s.deferCap ≤ k
  widen s := {s with maxDelete := m, deferCap := k}

section
variable {α : Type} (a : α)

theorem deferAdd_unhindered (rel : Bytes) :
    Unhindered (sessionLimits m k) fun s => (deferAdd s rel, a) := by
  have hnote : Unhindered (sessionLimits m k) fun s =>
      ({ s with deferred := s.deferred++[rel] }, a) :=
    ⟨fun _ h => h,fun _ h => h,fun _ _ _ => rfl⟩
  have hsame : (fun s => (deferAdd s rel, a)) = fun s : DeletePlanSession =>
      if s.deferred.length ≥ s.deferCap then (noteSkipped s, a)
      else ({ s with deferred := s.deferred++[rel] }, a) := by
    funext s
    unfold deferAdd
    split_ifs <;> rfl
  rw [hsame]
  refine unhindered_gate ?_ hnote
    (fun _ => rfl) fun _ h => h
  exact fun _ hle hfull => le_trans hle.2 hfull

theorem budget_gate {f : DeletePlanSession → DeletePlanSession × α}
    (hf : Unhindered (sessionLimits m k) f) :
    Unhindered (sessionLimits m k) fun s =>
      if !budgetAvailable s then (noteSkipped s, a) else f s := by
  refine unhindered_gate ?_ hf
    (fun _ => rfl) fun _ h => h
  intro s hle hwide
  rw [Bool.not_eq_true',budgetAvailable,decide_eq_false_iff_not] at hwide ⊢
  exact fun hlt => hwide (lt_of_lt_of_le hlt hle.1)

theorem notePlanned_unhindered (gone : List Position) (rel : Bytes) :
    Unhindered (sessionLimits m k) fun s => (notePlanned s gone rel, a) :=
  ⟨fun _ h => h,fun _ h => h,fun _ _ _ => rfl⟩

end

theorem disposeExtraDir_unhindered {p : Position} {rel : Bytes} {f : Bool} :
    Unhindered (sessionLimits m k) (disposeExtraDir t p rel f) := by
  refine unhindered_pair (fun s => s.defer) (fun s => s.gone) (fun _ => ⟨rfl,rfl⟩) fun d gone => ?_
  cases hdefer : d && !f with
  | true =>
    refine ⟨_,deferAdd_unhindered true rel,?_⟩
    rintro s rfl rfl
    rw [disposeExtraDir,if_pos hdefer]
  | false =>
    cases hrm : rmdir t gone p with
    | ok gone' =>
      refine ⟨_,budget_gate false (notePlanned_unhindered true gone' (rel++[slash])),?_⟩
      rintro s rfl rfl
      rw [disposeExtraDir,if_neg (by simp [hdefer]),hrm]
    | error e =>
      cases e with
      | enoent =>
        refine ⟨_,budget_gate false (unhindered_pure true),?_⟩
        rintro s rfl rfl
        rw [disposeExtraDir,if_neg (by simp [hdefer]),hrm]
      | enotempty =>
        refine ⟨_,budget_gate false (unhindered_pure false),?_⟩
        rintro s rfl rfl
        rw [disposeExtraDir,if_neg (by simp [hdefer]),hrm]

theorem processExtraFile_unhindered (p : Position) (rel : Bytes) (f : Bool) :
    Unhindered (sessionLimits m k) fun s => (processExtraFile p rel f s, ()) := by
  refine unhindered_pair (fun s => s.defer) (fun s => s.gone) (fun _ => ⟨rfl,rfl⟩) fun d gone => ?_
  cases hdefer : d && !f with
  | true =>
    refine ⟨_,deferAdd_unhindered () rel,?_⟩
    rintro s rfl rfl
    rw [processExtraFile,if_pos hdefer]
  | false =>
    cases hul : unlink gone p with
    | ok gone' =>
      refine ⟨_,budget_gate () (notePlanned_unhindered () gone' rel),?_⟩
      rintro s rfl rfl
      rw [processExtraFile,if_neg (by simp [hdefer]),hul]
      split_ifs <;> rfl
    | error e =>
      refine ⟨_,budget_gate () (unhindered_pure ()),?_⟩
      rintro s rfl rfl
      rw [processExtraFile,if_neg (by simp [hdefer]),hul]
      split_ifs <;> rfl

section Passes
variable {dir : Position} {dirRel : Bytes} {keep : Option KeepLists}
variable {children : Position → Bytes → Bool → DeletePlanSession → DeletePlanSession × Bool}

section
variable (hc : ∀ p rel f, Unhindered (sessionLimits m k) (children p rel f))
include hc

theorem processExtraDir_unhindered (p : Position) (rel : Bytes) (f : Bool) :
    Unhindered (sessionLimits m k) (processExtraDir t children p rel f) := by
  refine unhindered_bind (g := fun left s => if left then (s, false) else
    disposeExtraDir t p rel f s) (hc p rel f) fun left => ?_
  cases left with
  | true => exact unhindered_pure false
  | false => exact disposeExtraDir_unhindered t

theorem planDirPass_unhindered (forceNow : Bool) (es : List DeleteDirEntry) (survives : Bool) :
    Unhindered (sessionLimits m k) fun s =>
      planDirPass t dir dirRel keep forceNow children es (s, survives) := by
  induction es generalizing survives with
  | nil => exact unhindered_pure survives
  | cons e es ih =>
    exact unhindered_bind (processExtraDir_unhindered t hc _ _ _) fun removed =>
      ih (survives || !removed)

end

theorem planFilePass_unhindered (forceNow : Bool) (es : List DeleteDirEntry) :
    Unhindered (sessionLimits m k) fun s => (planFilePass dir dirRel keep forceNow es s, ()) := by
  induction es with
  | nil => exact unhindered_pure ()
  | cons e es ih => exact unhindered_bind (processExtraFile_unhindered _ _ _) fun _ => ih

end Passes

theorem processChildren_unhindered (skips : PlanSkips) (fuel : ℕ) (dir : Position) (dirRel : Bytes)
    (keep : Option KeepLists) (atRoot forceNow : Bool) :
    Unhindered (sessionLimits m k)
      (processChildren t skips fuel dir dirRel keep atRoot forceNow) := by
  induction fuel generalizing dir dirRel keep atRoot forceNow with
  | zero => exact unhindered_pure true
  | succ fuel ih =>
    refine unhindered_at (fun s => sortEntries (readdir t s.gone dir)) (fun _ => rfl) fun es => ?_
    have hdirs := fun list => @planDirPass_unhindered m k t dir dirRel keep _
      (fun p rel f => ih p rel none false f) forceNow list
      (es.any fun e => decide (planVerdict skips dirRel keep atRoot e ≠ .extra))
    have hfiles := fun list => @planFilePass_unhindered m k dir dirRel keep forceNow list
    refine ⟨_,unhindered_bind (hdirs ((es.takeWhile fun e => e.isDir).filter fun e =>
      decide (planVerdict skips dirRel keep atRoot e = .extra))) fun left =>
        unhindered_map (hfiles ((es.dropWhile fun e => e.isDir).filter fun e =>
          decide (planVerdict skips dirRel keep atRoot e = .extra))) fun _ => left,?_⟩
    rintro s rfl
    rfl

theorem applyPlanDir_unhindered {dir : Bytes} {dirs files : List Bytes} :
    Unhindered (sessionLimits m k) fun s => (applyPlanDir cfg t dir dirs files s, true) := by
  refine unhindered_pair (fun s => s.gone) (fun s => buildPlanSkips cfg s) (fun _ => ⟨rfl,rfl⟩) fun gone skips => ?_
  cases hopen : openPlanDir t gone dir with
  | none =>
    refine ⟨_,unhindered_pure true,?_⟩
    rintro s rfl rfl
    rw [applyPlanDir,hopen]
  | some d =>
    refine ⟨_,unhindered_map (processChildren_unhindered t skips (t.height d+1) d dir
      (some ⟨dirs,files⟩) (decide (dir = [dot])) false) fun _ => true,?_⟩
    rintro s rfl rfl
    rw [applyPlanDir,hopen]

/-- The commit treats a noted path as an extra that is to go now. -/
theorem applyDeferredPath_eq {rel : Bytes} {s : DeletePlanSession} {p : Position} {isDir : Bool}
    (hleaf : statLeaf t s.gone rel = .entry p isDir) :
    applyDeferredPath cfg t rel s =
      if !budgetAvailable s then (noteSkipped s, true)
      else if isDir then ((processExtraDir t (processChildren t (buildPlanSkips cfg s)
        (t.height p+1) · · none false · ·) p rel true s).1, true)
      else (processExtraFile p rel true s, true) := by
  rw [applyDeferredPath,hleaf]
  dsimp only
  by_cases hbudget : (!budgetAvailable s) = true
  · rw [if_pos hbudget,if_pos hbudget]
  cases isDir with
  | true =>
    unfold processExtraDir disposeExtraDir
    simp only [Bool.not_true,Bool.and_false,Bool.false_eq_true,if_false]
    generalize processChildren t (buildPlanSkips cfg s) (t.height p+1) p rel none false true s = r
    split_ifs
    · rfl
    · rfl
    · cases hrm : rmdir t r.1.gone p with
      | ok gone => rfl
      | error e => cases e <;> rfl
  | false =>
    simp only [processExtraFile,Bool.not_true,Bool.and_false,Bool.false_eq_true,if_false,
      if_neg hbudget]
    cases unlink s.gone p <;> rfl

theorem applyDeferredPath_unhindered {rel : Bytes} :
    Unhindered (sessionLimits m k) (applyDeferredPath cfg t rel) := by
  refine unhindered_pair (fun s => s.gone) (fun s => buildPlanSkips cfg s) (fun _ => ⟨rfl,rfl⟩) fun gone skips => ?_
  cases hleaf : statLeaf t gone rel with
  | absent =>
    refine ⟨_,unhindered_pure true,?_⟩
    rintro s rfl rfl
    rw [applyDeferredPath,hleaf]
  | self =>
    refine ⟨_,unhindered_pure false,?_⟩
    rintro s rfl rfl
    rw [applyDeferredPath,hleaf]
  | entry p isDir =>
    cases isDir with
    | true =>
      have hchildren := processChildren_unhindered (m := m) (k := k) t skips
      refine ⟨_,budget_gate true (unhindered_map (processExtraDir_unhindered t (fun p' rel f =>
        hchildren (t.height p+1) p' rel none false f) p rel true) fun _ => true),?_⟩
      rintro s rfl rfl
      exact applyDeferredPath_eq cfg t hleaf
    | false =>
      refine ⟨_,budget_gate true (unhindered_map (processExtraFile_unhindered p rel true) fun _ =>
        true),?_⟩
      rintro s rfl rfl
      exact applyDeferredPath_eq cfg t hleaf

theorem applyDeferred_unhindered (rels : List Bytes) :
    Unhindered (sessionLimits m k) (applyDeferred cfg t rels) := by
  induction rels with
  | nil => exact unhindered_pure true
  | cons rel rels ih =>
    refine unhindered_bind (g := fun ok s => if ok then applyDeferred cfg t rels s else (s, ok))
      (applyDeferredPath_unhindered cfg t) fun ok => ?_
    cases ok with
    | true => exact ih
    | false => exact unhindered_pure false

theorem missingArgs_unhindered {missing : List Bytes} :
    Unhindered (commitLimits m) fun st =>
      (deleteMissingArgsBudgetedObserved cfg t missing st, ()) := by
  unfold deleteMissingArgsBudgetedObserved
  split_ifs
  · exact unhindered_pure ()
  · exact missingLoop_unhindered cfg t

theorem missingBudget_widen {s : DeletePlanSession} (hle : s.maxDelete ≤ m) :
    missingBudget s ≤ missingBudget ((sessionLimits m k).widen s) := by
  unfold missingBudget
  by_cases hroom : budgetAvailable s = true
  · have hwide : budgetAvailable ((sessionLimits m k).widen s) = true :=
      decide_eq_true (lt_of_lt_of_le (of_decide_eq_true hroom) hle)
    rw [if_pos hroom,if_pos hwide]
    exact Nat.sub_le_sub_right hle _
  · rw [if_neg hroom]
    exact Nat.zero_le _

theorem missingPass_unhindered : Unhindered (sessionLimits m k) fun s =>
    (afterMissing s (missingPass cfg t s), (missingPass cfg t s).ok) := by
  constructor
  · intro s h
    show (s.limitHit || _) = true
    rw [show s.limitHit = true from h,Bool.true_or]
  · intro s h
    exact h
  · intro s hle h
    have hrest : missingBudget s ≤ missingBudget ((sessionLimits m k).widen s) :=
      missingBudget_widen hle.1
    have hsame := (missingArgs_unhindered cfg t).same
      ⟨⟨missingBudget s,0,0,false⟩,s.gone,s.observed,true⟩ hrest (Bool.or_eq_false_iff.mp h).2
    have hpass : missingPass cfg t ((sessionLimits m k).widen s) =
        (commitLimits (missingBudget ((sessionLimits m k).widen s))).widen (missingPass cfg t s) :=
      (Prod.mk.inj hsame).1
    rw [hpass]
    rfl

theorem applyMissing_unhindered : Unhindered (sessionLimits m k) (applyMissing cfg t) := by
  refine unhindered_at (fun s => missingDue cfg s) (fun _ => rfl) fun due => ?_
  cases due with
  | true =>
    exact ⟨_,missingPass_unhindered cfg t,fun s hs => by rw [applyMissing_eq,if_pos hs]⟩
  | false =>
    refine ⟨fun s => ({ s with missingApplied := true }, true),
      ⟨fun _ h => h,fun _ h => h,fun _ _ _ => rfl⟩,fun s hs => ?_⟩
    rw [applyMissing_eq,if_neg (by simp [hs])]

theorem loadConfig_unhindered {frame : PlanFrame} :
    Unhindered (sessionLimits m k) fun s => (loadConfig frame s, ()) := by
  unfold loadConfig
  cases frame.config with
  | none => exact unhindered_pure ()
  | some config => exact ⟨fun _ h => h,fun _ h => h,fun _ _ _ => rfl⟩

theorem beforePlan_unhindered (frame : PlanFrame) :
    Unhindered (sessionLimits m k) (beforePlan cfg t frame) := by
  refine unhindered_at (fun s => planFrameValid s frame) (fun _ => rfl) fun valid => ?_
  cases valid with
  | false => exact ⟨_,unhindered_pure false,fun s hs => by rw [beforePlan,hs]; rfl⟩
  | true =>
    have hrest : Unhindered (sessionLimits m k) fun s =>
        if s.dryRun || !(cfg.useDelete || cfg.deleteMissingArgs) then (s, false)
        else ((if s.defer then (s, true) else applyMissing cfg t s).1,
          (if s.defer then (s, true) else applyMissing cfg t s).2 && frame.apply) := by
      refine unhindered_pair (fun s => s.dryRun) (fun s => s.defer) (fun _ => ⟨rfl,rfl⟩) fun dry defer => ?_
      cases hoff : dry || !(cfg.useDelete || cfg.deleteMissingArgs) with
      | true =>
        refine ⟨_,unhindered_pure false,?_⟩
        rintro s rfl rfl
        rw [if_pos hoff]
      | false =>
        cases defer with
        | true =>
          refine ⟨_,unhindered_pure (true && frame.apply),?_⟩
          rintro s rfl hdefer
          rw [if_neg (by rw [hoff]; exact Bool.false_ne_true),if_pos hdefer]
        | false =>
          refine ⟨_,unhindered_map (applyMissing_unhindered cfg t) (· && frame.apply),?_⟩
          rintro s rfl hdefer
          rw [if_neg (by rw [hoff]; exact Bool.false_ne_true),if_neg (by simp [hdefer])]
    exact ⟨_,unhindered_bind loadConfig_unhindered fun _ => hrest,
      fun s hs => by rw [beforePlan,hs]; rfl⟩

theorem sessionCall_unhindered {c : SessionCall} :
    Unhindered (sessionLimits m k) fun s => (sessionCall cfg t c s, ()) := by
  cases c with
  | receive frame =>
    have hplan : ∀ plan : Bool, Unhindered (sessionLimits m k) fun s =>
        (if plan then applyPlanDir cfg t frame.dir frame.dirs frame.files s else s, ()) := by
      intro plan
      cases plan with
      | true => exact unhindered_map (applyPlanDir_unhindered cfg t) fun _ => ()
      | false => exact unhindered_pure ()
    have hsame : (fun s => (sessionCall cfg t (.receive frame) s, ())) = fun s =>
        (if (beforePlan cfg t frame s).2 then applyPlanDir cfg t frame.dir frame.dirs frame.files
          (beforePlan cfg t frame s).1 else (beforePlan cfg t frame s).1, ()) := by
      funext s
      rw [sessionCall,deletePlanSessionReceive_eq]
    rw [hsame]
    exact unhindered_bind (beforePlan_unhindered cfg t frame) hplan
  | broken config seen =>
    refine unhindered_at (fun s => s.configSeen) (fun _ => rfl) fun was => ?_
    cases was with
    | true => exact ⟨_,unhindered_pure (),fun s hs => by rw [sessionCall,brokenReceive,if_pos hs]⟩
    | false =>
      refine ⟨fun s => ({readConfig config s with configSeen := seen}, ()),
        ⟨fun _ h => h,fun _ h => h,fun _ _ _ => rfl⟩,fun s hs => ?_⟩
      rw [sessionCall,brokenReceive,if_neg (by simp [hs])]

theorem sessionCalls_unhindered {calls : List SessionCall} :
    Unhindered (sessionLimits m k) fun s => (sessionCalls cfg t calls s, ()) := by
  induction calls with
  | nil => exact unhindered_pure ()
  | cons c cs ih => exact unhindered_bind (sessionCall_unhindered cfg t) fun _ => ih

theorem commit_unhindered :
    Unhindered (sessionLimits m k) fun s => ((deletePlanSessionCommit cfg t s).1, ()) := by
  have hmissing : Unhindered (sessionLimits m k) fun s => ((applyMissing cfg t s).1, ()) :=
    unhindered_map (applyMissing_unhindered cfg t) fun _ => ()
  simp only [deletePlanSessionCommit_eq]
  refine unhindered_at (fun s => (s.dryRun, s.defer, s.deferred)) (fun _ => rfl) fun v => ?_
  obtain ⟨dry,defer,deferred⟩ := v
  cases dry with
  | true => exact ⟨_,unhindered_pure (),fun s hs => by rw [if_pos (congrArg Prod.fst hs)]⟩
  | false =>
    cases defer with
    | true =>
      have hlast : ∀ ok : Bool, Unhindered (sessionLimits m k) fun s =>
          (if ok then (applyMissing cfg t s).1 else s, ()) := by
        intro ok
        cases ok with
        | true => exact hmissing
        | false => exact unhindered_pure ()
      refine ⟨_,unhindered_bind (applyDeferred_unhindered cfg t deferred) hlast,fun s hs => ?_⟩
      obtain ⟨hdry,hrest⟩ := Prod.mk.inj hs
      obtain ⟨hdefer,rfl⟩ := Prod.mk.inj hrest
      rw [if_neg (by simp [hdry]),if_pos hdefer]
    | false =>
      refine ⟨_,hmissing,fun s hs => ?_⟩
      obtain ⟨hdry,hrest⟩ := Prod.mk.inj hs
      obtain ⟨hdefer,-⟩ := Prod.mk.inj hrest
      rw [if_neg (by simp [hdry]),if_neg (by simp [hdefer])]

theorem sessionFrom_unhindered (calls : List SessionCall) (commit : Bool) :
    Unhindered (sessionLimits m k) fun s => (sessionFrom cfg t calls commit s, ()) := by
  refine unhindered_bind (g := fun _ s => (if commit then (deletePlanSessionCommit cfg t s).1 else s,
    ())) (sessionCalls_unhindered cfg t) fun _ => ?_
  cases commit with
  | true => exact commit_unhindered cfg t
  | false => exact unhindered_pure ()

end Plans

end FastSync.SessionLimits
