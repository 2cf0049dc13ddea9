import FastSync.DeletePlanActs
import FastSync.MissingArtifacts

/-!
# The calls of a connection on its delete session

A connection sends frames, some of which break off inside, and commits at most
once. A broken frame has added what was read of its config section.
-/

set_option autoImplicit false

namespace FastSync.SessionCalls
open FiniteTree DeletePaths DeletePlan DeleteCommit
open DeleteSession MissingArtifacts

/-- A frame, or one that is refused after the part `config` of its config
section was read; `seen` tells whether that was the whole section. -/
inductive SessionCall where
  | receive (frame : PlanFrame)
  | broken (config : PlanConfig) (seen : Bool)

def brokenReceive (config : PlanConfig) (seen : Bool) (s : DeletePlanSession) : DeletePlanSession :=
  if s.configSeen then s else {readConfig config s with configSeen := seen}

section Calls
variable (cfg : Config) (t : DirTree Name)

def sessionCall : SessionCall → DeletePlanSession → DeletePlanSession
  | .receive frame, s => (deletePlanSessionReceive cfg t frame s).1
  | .broken config seen, s => brokenReceive config seen s

def sessionCalls : List SessionCall → DeletePlanSession → DeletePlanSession
  | [], s => s
  | c::cs, s => sessionCalls cs (sessionCall cfg t c s)

/-- The calls of one connection, and the commit when there is one. -/
def sessionFrom (calls : List SessionCall) (commit : Bool) (s : DeletePlanSession) :
    DeletePlanSession :=
  let s := sessionCalls cfg t calls s
  if commit then (deletePlanSessionCommit cfg t s).1 else s

def sessionRun (calls : List SessionCall) (commit : Bool) : DeletePlanSession :=
  sessionFrom cfg t calls commit (deletePlanSessionCreate cfg)

/-- The session as a frame leaves it before its plan, and whether a plan
follows. -/
def beforePlan (frame : PlanFrame) (s : DeletePlanSession) : DeletePlanSession × Bool :=
  if !planFrameValid s frame then (s, false)
  else
    let s := loadConfig frame s
    if s.dryRun || !(cfg.useDelete || cfg.deleteMissingArgs) then (s, false)
    else
      let r := if s.defer then (s, true) else applyMissing cfg t s
      (r.1, r.2 && frame.apply)

theorem deletePlanSessionReceive_eq (frame : PlanFrame) (s : DeletePlanSession) :
    (deletePlanSessionReceive cfg t frame s).1 =
      if (beforePlan cfg t frame s).2 then
        applyPlanDir cfg t frame.dir frame.dirs frame.files (beforePlan cfg t frame s).1
      else (beforePlan cfg t frame s).1 := by
  unfold deletePlanSessionReceive beforePlan
  by_cases hvalid : (!planFrameValid s frame) = true
  · rw [if_pos hvalid, if_pos hvalid]
    rfl
  rw [if_neg hvalid, if_neg hvalid]
  by_cases hoff : ((loadConfig frame s).dryRun ||
      !(cfg.useDelete || cfg.deleteMissingArgs)) = true
  · rw [if_pos hoff, if_pos hoff]
    rfl
  rw [if_neg hoff, if_neg hoff]
  generalize (if (loadConfig frame s).defer then (loadConfig frame s, true)
    else applyMissing cfg t (loadConfig frame s)) = r
  obtain ⟨s',ok⟩ := r
  cases ok <;> cases frame.apply <;> rfl

theorem deletePlanSessionCommit_eq (s : DeletePlanSession) :
    (deletePlanSessionCommit cfg t s).1 =
      if s.dryRun then s
      else if s.defer then
        if (applyDeferred cfg t s.deferred s).2 then
          (applyMissing cfg t (applyDeferred cfg t s.deferred s).1).1
        else (applyDeferred cfg t s.deferred s).1
      else (applyMissing cfg t s).1 := by
  unfold deletePlanSessionCommit
  cases s.dryRun with
  | true => rfl
  | false =>
    cases s.defer with
    | true => cases h : (applyDeferred cfg t s.deferred s).2 <;> simp [h]
    | false => rfl

/-- What the removal of missing arguments may still spend. -/
def missingBudget (s : DeletePlanSession) : ℕ :=
  if budgetAvailable s then s.maxDelete-s.planned else 0

def missingPass (s : DeletePlanSession) : CommitState :=
  deleteMissingArgsBudgetedObserved cfg t s.missing
    ⟨⟨missingBudget s,0,0,false⟩,s.gone,s.observed,true⟩

def afterMissing (s : DeletePlanSession) (r : CommitState) : DeletePlanSession :=
  { s with
    missingApplied := true
    gone := r.gone
    observed := r.observed
    deleted := s.deleted+r.budget.deleted
    planned := s.planned+r.budget.deleted
    skipped := s.skipped+r.budget.skipped
    limitHit := s.limitHit || r.budget.limitHit }

def missingDue (s : DeletePlanSession) : Bool :=
  !s.missingApplied && cfg.deleteMissingArgs && !s.missing.isEmpty

theorem applyMissing_eq (s : DeletePlanSession) :
    applyMissing cfg t s =
      if missingDue cfg s then (afterMissing s (missingPass cfg t s), (missingPass cfg t s).ok)
      else ({ s with missingApplied := true }, true) := by
  unfold applyMissing missingDue
  cases happlied : s.missingApplied with
  | true =>
    show (s, true) = ({ s with missingApplied := true }, true)
    rw [← happlied]
  | false =>
    cases cfg.deleteMissingArgs with
    | false => rfl
    | true => cases s.missing.isEmpty <;> rfl

theorem missingLoop_grows {rels : List Bytes} (st : CommitState) :
    ∃ ps, (deleteMissingLoop cfg t (deleteSkipsBuild cfg [] [] true) rels st).gone =
      st.gone++ps := by
  induction rels generalizing st with
  | nil => exact ⟨[],(List.append_nil _).symm⟩
  | cons rel rels ih =>
    obtain ⟨ps,hps,-⟩ := missingArg_takes cfg t
    rw [deleteMissingLoop]
    split_ifs
    · exact ⟨ps,hps⟩
    · obtain ⟨qs,hqs⟩ := ih (deleteMissingArg cfg t (deleteSkipsBuild cfg [] [] true) rel st).1
      exact ⟨ps++qs,by rw [hqs, hps, List.append_assoc]⟩

theorem applyMissing_grows {s : DeletePlanSession} :
    ∃ ps, (applyMissing cfg t s).1.gone = s.gone++ps ∧
      (applyMissing cfg t s).1.deferred = s.deferred := by
  rw [applyMissing_eq]
  split_ifs with hdue
  · obtain ⟨ps,hps⟩ : ∃ ps, (missingPass cfg t s).gone = s.gone++ps := by
      unfold missingPass deleteMissingArgsBudgetedObserved
      split_ifs
      · exact ⟨[],(List.append_nil _).symm⟩
      · exact missingLoop_grows cfg t _
    exact ⟨ps,hps,rfl⟩
  · exact ⟨[],(List.append_nil _).symm,rfl⟩

theorem beforePlan_grows {frame : PlanFrame} {s : DeletePlanSession} :
    ∃ ps, (beforePlan cfg t frame s).1.gone = s.gone++ps ∧
      (beforePlan cfg t frame s).1.deferred = s.deferred := by
  have hload : (loadConfig frame s).gone = s.gone ∧ (loadConfig frame s).deferred = s.deferred := by
    unfold loadConfig
    cases frame.config <;> exact ⟨rfl,rfl⟩
  unfold beforePlan
  dsimp only
  split_ifs
  · exact ⟨[],(List.append_nil _).symm,rfl⟩
  · exact ⟨[],hload.1.trans (List.append_nil _).symm,hload.2⟩
  · exact ⟨[],hload.1.trans (List.append_nil _).symm,hload.2⟩
  · obtain ⟨ps,hgone,hdeferred⟩ := applyMissing_grows cfg t
    exact ⟨ps,hgone.trans (by rw [hload.1]),hdeferred.trans hload.2⟩

end Calls

end FastSync.SessionCalls
