import FastSync.DeletePlan
import FastSync.DeleteCommit

/-!
# The delete session of the receiver

A session applies the plans of one connection. Under `--delete-during` each
plan removes the extras of its directory at once; under `--delete-delay` it
only notes their paths, and the commit removes them. One budget bounds the
removals of the whole session.
-/

set_option autoImplicit false

namespace FastSync.DeleteSession
open FiniteTree DeletePaths DeleteWalk DeletePlan
open DeleteCommit

structure DeletePlanSession where
  defer : Bool
  dryRun : Bool
  maxDelete : ℕ
  deleted : ℕ
  planned : ℕ
  deferCap : ℕ
  skipped : ℕ
  limitHit : Bool
  configSeen : Bool
  missingApplied : Bool
  protectedPrefixes : List Bytes
  sizeSkipped : List Bytes
  missing : List Bytes
  deferred : List Bytes
  observed : List Bytes
  gone : List Position

def deletePlanSessionCreate (cfg : Config) : DeletePlanSession where
  defer := cfg.deleteDelay
  dryRun := cfg.dryRun
  maxDelete := effectiveMaxDelete cfg
  deleted := 0
  planned := 0
  deferCap := maxServerDeleteCount
  skipped := 0
  limitHit := false
  configSeen := false
  missingApplied := false
  protectedPrefixes := []
  sizeSkipped := []
  missing := []
  deferred := []
  observed := []
  gone := []

def validRelPath (value : Bytes) : Bool :=
  decide (value ≠ []) && decide (value.head? ≠ some slash) && !hasPathTraversal value

def validName (value : Bytes) : Bool :=
  decide (value ≠ []) && decide (value ≠ [dot]) && decide (value ≠ [dot, dot]) &&
    decide (slash ∉ value)

def budgetAvailable (s : DeletePlanSession) : Bool := decide (s.planned < s.maxDelete)

def noteSkipped (s : DeletePlanSession) : DeletePlanSession :=
  { s with limitHit := true, skipped := s.skipped+1 }

def notePlanned (s : DeletePlanSession) (gone : List Position) (spelled : Bytes) :
    DeletePlanSession :=
  { s with
    gone := gone
    deleted := s.deleted+1
    planned := s.planned+1
    observed := s.observed++[spelled] }

def deferAdd (s : DeletePlanSession) (rel : Bytes) : DeletePlanSession :=
  if s.deferred.length ≥ s.deferCap then noteSkipped s
  else { s with deferred := s.deferred++[rel] }

structure KeepLists where
  dirs : List Bytes
  files : List Bytes

structure PlanSkips where
  entries : List DeleteSkipEntry
  protectRules : Option (Bytes → Bytes → Bool → FilterAction)

def buildPlanSkips (cfg : Config) (s : DeletePlanSession) : PlanSkips :=
  ⟨deleteSkipsBuild cfg s.protectedPrefixes s.sizeSkipped false,cfg.protectRules⟩

def planChildRel (dirRel name : Bytes) : Bytes :=
  if dirRel = [dot] then name else pathCat dirRel name

def listContainsStr (list : Option (List Bytes)) (value : Bytes) : Bool :=
  match list with
  | none => false
  | some items => decide (value ∈ items)

/-- What a plan decides on one child. Kept names and protected entries stay;
without keep lists every other child is an extra. -/
def planVerdict (skips : PlanSkips) (dirRel : Bytes) (keep : Option KeepLists) (atRoot : Bool)
    (e : DeleteDirEntry) : Verdict :=
  let childRel := planChildRel dirRel e.name.1
  if pathUnderSkipPrefix childRel atRoot skips.entries then .shielded
  else if (e.isDir && listContainsStr (keep.map KeepLists.dirs) e.name.1) ||
      (!e.isDir && listContainsStr (keep.map KeepLists.files) e.name.1) ||
      ruleProtects skips.protectRules childRel e.name.1 e.isDir then .shielded
  else .extra

/-- An extra of the other kind than the source entry of its name goes at once,
whatever the delete timing. -/
def forced (keep : Option KeepLists) (e : DeleteDirEntry) : Bool :=
  if e.isDir then listContainsStr (keep.map KeepLists.files) e.name.1
  else listContainsStr (keep.map KeepLists.dirs) e.name.1

def disposeExtraDir (t : DirTree Name) (p : Position) (childRel : Bytes) (forceNow : Bool)
    (s : DeletePlanSession) : DeletePlanSession × Bool :=
  if s.defer && !forceNow then (deferAdd s childRel, true)
  else if !budgetAvailable s then (noteSkipped s, false)
  else match rmdir t s.gone p with
    | .ok gone => (notePlanned s gone (childRel++[slash]), true)
    | .error .enoent => (s, true)
    | .error .enotempty => (s, false)

/-- Treats the content of an extra directory and then the directory itself,
when nothing in it survives. The second part tells whether it is gone. -/
def processExtraDir (t : DirTree Name)
    (children : Position → Bytes → Bool → DeletePlanSession → DeletePlanSession × Bool)
    (p : Position) (childRel : Bytes) (forceNow : Bool) (s : DeletePlanSession) :
    DeletePlanSession × Bool :=
  let r := children p childRel forceNow s
  if r.2 then (r.1, false) else disposeExtraDir t p childRel forceNow r.1

def processExtraFile (p : Position) (childRel : Bytes) (forceNow : Bool) (s : DeletePlanSession) :
    DeletePlanSession :=
  if s.defer && !forceNow then deferAdd s childRel
  else if !budgetAvailable s then noteSkipped s
  else match unlink s.gone p with
    | .ok gone => notePlanned s gone childRel
    | .error _ => s

def planDirPass (t : DirTree Name) (dir : Position) (dirRel : Bytes) (keep : Option KeepLists)
    (forceNow : Bool)
    (children : Position → Bytes → Bool → DeletePlanSession → DeletePlanSession × Bool) :
    List DeleteDirEntry → DeletePlanSession × Bool → DeletePlanSession × Bool
  | [], acc => acc
  | e::es, (s, survives) =>
    let (s, removed) := processExtraDir t children (dir++[e.name])
      (planChildRel dirRel e.name.1) (forced keep e || forceNow) s
    planDirPass t dir dirRel keep forceNow children es (s, survives || !removed)

def planFilePass (dir : Position) (dirRel : Bytes) (keep : Option KeepLists) (forceNow : Bool) :
    List DeleteDirEntry → DeletePlanSession → DeletePlanSession
  | [], s => s
  | e::es, s =>
    planFilePass dir dirRel keep forceNow es
      (processExtraFile (dir++[e.name]) (planChildRel dirRel e.name.1) (forced keep e || forceNow) s)

def processChildren (t : DirTree Name) (skips : PlanSkips) :
    ℕ → Position → Bytes → Option KeepLists → Bool → Bool → DeletePlanSession →
      DeletePlanSession × Bool
  | 0, _, _, _, _, _, s => (s, true)
  | fuel+1, dir, dirRel, keep, atRoot, forceNow, s =>
    let entries := sortEntries (readdir t s.gone dir)
    let verdict := planVerdict skips dirRel keep atRoot
    let dirs := entries.takeWhile fun e => e.isDir
    let files := entries.dropWhile fun e => e.isDir
    let survives := entries.any fun e => decide (verdict e ≠ .extra)
    let acc := planDirPass t dir dirRel keep forceNow
      (fun p rel now s => processChildren t skips fuel p rel none false now s)
      (dirs.filter fun e => decide (verdict e = .extra)) (s, survives)
    (planFilePass dir dirRel keep forceNow
      (files.filter fun e => decide (verdict e = .extra)) acc.1, acc.2)

def openPlanDir (t : DirTree Name) (gone : List Position) (dir : Bytes) : Option Position :=
  match resolve (components dir) with
  | none => none
  | some d => if stat t gone [] d = some true then some d else none

def applyPlanDir (cfg : Config) (t : DirTree Name) (dir : Bytes) (dirs files : List Bytes)
    (s : DeletePlanSession) : DeletePlanSession :=
  match openPlanDir t s.gone dir with
  | none => s
  | some d => (processChildren t (buildPlanSkips cfg s) (t.height d+1) d dir (some ⟨dirs,files⟩)
      (decide (dir = [dot])) false s).1

/-- The exact-path removals, once per session. The second part is false when
they fail. -/
def applyMissing (cfg : Config) (t : DirTree Name) (s : DeletePlanSession) :
    DeletePlanSession × Bool :=
  if s.missingApplied then (s, true)
  else if !cfg.deleteMissingArgs || s.missing.isEmpty then ({ s with missingApplied := true }, true)
  else
    let remaining := if budgetAvailable s then s.maxDelete-s.planned else 0
    let r := deleteMissingArgsBudgetedObserved cfg t s.missing
      ⟨⟨remaining,0,0,false⟩,s.gone,s.observed,true⟩
    ({ s with
      missingApplied := true
      gone := r.gone
      observed := r.observed
      deleted := s.deleted+r.budget.deleted
      planned := s.planned+r.budget.deleted
      skipped := s.skipped+r.budget.skipped
      limitHit := s.limitHit || r.budget.limitHit }, r.ok)

def planConfigValid (config : PlanConfig) : Bool :=
  config.protectedPrefixes.all validRelPath && config.sizeSkipped.all validRelPath &&
    config.missing.all validRelPath

def readConfig (config : PlanConfig) (s : DeletePlanSession) : DeletePlanSession :=
  { s with
    configSeen := true
    protectedPrefixes := s.protectedPrefixes++config.protectedPrefixes
    sizeSkipped := s.sizeSkipped++config.sizeSkipped
    missing := s.missing++config.missing }

def loadConfig (frame : PlanFrame) (s : DeletePlanSession) : DeletePlanSession :=
  match frame.config with
  | none => s
  | some config => readConfig config s

def planFrameValid (s : DeletePlanSession) (frame : PlanFrame) : Bool :=
  (match frame.config with
    | none => true
    | some config => !s.configSeen && planConfigValid config) &&
    (decide (frame.dir = [dot]) || validRelPath frame.dir) && frame.dirs.all validName &&
    frame.files.all validName

/-- One plan frame on the tree as it is when the frame arrives. The second part
is false when the frame is refused or fails. -/
def deletePlanSessionReceive (cfg : Config) (t : DirTree Name) (frame : PlanFrame)
    (s : DeletePlanSession) : DeletePlanSession × Bool :=
  if !planFrameValid s frame then (s, false)
  else
    let s := loadConfig frame s
    if s.dryRun || !(cfg.useDelete || cfg.deleteMissingArgs) then (s, true)
    else
      let r := if s.defer then (s, true) else applyMissing cfg t s
      if !r.2 then r
      else if frame.apply then (applyPlanDir cfg t frame.dir frame.dirs frame.files r.1, true)
      else (r.1, true)

def applyDeferredPath (cfg : Config) (t : DirTree Name) (rel : Bytes) (s : DeletePlanSession) :
    DeletePlanSession × Bool :=
  match statLeaf t s.gone rel with
  | .absent => (s, true)
  | .self => (s, false)
  | .entry p isDir =>
    if !budgetAvailable s then (noteSkipped s, true)
    else if isDir then
      let (s, survives) := processChildren t (buildPlanSkips cfg s) (t.height p+1) p rel none false
        true s
      if survives then (s, true)
      else if !budgetAvailable s then (noteSkipped s, true)
      else match rmdir t s.gone p with
        | .ok gone => (notePlanned s gone (rel++[slash]), true)
        | .error _ => (s, true)
    else match unlink s.gone p with
      | .ok gone => (notePlanned s gone rel, true)
      | .error _ => (s, true)

def applyDeferred (cfg : Config) (t : DirTree Name) :
    List Bytes → DeletePlanSession → DeletePlanSession × Bool
  | [], s => (s, true)
  | rel::rels, s =>
    let r := applyDeferredPath cfg t rel s
    if r.2 then applyDeferred cfg t rels r.1 else r

def deletePlanSessionCommit (cfg : Config) (t : DirTree Name) (s : DeletePlanSession) :
    DeletePlanSession × DeleteCommitResult :=
  if s.dryRun then (s, .ok)
  else
    let r := if s.defer then applyDeferred cfg t s.deferred s else (s, true)
    let r := if r.2 then applyMissing cfg t r.1 else r
    (r.1, if !r.2 then .error else if r.1.limitHit then .limitReached else .ok)

end FastSync.DeleteSession
