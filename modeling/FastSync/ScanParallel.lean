import Mathlib.Logic.Relation
import FastSync.ScanWalk

/-!
# The parallel scanner

The root directory is read by the caller, which keeps its files and deals its
subdirectories out to worker threads. Each worker runs a sequential scanner on
every directory it was given and puts the chunks on one queue. A scanner that
fails cancels the queue for all of them.
-/

set_option autoImplicit false

namespace FastSync.ScanParallel
open ScanEntries ScanSequential ScanWalk

variable {ρ : Type} (opts : ScannerOptions ρ)

def batchFiles (size : ℕ) : List File → List File → List (List File)
  | [], _ => []
  | f::files, batch =>
    if size ≤ filesSize (batch++[f]) ∨ files = [] then (batch++[f])::batchFiles size files []
    else batchFiles size files (batch++[f])

structure RootScan (ρ : Type) where
  notes : List Note
  rootFiles : List File
  subdirs : List (DirEntry ρ)

def inspectRoot (rootDirectory : Path) (e : Entry ρ) : Inspection :=
  scannerInspectEntry opts rootDirectory e.name e

/-- A subdirectory of the root as the scanner of a worker is seeded with it. -/
def rootSubdir (rootDirectory : Path) (e : Entry ρ) (contents : Forest ρ) : DirEntry ρ :=
  ⟨pathCat rootDirectory e.name,0,[],
    ⟨decide (e.lstat.map Stat.kind = some .directory),
      inspectedDevice (inspectRoot opts rootDirectory e),e.opens,e.filters,contents⟩⟩

def scanRootDirectory (rootNode : List ρ) (rootDirectory : Path) (rootDev : ℕ) :
    Forest ρ → RootScan ρ
  | .nil => ⟨[],[],[]⟩
  | .cons e contents rest =>
    let v := scanRootEntry opts rootNode rootDirectory rootDev e
    let r := scanRootDirectory rootNode rootDirectory rootDev rest
    ⟨v.notes++r.notes,v.file.toList++r.rootFiles,
      (if v.subdir then [rootSubdir opts rootDirectory e contents] else [])++r.subdirs⟩

section Workers

/-- The directories of each worker: the first ones get one more when they do
not divide evenly. -/
def workerCounts (numThreads : ℤ) (size : ℕ) : List ℕ :=
  let wanted := if 0 < numThreads then numThreads.toNat else 4
  let n := min wanted size
  (List.range n).map fun t => size/n+(if t < size%n then 1 else 0)

def dealOut {α : Type} : List ℕ → List α → List (List α)
  | [], _ => []
  | count::counts, xs => xs.take count::dealOut counts (xs.drop count)

/-- What one scanner of a worker puts out, and whether it failed. -/
structure DirScan where
  events : List Event
  failed : Bool

def workerScan (rootNode : List ρ) (rootDirectory : Path) (de : DirEntry ρ) : DirScan :=
  let final := drain opts ⟨rootDirectory,de.dir.device,rootNode⟩ de
  ⟨final.log,final.failed⟩

structure Shared where
  cancelled : Bool
  failed : Bool
  out : List Event

/-- One turn of a worker with its current directory and those it has yet to
scan. On a cancelled queue it gives the directory up. -/
def workerTurn (sh : Shared) : List DirScan → Option (Shared × List DirScan)
  | [] => none
  | ⟨[],failed⟩::dirs =>
    some (if failed then { sh with cancelled := true, failed := true } else sh, dirs)
  | ⟨.note n::events,failed⟩::dirs =>
    some ({ sh with out := sh.out++[.note n] }, ⟨events,failed⟩::dirs)
  | ⟨.chunk files::events,failed⟩::dirs =>
    if sh.cancelled then some (sh, dirs)
    else some ({ sh with out := sh.out++[.chunk files] }, ⟨events,failed⟩::dirs)

structure ParState where
  workers : List (List DirScan)
  shared : Shared

def ParStep (s s' : ParState) : Prop :=
  ∃ before worker after sh worker', s.workers = before++worker::after ∧
    workerTurn s.shared worker = some (sh, worker') ∧ s' = ⟨before++worker'::after,sh⟩

def Done (s : ParState) : Prop := ∀ worker ∈ s.workers, worker = []

end Workers

def rootFilterNode (dir : SourceDir ρ) : Option (List ρ) :=
  match dir.filters [] with
  | .invalid => none
  | .inherit => some []
  | .rules own => some [own]

/-- The scanner after its creation; `none` when it cannot be created. -/
def parallelScannerCreate (rootDirectory : Path) (dir : SourceDir ρ) : Option ParState :=
  match rootFilterNode dir with
  | none => none
  | some rootNode =>
    if !dir.opens then none
    else
      let r := scanRootDirectory opts rootNode rootDirectory dir.device dir.contents
      let assigned := dealOut (workerCounts opts.numThreads r.subdirs.length) r.subdirs
      some ⟨assigned.map fun dirs => dirs.map (workerScan opts rootNode rootDirectory),
        false,false,
        (scannerRecordSyncedDir opts rootDirectory []++r.notes).map Event.note++
          (batchFiles opts.chunkSize r.rootFiles []).map Event.chunk⟩

/-- `out` is what a parallel scan of the root may put out under some schedule of
its workers. -/
def ParallelRun (rootDirectory : Path) (dir : SourceDir ρ) (out : List Event) : Prop :=
  match parallelScannerCreate opts rootDirectory dir with
  | none => out = []
  | some start => ∃ final, Relation.ReflTransGen ParStep start final ∧ Done final ∧
      out = final.shared.out

def sequentialRun (rootDirectory : Path) (dir : SourceDir ρ) : List Event :=
  (drain opts ⟨rootDirectory,dir.device,[]⟩ ⟨rootDirectory,0,[],dir⟩).log

section Schedules

def workerTally (worker : List DirScan) : Tally := (worker.map fun d => logTally d.events).sum

def pendingTally (workers : List (List DirScan)) : Tally := (workers.map workerTally).sum

def Unfailing (workers : List (List DirScan)) : Prop :=
  ∀ worker ∈ workers, ∀ d ∈ worker, d.failed = false

/-- A worker's turn on a live queue: nothing it holds is lost. -/
theorem workerTurn_tally {sh sh' : Shared} {worker worker' : List DirScan}
    (hlive : sh.cancelled = false) (hsafe : ∀ d ∈ worker, d.failed = false)
    (hturn : workerTurn sh worker = some (sh', worker')) :
    sh'.cancelled = false ∧ (∀ d ∈ worker', d.failed = false) ∧
      logTally sh'.out+workerTally worker' = logTally sh.out+workerTally worker := by
  cases worker with
  | nil => cases hturn
  | cons d dirs =>
    obtain ⟨events,failed⟩ := d
    have hd : failed = false := hsafe _ List.mem_cons_self
    subst hd
    have hdirs := fun x hx => hsafe x (List.mem_cons_of_mem _ hx)
    cases events with
    | nil =>
      cases hturn
      refine ⟨hlive,hdirs,?_⟩
      simp [workerTally, logTally]
    | cons ev events =>
      have hnext : ∀ x ∈ DirScan.mk events false::dirs, x.failed = false := by
        intro x hx
        rcases List.mem_cons.mp hx with rfl | hx
        · rfl
        · exact hdirs x hx
      cases ev with
      | note n =>
        cases hturn
        refine ⟨hlive,hnext,?_⟩
        simp only [workerTally, logTally, List.map_append, List.sum_append, List.map_cons,
          List.sum_cons, List.map_nil, List.sum_nil]
        abel
      | chunk files =>
        rw [workerTurn, hlive] at hturn
        cases hturn
        refine ⟨rfl,hnext,?_⟩
        simp only [workerTally, logTally, List.map_append, List.sum_append, List.map_cons,
          List.sum_cons, List.map_nil, List.sum_nil]
        abel

theorem parStep_tally {s s' : ParState} (hstep : ParStep s s') (hlive : s.shared.cancelled = false)
    (hsafe : Unfailing s.workers) :
    s'.shared.cancelled = false ∧ Unfailing s'.workers ∧
      logTally s'.shared.out+pendingTally s'.workers =
        logTally s.shared.out+pendingTally s.workers := by
  obtain ⟨before,worker,after,sh,worker',hworkers,hturn,rfl⟩ := hstep
  rw [hworkers] at hsafe
  obtain ⟨h1,h2,h3⟩ := workerTurn_tally hlive
    (hsafe worker (by simp)) hturn
  refine ⟨h1,?_,?_⟩
  · intro w hw
    rcases List.mem_append.mp hw with hw | hw
    · exact hsafe w (List.mem_append_left _ hw)
    · rcases List.mem_cons.mp hw with rfl | hw
      · exact h2
      · exact hsafe w (List.mem_append_right _ (List.mem_cons_of_mem _ hw))
  · simp only [pendingTally, hworkers, List.map_append, List.sum_append, List.map_cons,
      List.sum_cons]
    calc _ = logTally sh.out+workerTally worker'+
          ((before.map workerTally).sum+(after.map workerTally).sum) := by abel
      _ = _ := by
        rw [h3]
        abel

theorem run_live {s s' : ParState} (hrun : Relation.ReflTransGen ParStep s s')
    (hlive : s.shared.cancelled = false) (hsafe : Unfailing s.workers) :
    s'.shared.cancelled = false ∧ Unfailing s'.workers ∧
      logTally s'.shared.out+pendingTally s'.workers =
        logTally s.shared.out+pendingTally s.workers := by
  induction hrun with
  | refl => exact ⟨hlive,hsafe,rfl⟩
  | tail _ hstep ih =>
    obtain ⟨h1,h2,h3⟩ := parStep_tally hstep ih.1 ih.2.1
    exact ⟨h1,h2,h3.trans ih.2.2⟩

theorem pendingTally_done {workers : List (List DirScan)} (h : ∀ w ∈ workers, w = []) :
    pendingTally workers = 0 := by
  apply List.sum_eq_zero
  intro t ht
  obtain ⟨w,hw,rfl⟩ := List.mem_map.mp ht
  rw [h w hw]
  rfl

theorem run_tally (s s' : ParState) (hrun : Relation.ReflTransGen ParStep s s')
    (hlive : s.shared.cancelled = false) (hsafe : Unfailing s.workers) (hdone : Done s') :
    logTally s'.shared.out = logTally s.shared.out+pendingTally s.workers := by
  obtain ⟨-,-,htotal⟩ := run_live hrun hlive hsafe
  rwa [pendingTally_done hdone, add_zero] at htotal

def workerCost (worker : List DirScan) : ℕ := (worker.map fun d => d.events.length+1).sum

def workCost (workers : List (List DirScan)) : ℕ := (workers.map workerCost).sum

theorem workerTurn_exists {sh : Shared} {d : DirScan} {dirs : List DirScan} :
    ∃ sh' worker', workerTurn sh (d::dirs) = some (sh', worker') ∧
      workerCost worker' < workerCost (d::dirs) := by
  obtain ⟨events,failed⟩ := d
  cases events with
  | nil => exact ⟨_,_,rfl,by simp [workerCost]⟩
  | cons ev events =>
    cases ev with
    | note n => exact ⟨_,_,rfl,by simp [workerCost]⟩
    | chunk files =>
      rw [workerTurn]
      split
      · exact ⟨_,_,rfl,by simp [workerCost]⟩
      · exact ⟨_,_,rfl,by simp [workerCost]⟩

theorem exists_done (s : ParState) : ∃ s', Relation.ReflTransGen ParStep s s' ∧ Done s' := by
  induction hn : workCost s.workers using Nat.strong_induction_on generalizing s with
  | _ n ih =>
    by_cases hdone : Done s
    · exact ⟨s,.refl,hdone⟩
    · unfold Done at hdone
      push Not at hdone
      obtain ⟨worker,hmem,hne⟩ := hdone
      obtain ⟨before,after,hworkers⟩ := List.append_of_mem hmem
      obtain ⟨d,dirs,rfl⟩ := List.exists_cons_of_ne_nil hne
      obtain ⟨sh,worker',hturn,hlt⟩ := workerTurn_exists
      have hstep : ParStep s ⟨before++worker'::after,sh⟩ := ⟨_,_,_,_,_,hworkers,hturn,rfl⟩
      have hcost : workCost (before++worker'::after) < n := by
        rw [← hn, hworkers]
        simp only [workCost, List.map_append, List.sum_append, List.map_cons, List.sum_cons] at hlt ⊢
        omega
      obtain ⟨s',hrun,hs'⟩ := ih _ hcost ⟨before++worker'::after,sh⟩ rfl
      exact ⟨s',.head hstep hrun,hs'⟩

end Schedules

end FastSync.ScanParallel
