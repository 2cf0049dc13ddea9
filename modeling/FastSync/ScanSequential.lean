import Mathlib.Algebra.Ring.Nat
import Mathlib.Algebra.BigOperators.Group.List.Basic
import Mathlib.Data.List.Sort
import FastSync.Machine
import FastSync.ScanEntries

/-!
# The sequential scanner

`directory_scanner_next` walks a stack of directories and hands out chunks. The
model takes one turn of its loop as a step and keeps what the caller has got so
far, so a run of the machine is a caller that asks until it gets nothing.
-/

set_option autoImplicit false

namespace FastSync.ScanSequential
open ScanEntries

variable {ρ : Type} (opts : ScannerOptions ρ)

structure SourceDir (ρ : Type) where
  lstatDir : Bool
  device : ℕ
  opens : Bool
  filters : Path → FilterRead ρ
  contents : Forest ρ

structure DirEntry (ρ : Type) where
  path : Path
  depth : ℕ
  context : List ρ
  dir : SourceDir ρ

/-- A buffered entry with its inspection and the directory it leads to. -/
structure SortedEntry (ρ : Type) where
  entry : Entry ρ
  contents : Forest ρ
  inspection : Inspection

def isDirectory : Inspection → Bool
  | .skipped _ _ => false
  | .kept _ _ isDir _ => isDir

def inspectedDevice : Inspection → ℕ
  | .skipped _ _ => 0
  | .kept _ stats _ _ => stats.device

def bytesLe : Path → Path → Bool
  | [], _ => true
  | _::_, [] => false
  | a::as, b::bs => decide (a < b) || (decide (a = b) && bytesLe as bs)

/-- Non-directories first, then directories, each by name. -/
def sortedEntryLe (a b : SortedEntry ρ) : Prop :=
  if isDirectory a.inspection ≠ isDirectory b.inspection then isDirectory b.inspection = true
  else bytesLe a.entry.name b.entry.name = true

instance : DecidableRel (sortedEntryLe : SortedEntry ρ → SortedEntry ρ → Prop) := fun a b =>
  inferInstanceAs (Decidable (if isDirectory a.inspection ≠ isDirectory b.inspection then
    isDirectory b.inspection = true else bytesLe a.entry.name b.entry.name = true))

def bufferEntries (d : OpenDir ρ) : Forest ρ → List (SortedEntry ρ)
  | .nil => []
  | .cons e contents rest => ⟨e,contents,inspectIn opts d e⟩::bufferEntries d rest

def scannerBufferCurrentDirectory (d : OpenDir ρ) (contents : Forest ρ) : List (SortedEntry ρ) :=
  (bufferEntries opts d contents).insertionSort sortedEntryLe

structure Current (ρ : Type) where
  dir : OpenDir ρ
  lstatDir : Bool
  remaining : List (SortedEntry ρ)
  pending : List (DirEntry ρ)
  produced : Bool

inductive Event where
  | chunk (files : List File)
  | note (n : Note)
deriving DecidableEq, Repr

structure ScanState (ρ : Type) where
  directories : List (DirEntry ρ)
  current : Option (Current ρ)
  atSeedDir : Bool
  failed : Bool
  chunk : List File
  log : List Event

/-- What a scanner is created with: the transfer root, the device of its own
root and the filter context its first directory inherits. -/
structure Seed (ρ : Type) where
  rootPath : Path
  rootDev : ℕ
  seedNode : List ρ

variable (seed : Seed ρ)

/-- The open directory, when `opendir` and the filter files allow it. -/
def openDirectory (inherited : List ρ) (de : DirEntry ρ) (rel : Path) : Option (OpenDir ρ) :=
  match de.dir.filters rel with
  | .invalid => none
  | .inherit => some ⟨de.path,rel,de.depth,inherited⟩
  | .rules own => some ⟨de.path,rel,de.depth,own::inherited⟩

inductive OpenResult (ρ : Type) where
  | opened (d : OpenDir ρ) (de : DirEntry ρ) (directories : List (DirEntry ρ))
  | exhausted
  | failed (directories : List (DirEntry ρ))

/-- Pops directories until one opens. An unreadable one is skipped unless it is
the transfer root. -/
def openNextDirectory (atSeedDir : Bool) : List (DirEntry ρ) → OpenResult ρ
  | [] => .exhausted
  | de::directories =>
    match scannerPathRelative seed.rootPath de.path with
    | none => .failed directories
    | some rel =>
      if !de.dir.opens then
        if rel = [] ∧ de.depth = 0 then .failed directories
        else openNextDirectory false directories
      else
        match openDirectory (if atSeedDir then seed.seedNode else de.context) de rel with
        | none => .failed directories
        | some d => .opened d de directories

/-- The end of one call: a non-empty chunk is handed out and the caller asks
again, an empty one is the end of the scan. -/
def endCall (s : ScanState ρ) : Option (ScanState ρ) :=
  if s.chunk = [] then none else some { s with chunk := [], log := s.log++[Event.chunk s.chunk] }

def scannerEmitEmptyDir (d : OpenDir ρ) (lstatDir : Bool) : List File :=
  if d.rel = [] ∨ lstatDir = false then []
  else
    let wirePath :=
      if relativeMode opts then d.rel
      else
        match opts.relativePrefix with
        | some start => scannerPrefixSendPath start d.rel
        | none => d.path
    [⟨wirePath,.dir,0,none⟩]

def emptyDirFiles (d : OpenDir ρ) (lstatDir produced : Bool) : List File :=
  if opts.emitEmptyDirs && !produced && !opts.pruneEmptyDirs && opts.fileList.isNone then
    scannerEmitEmptyDir opts d lstatDir
  else []

def withinDepth (depth : ℕ) : Bool := decide (opts.maxDepth ≤ 0) || decide (depth < opts.maxDepth)

/-- The directory an entry leads to, as the scanner queues it. -/
def childEntry (d : OpenDir ρ) (se : SortedEntry ρ) : DirEntry ρ :=
  ⟨pathCat d.path se.entry.name,d.depth+1,d.node,
    ⟨decide (se.entry.lstat.map Stat.kind = some .directory),inspectedDevice se.inspection,
      se.entry.opens,se.entry.filters,se.contents⟩⟩

def childEntries (d : OpenDir ρ) (se : SortedEntry ρ) (v : Visit) : List (DirEntry ρ) :=
  if v.subdir && withinDepth opts (d.depth+1) then [childEntry d se] else []

def filesSize (files : List File) : ℕ := (files.map File.size).sum

def scannerStep (s : ScanState ρ) : Option (ScanState ρ) :=
  match s.current with
  | none =>
    match openNextDirectory seed s.atSeedDir s.directories with
    | .exhausted => endCall { s with directories := [], atSeedDir := false }
    | .failed directories =>
      endCall { s with directories := directories, atSeedDir := false, failed := true }
    | .opened d de directories =>
      some { s with
        directories := directories
        current := some ⟨d,de.dir.lstatDir,
          scannerBufferCurrentDirectory opts d de.dir.contents,[],false⟩
        atSeedDir := false
        log := s.log++(scannerRecordSyncedDir opts d.path d.rel).map Event.note }
  | some cur =>
    match cur.remaining with
    | [] =>
      if s.failed then none
      else some { s with
        directories := cur.pending++s.directories
        current := none
        chunk := s.chunk++emptyDirFiles opts cur.dir cur.lstatDir cur.produced }
    | se::remaining =>
      let v := visitInspected opts seed.rootDev cur.dir se.entry.name se.inspection
      let chunk := s.chunk++v.file.toList
      let s := { s with
        current := some { cur with
          remaining := remaining
          pending := cur.pending++childEntries opts cur.dir se v
          produced := cur.produced || v.produced }
        log := s.log++v.notes.map Event.note }
      if v.file.isSome && decide (opts.chunkSize < filesSize chunk) then
        some { s with chunk := [], log := s.log++[Event.chunk chunk] }
      else some { s with chunk := chunk }

section Cost

def forestCost : Forest ρ → ℕ
  | .nil => 0
  | .cons _ contents rest => forestCost contents+5+forestCost rest

def dirCost (de : DirEntry ρ) : ℕ := forestCost de.dir.contents+3

def sortedCost (entries : List (SortedEntry ρ)) : ℕ :=
  (entries.map fun se => forestCost se.contents+5).sum

def dirsCost (dirs : List (DirEntry ρ)) : ℕ := (dirs.map dirCost).sum

def currentCost : Option (Current ρ) → ℕ
  | none => 0
  | some cur => sortedCost cur.remaining+dirsCost cur.pending+2

def cost (s : ScanState ρ) : ℕ :=
  dirsCost s.directories+currentCost s.current+(if s.chunk = [] then 0 else 1)

theorem sortedCost_buffer (d : OpenDir ρ) (contents : Forest ρ) :
    sortedCost (scannerBufferCurrentDirectory opts d contents) = forestCost contents := by
  have hperm := (List.perm_insertionSort sortedEntryLe (bufferEntries opts d contents)).map
    fun se => forestCost se.contents+5
  rw [sortedCost, scannerBufferCurrentDirectory, hperm.sum_eq]
  clear hperm
  induction contents with
  | nil => rfl
  | cons e contents rest _ ih =>
    rw [bufferEntries, List.map_cons, List.sum_cons, ih, forestCost]

theorem openNextDirectory_cost (atSeedDir : Bool) {directories : List (DirEntry ρ)} :
    (∀ d de rest, openNextDirectory seed atSeedDir directories = .opened d de rest →
      dirCost de+dirsCost rest ≤ dirsCost directories) ∧
    (∀ rest, openNextDirectory seed atSeedDir directories = .failed rest →
      dirsCost rest ≤ dirsCost directories) := by
  induction directories generalizing atSeedDir with
  | nil => simp [openNextDirectory]
  | cons de directories ih =>
    unfold openNextDirectory
    cases scannerPathRelative seed.rootPath de.path with
    | none => simp [dirsCost]
    | some rel =>
      dsimp only
      obtain ⟨hopened,hfailed⟩ := ih false
      have hle : dirsCost directories ≤ dirsCost (de::directories) := by simp [dirsCost]
      split_ifs with hopens hroot
      · simp [dirsCost]
      · exact ⟨fun d e rest h => (hopened d e rest h).trans hle,
          fun rest h => (hfailed rest h).trans hle⟩
      all_goals
        cases openDirectory _ de rel with
        | none => simp [dirsCost]
        | some d =>
          refine ⟨?_,by simp⟩
          rintro _ _ _ ⟨⟩
          simp [dirsCost]

theorem childEntries_cost (d : OpenDir ρ) (se : SortedEntry ρ) (v : Visit) :
    dirsCost (childEntries opts d se v) ≤ forestCost se.contents+3 := by
  unfold childEntries
  split <;> simp [dirsCost, dirCost, childEntry]

theorem scannerStep_cost (s s' : ScanState ρ) (h : scannerStep opts seed s = some s') :
    cost s' < cost s := by
  unfold scannerStep at h
  cases hcur : s.current with
  | none =>
    rw [hcur] at h
    obtain ⟨hopened,hfailed⟩ := openNextDirectory_cost seed s.atSeedDir
    cases hopen : openNextDirectory seed s.atSeedDir s.directories with
    | exhausted =>
      rw [hopen] at h
      simp only [endCall] at h
      split_ifs at h with hc
      cases h
      simp [cost, hc, hcur, dirsCost, currentCost]
    | failed rest =>
      rw [hopen] at h
      simp only [endCall] at h
      split_ifs at h with hc
      cases h
      have := hfailed rest hopen
      simp only [cost, hc, hcur, currentCost, if_true, if_false]
      omega
    | opened d de rest =>
      rw [hopen] at h
      cases h
      have := hopened d de rest hopen
      simp only [cost, hcur, currentCost, sortedCost_buffer]
      simp only [dirsCost, dirCost, List.map_nil, List.sum_nil] at *
      omega
  | some cur =>
    rw [hcur] at h
    dsimp only at h
    cases hrem : cur.remaining with
    | nil =>
      rw [hrem] at h
      split_ifs at h with hf
      cases h
      simp only [cost, hcur, currentCost, hrem, sortedCost, dirsCost, List.map_append,
        List.sum_append, List.map_nil, List.sum_nil]
      split_ifs <;> omega
    | cons se remaining =>
      rw [hrem] at h
      dsimp only at h
      have hchild := childEntries_cost opts cur.dir se
        (visitInspected opts seed.rootDev cur.dir se.entry.name se.inspection)
      split_ifs at h with hcut <;> cases h <;>
        simp only [cost, hcur, currentCost, hrem, sortedCost, dirsCost, List.map_append,
          List.sum_append, List.map_cons, List.sum_cons] at * <;>
        split_ifs <;> omega

end Cost

def startState (de : DirEntry ρ) : ScanState ρ := ⟨[de],none,true,false,[],[]⟩

/-- A scanner seeded with one directory, asked until it has nothing left. -/
def drain (de : DirEntry ρ) : ScanState ρ :=
  Machine.run (scannerStep opts seed) (cost (startState de)) (startState de)

theorem drain_stops {de : DirEntry ρ} : scannerStep opts seed (drain opts seed de) = none :=
  Machine.run_stops (scannerStep_cost opts seed) _ (le_refl _)

end FastSync.ScanSequential
