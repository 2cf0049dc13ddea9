import Mathlib.Data.Int.Notation
import Mathlib.Data.List.Basic
import Mathlib.Data.Nat.Notation

/-!
# The entries of a source scan

The sequential scanner and the root level of the parallel one look at a
directory entry in the same way and then each decide for themselves what to
send, what to record for the receiver's deletion and what to descend into.
-/

set_option autoImplicit false

namespace FastSync.ScanEntries

abbrev Path := List UInt8

def slash : UInt8 := 47

def pathCat (path1 path2 : Path) : Path :=
  if path1 = [] then path2
  else if path2 = [] then path1
  else (if path1.getLast? = some slash then path1.dropLast else path1)++
    slash::(if path2.head? = some slash then path2.tail else path2)

/-- Trailing slashes removed, down to one byte; the argument is reversed. -/
def trimReversed : Path → Path
  | c::d::cs => if c = slash then trimReversed (d::cs) else c::d::cs
  | cs => cs

def rootStem (root : Path) : Path := (trimReversed root.reverse).reverse

def scannerPathRelative (root fsPath : Path) : Option Path :=
  let stem := rootStem root
  if !stem.isPrefixOf fsPath then none
  else if stem = [slash] then some (fsPath.drop 1)
  else
    match fsPath.drop stem.length with
    | [] => some []
    | c::rest => if c = slash then some rest else none

def childRelPath (parentRel name : Path) : Path :=
  if parentRel = [] then name else pathCat parentRel name

def scannerPrefixSendPath (start rel : Path) : Path :=
  if start = [] then rel else if rel = [] then start else pathCat start rel

/-- The stored form of a recorded path, without one leading slash. -/
def stripSlash : Path → Path
  | [] => []
  | c::cs => if c = slash then cs else c::cs

inductive Kind where
  | regular
  | directory
  | symlink
  | charDevice
  | blockDevice
  | fifo
  | socket
deriving DecidableEq, Repr

structure Stat where
  kind : Kind
  size : ℕ
  device : ℕ
deriving DecidableEq, Repr

/-- What reading the filter files of one directory gives: nothing to add to the
inherited rules, an error, or rules of its own. -/
inductive FilterRead (ρ : Type) where
  | inherit
  | invalid
  | rules (own : ρ)

/-- A directory entry with what the system calls answer for its path. -/
structure Entry (ρ : Type) where
  name : Path
  lstat : Option Stat
  readlink : Option Path
  stat : Option Stat
  opens : Bool
  filters : Path → FilterRead ρ
  name_ne : name ≠ []
  no_slash : slash ∉ name

/-- The entries of a directory, each with the directory it leads to. -/
inductive Forest (ρ : Type) where
  | nil
  | cons (e : Entry ρ) (contents : Forest ρ) (rest : Forest ρ)

structure FileListSet where
  affects : Path → Bool
  dirInScope : Path → Bool

inductive Side where
  | sender
  | receiver
deriving DecidableEq, Repr

inductive FilterAction where
  | none
  | exclude
  | includes
  | protect
  | risk
deriving DecidableEq, Repr

structure ScannerOptions (ρ : Type) where
  chunkSize : ℕ
  excludePatterns : List Path
  includePatterns : List Path
  maxSize : ℕ
  minSize : ℕ
  maxDepth : ℤ
  numThreads : ℤ
  followSymlinks : Bool
  copyLinks : Bool
  safeLinks : Bool
  copyUnsafeLinks : Bool
  copyDirlinks : Bool
  mungeLinks : Bool
  oneFileSystem : ℤ
  preserveDevices : Bool
  preserveSpecials : Bool
  copyDevices : Bool
  fileList : Option FileListSet
  baseFilters : Option ρ
  perDirFilters : Bool
  excludePerDirFilterFiles : Bool
  relative : Bool
  relativePrefix : Option Path
  pruneEmptyDirs : Bool
  emitEmptyDirs : Bool
  excludedPaths : Bool
  sizeSkippedPaths : Bool
  syncedDirs : Bool
  globMatch : Path → Path → Bool
  symlinkUnsafe : Path → Path → Bool
  symlinkUnmunge : Path → Path
  filterRulesApplySide : ρ → Path → Path → Bool → Side → FilterAction

inductive EntryKind where
  | file
  | dir
  | symlink
  | special
deriving DecidableEq, Repr

structure File where
  wirePath : Path
  kind : EntryKind
  size : ℕ
  symlinkTarget : Option Path
deriving DecidableEq, Repr

/-- An element of one of the sets a scan records for the deletion phase. -/
inductive Note where
  | excluded (path : Path)
  | sizeSkipped (path : Path)
  | synced (path : Path)
deriving DecidableEq, Repr

variable {ρ : Type} (opts : ScannerOptions ρ)

section Inspection

inductive LinkAction where
  | skip
  | skipProtected
  | deref
  | carry (target : Path)

def scannerLinkAction (linkRel : Path) (e : Entry ρ) : LinkAction :=
  if !opts.followSymlinks && !opts.copyLinks && !opts.safeLinks && !opts.copyUnsafeLinks &&
      !opts.copyDirlinks then .skip
  else
    match e.readlink with
    | none => .skip
    | some target =>
      let isUnsafe := opts.symlinkUnsafe target linkRel
      if opts.copyLinks || (opts.copyUnsafeLinks && isUnsafe) then .deref
      else if opts.copyDirlinks && (e.stat.map Stat.kind == some .directory) then .deref
      else if opts.safeLinks && (isUnsafe || opts.mungeLinks) then .skipProtected
      else if !opts.followSymlinks || target.isEmpty then .skip
      else .carry target

inductive Inspection where
  | skipped (excluded sizeExcluded : Bool)
  | kept (path : Path) (stats : Stat) (isDirectory : Bool) (linkTarget : Option Path)

def applyFilters (name path : Path) (stats : Stat) (linkTarget : Option Path) : Inspection :=
  if opts.excludePatterns.any fun p => opts.globMatch p name then .skipped true false
  else if !opts.includePatterns.isEmpty && !opts.includePatterns.any fun p => opts.globMatch p name
  then .skipped true false
  else if (decide (0 < opts.maxSize) && decide (opts.maxSize < stats.size)) ||
      (decide (0 < opts.minSize) && decide (stats.size < opts.minSize)) then .skipped true true
  else .kept path stats false linkTarget

def scannerInspectEntry (containingDir linkRel : Path) (e : Entry ρ) : Inspection :=
  let path := pathCat containingDir e.name
  match e.lstat with
  | none => .skipped false false
  | some linkStats =>
    if linkStats.kind ≠ .symlink then
      if linkStats.kind = .directory then .kept path linkStats true none
      else applyFilters opts e.name path linkStats none
    else
      match scannerLinkAction opts linkRel e with
      | .skip => .skipped false false
      | .skipProtected => .skipped true false
      | .deref =>
        match e.stat with
        | none => .skipped false false
        | some stats =>
          if stats.kind = .directory then .kept path stats true none
          else applyFilters opts e.name path stats none
      | .carry target =>
        applyFilters opts e.name path linkStats
          (some (if opts.mungeLinks then opts.symlinkUnmunge target else target))

end Inspection

section Selection

/-- The verdict of the first rule list, innermost directory first, that has one. -/
def firstAction (rules : List ρ) (rel leaf : Path) (isDir : Bool) (side : Side) : FilterAction :=
  match rules with
  | [] => .none
  | list::rules =>
    match opts.filterRulesApplySide list rel leaf isDir side with
    | .none => firstAction rules rel leaf isDir side
    | action => action

/-- Whether the entry is transferred, and whether a receiver-side rule protects
its mirror. -/
def entryAllowed (node : List ρ) (rel leaf : Path) (isDir : Bool) : Bool × Bool :=
  if opts.excludePerDirFilterFiles && !isDir &&
      leaf == [46,114,115,121,110,99,45,102,105,108,116,101,114] then (false, false)
  else
    let rules := node++opts.baseFilters.toList
    (firstAction opts rules rel leaf isDir .sender != .exclude,
      firstAction opts rules rel leaf isDir .receiver == .protect)

def fileListPrunes (rel : Path) : Bool :=
  match opts.fileList with
  | none => false
  | some list => !list.affects rel

def entryPassesSelection (node : List ρ) (rel leaf : Path) (isDir : Bool) : Bool × Bool :=
  if fileListPrunes opts rel then (false, false)
  else if opts.baseFilters.isSome || opts.perDirFilters then entryAllowed opts node rel leaf isDir
  else (true, false)

def scannerSameFilesystem (rootDevice entryDevice : ℕ) : Bool :=
  decide (opts.oneFileSystem ≤ 0) || decide (entryDevice = rootDevice)

inductive Special where
  | regular
  | skip
  | recreate
deriving DecidableEq, Repr

def scannerPrepareSpecial (kind : Kind) : Special :=
  let isDevice := decide (kind = .charDevice) || decide (kind = .blockDevice)
  if !isDevice && kind ≠ .fifo && kind ≠ .socket then .regular
  else if isDevice && opts.copyDevices then .regular
  else if !(if isDevice then opts.preserveDevices else opts.preserveSpecials) then .skip
  else .recreate

end Selection

/-- `-R` with `--files-from`: bare relative wire paths. -/
def relativeMode : Bool := opts.relative && opts.fileList.isSome

def noteExcluded (path : Path) : List Note :=
  if opts.excludedPaths then [.excluded path] else []

def noteSizeSkipped (path : Path) : List Note :=
  if opts.sizeSkippedPaths then [.sizeSkipped path] else []

def scannerRecordSyncedDir (fsPath rel : Path) : List Note :=
  if !opts.syncedDirs then []
  else if (match opts.fileList with
    | none => false
    | some list => !list.dirInScope rel) then []
  else
    let dest :=
      if relativeMode opts then rel
      else
        match opts.relativePrefix with
        | some start => scannerPrefixSendPath start rel
        | none => fsPath
    let stored := stripSlash dest
    [.synced (if stored = [] then [46] else stored)]

def fileOf (wirePath : Path) (stats : Stat) (linkTarget : Option Path) : Option File :=
  match scannerPrepareSpecial opts stats.kind with
  | .skip => none
  | .recreate => some ⟨wirePath,.special,0,none⟩
  | .regular =>
    match linkTarget with
    | some target => some ⟨wirePath,.symlink,0,some target⟩
    | none => some ⟨wirePath,.file,stats.size,none⟩

section Sequential

/-- The open directory of a scan: its path, its path below the transfer root,
its depth and its filter context. -/
structure OpenDir (ρ : Type) where
  path : Path
  rel : Path
  depth : ℕ
  node : List ρ

/-- What the scanner makes of one entry. `produced` counts it as content of the
directory, `subdir` marks a directory to descend into, depth permitting. -/
structure Visit where
  notes : List Note
  file : Option File
  produced : Bool
  subdir : Bool
deriving DecidableEq, Repr

def scannerEntryProtectedPath (d : OpenDir ρ) (name : Path) : Path :=
  if relativeMode opts then childRelPath d.rel name
  else
    match opts.relativePrefix with
    | some start => scannerPrefixSendPath start (childRelPath d.rel name)
    | none => pathCat d.path name

def scannerHandleSkippedEntry (d : OpenDir ρ) (name : Path) (excluded sizeExcluded : Bool) :
    List Note :=
  if !excluded then []
  else
    let stored := stripSlash (scannerEntryProtectedPath opts d name)
    if sizeExcluded then noteSizeSkipped opts stored else noteExcluded opts stored

def scannerRecordSelectionProtection (protect passesSelection : Bool) (rel curPath : Path) :
    List Note :=
  if passesSelection && !protect then []
  else if protect && relativeMode opts then noteExcluded opts (stripSlash rel)
  else if !fileListPrunes opts rel && !relativeMode opts then
    match opts.relativePrefix with
    | some start => noteExcluded opts (stripSlash (scannerPrefixSendPath start rel))
    | none => noteExcluded opts (stripSlash curPath)
  else []

/-- The directory is a mount point: it is dropped or sent empty, and not
descended into. -/
def scannerHandleMountDir (rootDev : ℕ) (curPath : Path) (stats : Stat) (notes : List Note) :
    Visit :=
  if scannerSameFilesystem opts rootDev stats.device then ⟨notes,none,true,true⟩
  else if 1 < opts.oneFileSystem then ⟨notes,none,false,false⟩
  else ⟨notes,some ⟨curPath,.dir,0,none⟩,true,false⟩

def scannerProcessEntry (rootDev : ℕ) (d : OpenDir ρ) (name curPath : Path) (stats : Stat)
    (isDir : Bool) (linkTarget : Option Path) : Visit :=
  let rel := childRelPath d.rel name
  let selection := entryPassesSelection opts d.node rel name isDir
  let notes := scannerRecordSelectionProtection opts selection.2 selection.1 rel curPath
  if !selection.1 then ⟨notes,none,false,false⟩
  else if isDir then scannerHandleMountDir opts rootDev curPath stats notes
  else if 0 < opts.maxDepth ∧ opts.maxDepth < d.depth+1 then ⟨notes,none,false,false⟩
  else
    let wirePath :=
      if relativeMode opts then rel
      else
        match opts.relativePrefix with
        | some start => scannerPrefixSendPath start rel
        | none => curPath
    match fileOf opts wirePath stats linkTarget with
    | none => ⟨notes,none,false,false⟩
    | some file => ⟨notes,some file,true,false⟩

def inspectIn (d : OpenDir ρ) (e : Entry ρ) : Inspection :=
  scannerInspectEntry opts d.path (childRelPath d.rel e.name) e

def visitInspected (rootDev : ℕ) (d : OpenDir ρ) (name : Path) : Inspection → Visit
  | .skipped excluded sizeExcluded =>
    ⟨scannerHandleSkippedEntry opts d name excluded sizeExcluded,none,false,false⟩
  | .kept path stats isDirectory linkTarget =>
    scannerProcessEntry opts rootDev d name path stats isDirectory linkTarget

/-- One entry of an open directory of the sequential scanner. -/
def visitEntry (rootDev : ℕ) (d : OpenDir ρ) (e : Entry ρ) : Visit :=
  visitInspected opts rootDev d e.name (inspectIn opts d e)

end Sequential

section Root

/-- What the parallel scanner makes of one entry of the transfer root. -/
structure RootVisit where
  notes : List Note
  file : Option File
  subdir : Bool
deriving DecidableEq, Repr

/-- The skip branch of `scan_root_entry`. A prefixed path is stored as it is. -/
def rootSkipped (rootDirectory name : Path) (excluded sizeExcluded : Bool) : List Note :=
  if !excluded then []
  else
    let stored :=
      if relativeMode opts then name
      else
        match opts.relativePrefix with
        | some start => scannerPrefixSendPath start name
        | none => stripSlash (pathCat rootDirectory name)
    if sizeExcluded then noteSizeSkipped opts stored else noteExcluded opts stored

def rootProtection (protect passes : Bool) (name curPath : Path) : List Note :=
  if passes && !protect then []
  else if (!fileListPrunes opts name && !relativeMode opts) || protect then
    if relativeMode opts then noteExcluded opts name
    else
      match opts.relativePrefix with
      | some start => noteExcluded opts (scannerPrefixSendPath start name)
      | none => noteExcluded opts (stripSlash curPath)
  else []

def rootKept (rootNode : List ρ) (rootDev : ℕ) (name curPath : Path) (stats : Stat)
    (isDir : Bool) (linkTarget : Option Path) : RootVisit :=
  let selection := entryPassesSelection opts rootNode name name isDir
  let notes := rootProtection opts selection.2 selection.1 name curPath
  if !selection.1 then ⟨notes,none,false⟩
  else if isDir then
    if !scannerSameFilesystem opts rootDev stats.device then
      if 1 < opts.oneFileSystem then ⟨notes,none,false⟩
      else
        match opts.relativePrefix with
        | some start => ⟨notes,some ⟨scannerPrefixSendPath start name,.dir,0,none⟩,false⟩
        | none => ⟨notes,some ⟨curPath,.dir,0,none⟩,false⟩
    else ⟨notes,none,true⟩
  else
    let wirePath :=
      if relativeMode opts then name
      else
        match opts.relativePrefix with
        | some start => scannerPrefixSendPath start name
        | none => curPath
    match fileOf opts wirePath stats linkTarget with
    | none => ⟨notes,none,false⟩
    | some file => ⟨notes,some file,false⟩

def scanRootEntry (rootNode : List ρ) (rootDirectory : Path) (rootDev : ℕ) (e : Entry ρ) :
    RootVisit :=
  match scannerInspectEntry opts rootDirectory e.name e with
  | .skipped excluded sizeExcluded =>
    ⟨rootSkipped opts rootDirectory e.name excluded sizeExcluded,none,false⟩
  | .kept path stats isDirectory linkTarget =>
    rootKept opts rootNode rootDev e.name path stats isDirectory linkTarget

end Root

section Paths

theorem trimReversed_ne {cs : Path} (h : cs ≠ []) : trimReversed cs ≠ [] := by
  induction cs with
  | nil => exact absurd rfl h
  | cons c cs ih =>
    cases cs with
    | nil => simp [trimReversed]
    | cons d cs =>
      rw [trimReversed]
      split_ifs
      · exact ih (by simp)
      · simp

theorem trimReversed_head {cs : Path} :
    trimReversed cs = [slash] ∨ (trimReversed cs).head? ≠ some slash := by
  induction cs with
  | nil => exact .inr (by simp [trimReversed])
  | cons c cs ih =>
    cases cs with
    | nil =>
      by_cases hc : c = slash
      · exact .inl (by simp [trimReversed, hc])
      · exact .inr (by simpa [trimReversed] using hc)
    | cons d cs =>
      rw [trimReversed]
      split_ifs with hc
      · exact ih
      · exact .inr (by simpa using hc)

theorem rootStem_ne {root : Path} (h : root ≠ []) : rootStem root ≠ [] := by
  unfold rootStem
  rw [Ne, List.reverse_eq_nil_iff]
  exact trimReversed_ne (by simpa using h)

theorem rootStem_last {root : Path} :
    rootStem root = [slash] ∨ (rootStem root).getLast? ≠ some slash := by
  unfold rootStem
  rw [List.getLast?_reverse]
  rcases trimReversed_head with h | h
  · exact .inl (by rw [h]; rfl)
  · exact .inr h

theorem scannerPathRelative_eq_some {root p r : Path} :
    scannerPathRelative root p = some r ↔
      (rootStem root = [slash] ∧ p = slash::r) ∨
      (rootStem root ≠ [slash] ∧ (p = rootStem root ∧ r = [] ∨ p = rootStem root++slash::r)) := by
  unfold scannerPathRelative
  by_cases hpre : rootStem root <+: p
  · obtain ⟨t,rfl⟩ := hpre
    rw [if_neg (by simp)]
    by_cases hstem : rootStem root = [slash]
    · rw [if_pos hstem, hstem]
      simp
    · rw [if_neg hstem, List.drop_left]
      cases t with
      | nil => simp [hstem, eq_comm]
      | cons c t => by_cases hc : c = slash <;> simp [hc, hstem]
  · have hfalse : (rootStem root).isPrefixOf p = false := by
      rw [← Bool.not_eq_true, List.isPrefixOf_iff_prefix]
      exact hpre
    rw [if_pos (by rw [hfalse]; rfl)]
    refine ⟨nofun,?_⟩
    rintro (⟨hs,rfl⟩ | ⟨-,⟨rfl,-⟩ | rfl⟩)
    · exact absurd ⟨r,by rw [hs]; rfl⟩ hpre
    · exact absurd (List.prefix_refl _) hpre
    · exact absurd (List.prefix_append _ _) hpre

theorem pathCat_rooted {root p name : Path} (hroot : root ≠ [])
    (h : ∃ r, scannerPathRelative root p = some r) :
    ∃ r, scannerPathRelative root (pathCat p name) = some r := by
  obtain ⟨r,hr⟩ := h
  have hcase := scannerPathRelative_eq_some.mp hr
  have hne := rootStem_ne hroot
  unfold pathCat
  by_cases hp : p = []
  · subst hp
    rcases hcase with ⟨-,h⟩ | ⟨-,⟨h,-⟩ | h⟩
    · cases h
    · exact absurd h.symm hne
    · simp at h
  rw [if_neg hp]
  by_cases hname : name = []
  · rw [if_pos hname]
    exact ⟨r,hr⟩
  rw [if_neg hname]
  generalize (if name.head? = some slash then name.tail else name) = leaf
  simp only [scannerPathRelative_eq_some]
  -- the trailing slash that is dropped is never the stem's own
  rcases hcase with ⟨hs,rfl⟩ | ⟨hs,⟨rfl,-⟩ | rfl⟩
  · cases r with
    | nil => exact ⟨leaf,.inl ⟨hs,by simp⟩⟩
    | cons c r => split_ifs <;> exact ⟨_,.inl ⟨hs,by simp; rfl⟩⟩
  · rw [if_neg (rootStem_last.resolve_left hs)]
    exact ⟨leaf,.inr ⟨hs,.inr rfl⟩⟩
  · cases r with
    | nil => exact ⟨leaf,.inr ⟨hs,.inr (by simp)⟩⟩
    | cons c r => split_ifs <;> exact ⟨_,.inr ⟨hs,.inr (by simp; rfl)⟩⟩

end Paths

end FastSync.ScanEntries
