import FastSync.DestinationTree

/-!
# The incremental check of a file

The sender announces a file with its size and time, and the receiver answers
whether it needs the data. It looks at the destination first, and then at the
basis directories of `--compare-dest`, `--copy-dest` and `--link-dest`. A dry run
decides from what the directories tell and never reads a file.
-/

set_option autoImplicit false

namespace FastSync.IncrementalCheck
open DeletePaths SystemCalls SecureWalk
open SaveEntry
open ReceiverQueue (maxReceiveWholeFileSize)

inductive BasisDestType where
  | compare
  | copy
  | link
deriving DecidableEq, Repr

structure BasisDest where
  type : BasisDestType
  path : Bytes
deriving DecidableEq, Repr

/-- The configuration of a connection. `digest` is the negotiated checksum with
its seed, and `digestLength` the length of its values. -/
structure SessionConfig extends DelayUpdates.Config where
  receiveRootDirectory : Bytes
  mkpath : Bool
  saveToDisk : Bool
  removeSourceFiles : Bool
  useMultithreading : Bool
  reportStats : Bool
  reportDestInfo : Bool
  useDelete : Bool
  deleteMissingArgs : Bool
  deleteBefore : Bool
  deleteDuring : Bool
  deleteDelay : Bool
  maxDelete : ℤ
  protectRules : Option (Bytes → Bytes → Bool → FilterAction)
  preserveOwner : Bool
  preserveGroup : Bool
  preserveXattrs : Bool
  preserveAcls : Bool
  checksum : Bool
  digest : Bytes → Bytes
  digestLength : ℕ
  ignoreTimes : Bool
  sizeOnly : Bool
  modifyWindow : ℤ
  verifyBasis : Bool
  basisDirs : List BasisDest
  relative : Bool
  filesFrom : Bool
  sendDirectory : Option Bytes

/-- A received entry, and whether the sender gets no acknowledgement for it. -/
structure Received where
  file : File
  skip : Bool
deriving DecidableEq, Repr

/-- The announced file. `transferred` is what the data of the sender make of it,
when they are asked for. -/
structure CheckRequest where
  path : Bytes
  size : ℕ
  mtime : Time
  digest : Bytes
  sourceMetadata : Option Metadata
  transferred : Option File

inductive CheckOutcome where
  | error
  | skipped
  | wouldTransfer
  | file (received : Received)
deriving DecidableEq, Repr

structure OpenFile where
  inode : ℕ
  data : Bytes
  mtime : Time
deriving DecidableEq, Repr

structure CheckDestination where
  present : Bool
  old : Option OpenFile
deriving DecidableEq, Repr

def granted : Sys Bool := do
  match ← answer with
  | .pass => pure true
  | .refuse _ _ => pure false

def send : Sys Bool := granted

variable (pr : Process) (cfg : SessionConfig) (rq : CheckRequest)

section Times

def nanosecondsPerSecond : ℤ := 1000000000

def metadataMtimeMatches (left right : Time) (modifyWindow : ℤ) : Bool :=
  let ordered := decide (right.1 < left.1 ∨ left.1 = right.1 ∧ right.2 ≤ left.2)
  let seconds := if ordered then left.1-right.1 else right.1-left.1
  let nanoseconds := if ordered then left.2-right.2 else right.2-left.2
  let borrowed := decide (nanoseconds < 0)
  let seconds := if borrowed then seconds-1 else seconds
  let nanoseconds := if borrowed then nanoseconds+nanosecondsPerSecond else nanoseconds
  if modifyWindow = 0 then decide (left.1 = right.1)
  else decide (seconds < modifyWindow ∨ seconds = modifyWindow ∧ nanoseconds = 0)

def Normal (t : Time) : Prop := 0 ≤ t.2 ∧ t.2 < nanosecondsPerSecond

instance (t : Time) : Decidable (Normal t) := inferInstanceAs (Decidable (_ ∧ _))

def distance (left right : Time) : ℤ :=
  ((left.1-right.1)*nanosecondsPerSecond+(left.2-right.2)).natAbs

theorem distance_comm (left right : Time) : distance left right = distance right left := by
  unfold distance
  rw [← Int.natAbs_neg]
  congr 2
  unfold nanosecondsPerSecond
  omega

/-- Both orders and the borrow leave the window's edge on the exact distance. -/
theorem metadataMtimeMatches_distance {left right : Time} (hl : Normal left) (hr : Normal right)
    {w : ℤ} (hw : w ≠ 0) :
    metadataMtimeMatches left right w = true ↔ distance left right ≤ w*nanosecondsPerSecond := by
  obtain ⟨hl0,hl1⟩ := hl
  obtain ⟨hr0,hr1⟩ := hr
  unfold nanosecondsPerSecond at hl1 hr1
  simp only [metadataMtimeMatches, if_neg hw, distance, nanosecondsPerSecond, decide_eq_true_eq]
  by_cases ho : right.1 < left.1 ∨ left.1 = right.1 ∧ right.2 ≤ left.2
  · simp only [ho, if_true]
    split_ifs <;> omega
  · simp only [ho, if_false]
    split_ifs <;> omega

/-- The comparison is a symmetric window of whole seconds; without a window the
seconds decide, and a negative window holds no pair. -/
theorem mtime_window_symmetric (left right : Time) (hl : Normal left) (hr : Normal right) (w : ℤ) :
    metadataMtimeMatches left right w = metadataMtimeMatches right left w ∧
      (0 < w → (metadataMtimeMatches left right w = true ↔
        distance left right ≤ w*nanosecondsPerSecond)) ∧
      (w = 0 → (metadataMtimeMatches left right w = true ↔ left.1 = right.1)) ∧
      (w < 0 → metadataMtimeMatches left right w = false) ∧
      (∀ w', 1 ≤ w → w ≤ w' → metadataMtimeMatches left right w = true →
        metadataMtimeMatches left right w' = true) ∧
      (0 ≤ w → metadataMtimeMatches left left w = true) := by
  have hwindow := fun {w : ℤ} => metadataMtimeMatches_distance hl hr (w := w)
  have hzero : ∀ l r, metadataMtimeMatches l r 0 = true ↔ l.1 = r.1 := by
    intro l r
    simp [metadataMtimeMatches]
  refine ⟨?_,fun hw => hwindow (ne_of_gt hw),fun hw => hw ▸ hzero left right,fun hw => ?_,
    fun w' hw hle hm => ?_,fun hw => ?_⟩
  · rw [Bool.eq_iff_iff]
    by_cases hw : w = 0
    · rw [hw, hzero, hzero, eq_comm]
    · rw [hwindow hw, metadataMtimeMatches_distance hr hl hw, distance_comm]
  · rw [Bool.eq_false_iff, Ne, hwindow (ne_of_lt hw)]
    unfold distance nanosecondsPerSecond
    omega
  · rw [hwindow (by omega)] at hm ⊢
    unfold nanosecondsPerSecond at hm ⊢
    omega
  · by_cases hz : w = 0
    · rw [hz, hzero]
    · rw [metadataMtimeMatches_distance hl hl hz]
      unfold distance nanosecondsPerSecond
      omega

theorem edge_of_window : metadataMtimeMatches (5, 0) (3, 0) 2 = true ∧
    metadataMtimeMatches (5, 1) (3, 0) 2 = false := by
  have h := fun n hn => (mtime_window_symmetric (5, n) (3, 0) hn (by decide) 2).2.1 (by decide)
  rw [Bool.eq_false_iff, Ne, h 0 (by decide), h 1 (by decide)]
  decide

end Times

section Destination

def checkRequestValid : Bool :=
  decide (0 ≤ rq.mtime.2 ∧ rq.mtime.2 < nanosecondsPerSecond) &&
  (!(cfg.checksum || cfg.verifyBasis) ||
    decide (rq.digest ≠ [] ∧ rq.digest.length = cfg.digestLength)) &&
  (!cfg.basisDirs.isEmpty || decide (rq.size ≤ maxReceiveWholeFileSize)) &&
  decide (rq.path ≠ []) && !hasPathTraversal rq.path

/-- `openat` for reading without following a link, and `fstat` -/
def openRegular (d : Position) (leaf : Bytes) : Sys (Option OpenFile) := do
  match ← statAt d leaf with
  | .ok (.inode i (.file data mtime)) => pure (some ⟨i,data,mtime⟩)
  | _ => pure none

def incrementalCheckOpenDestination : Sys CheckDestination := do
  match ← fileOpenSecureParent pr (pathCat cfg.receiveRootDirectory rq.path) false with
  | .error _ => pure ⟨false,none⟩
  | .ok (d,leaf) =>
    let seen ← statAt d leaf
    let old ← openRegular d leaf
    pure ⟨seen.toOption.isSome,old⟩

def incrementalCheckReportDestInfo : Sys Bool := if cfg.reportDestInfo then send else pure true

end Destination

section Basis

structure BasisMatch where
  type : BasisDestType
  path : Bytes
  file : OpenFile
deriving DecidableEq, Repr

def utilsStripTransferRoot (path : Bytes) (root : Option Bytes) : Bytes :=
  let rel := path.dropWhile (· = slash)
  match root with
  | none => rel
  | some root =>
    let stem := (root.dropWhile (· = slash)).rdropWhile (· = slash)
    if stem = [] then rel
    else if stem.isPrefixOf rel then
      match rel.drop stem.length with
      | [] => []
      | b::rest => if b = slash then rest else rel
    else rel

def transferRel : Bytes :=
  if !cfg.relative && !cfg.filesFrom then utilsStripTransferRoot rq.path cfg.sendDirectory
  else rq.path

/-- Where one basis directory may hold the file: an absolute directory by the
path on the wire, a relative one by the path inside the transfer first. -/
def basisCandidates (entry : BasisDest) : List Bytes :=
  if entry.path.head? = some slash then [pathCat entry.path rq.path]
  else
    let dir := pathCat cfg.receiveRootDirectory entry.path
    if transferRel cfg rq = rq.path then [pathCat dir rq.path]
    else [pathCat dir (transferRel cfg rq),pathCat dir rq.path]

def basisOpenRegular (path : Bytes) : Sys (Option OpenFile) := do
  match ← fileOpenSecureParent pr path false with
  | .error _ => pure none
  | .ok (d,leaf) =>
    match ← openRegular d leaf with
    | none => pure none
    | some f => pure (if f.data.length = rq.size then some f else none)

def fileBasisQuickMatch (f : OpenFile) : Bool :=
  cfg.sizeOnly || metadataMtimeMatches f.mtime rq.mtime cfg.modifyWindow

/-- `--verify-basis` reads the file and compares its digest. -/
def basisContentMatches (f : OpenFile) : Sys Bool :=
  if cfg.verifyBasis then do
    match ← query (fun _ => .ok (cfg.digest f.data)) with
    | .error _ => pure false
    | .ok digest => pure (decide (digest = rq.digest ∧ rq.digest ≠ []))
  else pure true

def basisMatchProbe (type : BasisDestType) (candidate : Bytes) : Sys (Option BasisMatch) := do
  match ← basisOpenRegular pr rq candidate with
  | none => pure none
  | some f =>
    if !fileBasisQuickMatch cfg rq f then pure none
    else if ← basisContentMatches cfg rq f then pure (some ⟨type,candidate,f⟩)
    else pure none

def probeEach (type : BasisDestType) : List Bytes → Sys (Option BasisMatch)
  | [] => pure none
  | candidate::candidates => do
    match ← basisMatchProbe pr cfg rq type candidate with
    | some found => pure (some found)
    | none => probeEach type candidates

def probeDirs : List BasisDest → Sys (Option BasisMatch)
  | [] => pure none
  | entry::entries => do
    match ← probeEach pr cfg rq entry.type (basisCandidates cfg rq entry) with
    | some found => pure (some found)
    | none => probeDirs entries

/-- The first match in the order of the command line. Without `hashContent` no
match can be confirmed that needs the content. -/
def basisMatchFind (hashContent : Bool) : Sys (Option BasisMatch) :=
  if cfg.ignoreTimes || (cfg.verifyBasis && !hashContent) then pure none
  else probeDirs pr cfg rq cfg.basisDirs

/-- A file without data, made from the basis. It gets the attributes of the
source, or else those of the basis, of which only the time is kept here. -/
def materialized (found : BasisMatch) : Received where
  file :=
    { path := rq.path
      data := none
      size := rq.size
      metadata := some (rq.sourceMetadata.getD ⟨none,0,found.file.mtime,false⟩)
      xattrs := none
      isDir := false
      dirTimeOnly := false
      isSymlink := false
      symlinkTarget := none
      isSpecial := false
      rdevMajor := 0
      rdevMinor := 0
      linkGroup := 0
      linkFirst := false
      hardlinkTarget := none
      basisLink := if found.type = .link then some found.path else none
      basisCopy := if found.type = .link then none else some found.path }
  skip := true

def answered (outcome : CheckOutcome) : Sys CheckOutcome := do
  if ← send then pure outcome else pure .error

end Basis

section Stages

variable (dest : CheckDestination)

/-- `--link-dest` links a destination that is up to date to its basis. -/
def incrementalCheckLinkDestRelink : Sys (Option CheckOutcome) :=
  if cfg.basisDirs.isEmpty || cfg.ignoreTimes || cfg.dryRun then pure none
  else
    match dest.old with
    | none => pure none
    | some old => do
      match ← basisMatchFind pr cfg rq true with
      | none => pure none
      | some found =>
        if found.type = .link ∧ found.file.inode ≠ old.inode then
          let outcome ← answered (.file (materialized rq found))
          pure (some outcome)
        else pure none

def quickMatch (old : OpenFile) : Bool :=
  if decide (old.data.length = rq.size) && !cfg.ignoreTimes then
    if cfg.checksum && !cfg.dryRun then decide (cfg.digest old.data = rq.digest ∧ rq.digest ≠ [])
    else cfg.sizeOnly || metadataMtimeMatches old.mtime rq.mtime cfg.modifyWindow
  else false

def incrementalCheckDryRunShortcut : Sys CheckOutcome := do
  let found ← (if cfg.basisDirs.isEmpty || cfg.ignoreTimes then pure none
    else basisMatchFind pr cfg rq false)
  if (found.any fun m => decide (m.type = .compare)) && dest.old.isNone then answered .skipped
  else answered .wouldTransfer

/-- The data of the sender: what a resumed, a delta or a whole transfer yields. -/
def incrementalCheckReceive : Sys CheckOutcome := do
  if ← send then
    match rq.transferred with
    | none => pure .error
    | some file => pure (.file ⟨file,false⟩)
  else pure .error

def incrementalCheckTryBasis : Sys CheckOutcome := do
  let found ← (if cfg.basisDirs.isEmpty then pure none else basisMatchFind pr cfg rq true)
  match found with
  | none => incrementalCheckReceive rq
  | some m =>
    if m.type = .compare then
      if dest.old.isNone then answered .skipped else incrementalCheckReceive rq
    else answered (.file (materialized rq m))

def decideCheck : Sys CheckOutcome := do
  match ← incrementalCheckLinkDestRelink pr cfg rq dest with
  | some outcome => pure outcome
  | none =>
    if dest.old.any (quickMatch cfg rq) then answered .skipped
    else if cfg.dryRun then incrementalCheckDryRunShortcut pr cfg rq dest
    else incrementalCheckTryBasis pr cfg rq dest

end Stages

def receiveIncrementalCheckEx : Sys CheckOutcome :=
  if !checkRequestValid cfg rq then pure .error
  else do
    let dest ← incrementalCheckOpenDestination pr cfg rq
    if ← incrementalCheckReportDestInfo cfg then
      if cfg.ignoreExisting && dest.present then answered .skipped
      else decideCheck pr cfg rq dest
    else pure .error

end FastSync.IncrementalCheck
