import FastSync.DelayUpdates
import FastSync.ReceiverQueue

/-!
# Saving a received entry

One received entry is a regular file, a directory, a directory-time record, a
symbolic link, a special node or a later member of a hard-link group. Each kind
has its own way to the disk with its own order of checks.
-/

set_option autoImplicit false

namespace FastSync.SaveEntry
open DeletePaths SystemCalls
open SecureWalk SaveEngines DelayUpdates
open ReceiverQueue (maxReceiveWholeFileSize)

/-- `format` is the kind of node the mode bits name, when it is a special one. -/
structure Metadata where
  format : Option Special
  mode : ℕ
  mtime : Time
  atimeValid : Bool
deriving DecidableEq, Repr

/-- A received entry. `data` is `none` when only the size is reserved, and
`xattrs` is the number of attributes to set. -/
structure File where
  path : Bytes
  data : Option Bytes
  size : ℕ
  metadata : Option Metadata
  xattrs : Option ℕ
  isDir : Bool
  dirTimeOnly : Bool
  isSymlink : Bool
  symlinkTarget : Option Bytes
  isSpecial : Bool
  rdevMajor : ℤ
  rdevMinor : ℤ
  linkGroup : ℤ
  linkFirst : Bool
  hardlinkTarget : Option Bytes
  basisLink : Option Bytes
  basisCopy : Option Bytes
deriving DecidableEq, Repr

inductive FileSaveResult where
  | written
  | skipped
  | failed
  | error
deriving DecidableEq, Repr

def savedWhen (ok : Bool) : FileSaveResult := if ok then .written else .error

variable (pr : Process) (cfg : Config) (root : Bytes) (file : File)

def mtime? : Option Time := file.metadata.map Metadata.mtime

/-- `--chmod` on the received mode. -/
def chmodApply : Bool :=
  match file.metadata, cfg.chmodSpec with
  | some m, some spec => (spec m.mode).isSome
  | _, _ => true

/-- Sets attributes one by one; failures are only logged. -/
def xattrApply (set : Sys (Except Errno Unit)) : ℕ → Sys Unit
  | 0 => pure ()
  | n+1 => do
    let _ ← set
    xattrApply set n

section Policies

def missesExisting (path : Bytes) : Sys Bool :=
  if cfg.existing then do pure !(← filePathExistsSecure pr path) else pure false

def meetsExisting (path : Bytes) : Sys Bool :=
  if cfg.ignoreExisting then filePathExistsSecure pr path else pure false

def meetsNewer (path : Bytes) : Sys Bool :=
  if cfg.update then fileDestinationIsNewerSecure pr path (mtime? file) else pure false

/-- `--existing`, `--ignore-existing` and `--update`, in this order. -/
def policySkips (path : Bytes) (updatePath : Bytes) : Sys Bool := do
  if ← missesExisting pr cfg path then pure true
  else if ← meetsExisting pr cfg path then pure true
  else meetsNewer pr cfg file updatePath

end Policies

section Special

def fileSpecialRdevValid (major minor : ℤ) (kind : Special) : Bool :=
  match kind with
  | .char | .block =>
    decide (0 ≤ major ∧ 0 ≤ minor ∧ major ≤ 0xffff ∧ minor ≤ 0xffffff)
  | .fifo | .socket => decide (major = 0 ∧ minor = 0)

def isDevice : Special → Bool
  | .char | .block => true
  | .fifo | .socket => false

def specialWanted (kind : Special) : Bool :=
  if isDevice kind then cfg.preserveDevices && cfg.superPermitted else cfg.preserveSpecials

def finishSpecial (d : Position) (leaf : Bytes) (m : Metadata) : Sys FileSaveResult := do
  let _ ← (if cfg.preserveTimes || (cfg.preserveAtimes && m.atimeValid) then attributeAt d leaf
    else pure (.ok ()))
  let owned ← (if pr.identity.active then identityApplyOwnershipLink pr d leaf else pure true)
  pure (savedWhen owned)

def makeSpecial (d : Position) (leaf : Bytes) (m : Metadata) (kind : Special) :
    Sys FileSaveResult := do
  match ← createAt (.special kind) d leaf with
  | .ok _ => finishSpecial pr cfg d leaf m
  | .error .exist =>
    -- the node that is already there is only looked at for the log
    let _ ← statAt d leaf
    pure .skipped
  | .error e =>
    pure (if (e = .perm ∨ e = .acces) ∧ isDevice kind then .failed else .skipped)

/-- The parent is opened, and made, before the existence policies are asked. -/
def placeSpecial (m : Metadata) (kind : Special) : Sys FileSaveResult := do
  match ← fileOpenSecureParent pr (pathCat root file.path) true with
  | .error _ => pure .error
  | .ok (d,leaf) =>
    if ← policySkips pr cfg file (pathCat root file.path) (pathCat root file.path) then
      pure .skipped
    else makeSpecial pr cfg d leaf m kind

def fileSaveSpecialToDisk : Sys FileSaveResult :=
  if file.path = [] ∨ pr.trustSender = false ∧ hasPathTraversal file.path = true then pure .error
  else
    match file.metadata with
    | none => pure .error
    | some m =>
      match m.format with
      | none => pure .error
      | some kind =>
        if !specialWanted cfg kind then pure .skipped
        else if !fileSpecialRdevValid file.rdevMajor file.rdevMinor kind then pure .error
        else placeSpecial pr cfg root file m kind

def fileSaveWriteDevice : Sys FileSaveResult :=
  if file.path = [] ∨ pr.trustSender = false ∧ hasPathTraversal file.path = true then pure .error
  else do
    match ← fileOpenSecureParent pr (pathCat root file.path) false with
    | .error _ => pure .skipped
    | .ok (d,leaf) =>
      match ← statAt d leaf with
      | .ok (.inode _ (.special kind)) =>
        if isDevice kind then
          match ← attributeAt d leaf with
          | .ok _ => pure .written
          | .error _ => pure .skipped
        else pure .skipped
      | _ => pure .skipped

/-- `none` when the entry takes the way of a regular file. -/
def fileSaveTrySpecialDispatch : Option (Sys FileSaveResult) :=
  if file.isSpecial then
    if cfg.fakeSuper && (file.metadata.bind Metadata.format).any isDevice then none
    else some (fileSaveSpecialToDisk pr cfg root file)
  else if cfg.writeDevices then
    if !cfg.superPermitted then some (pure .skipped)
    else some (fileSaveWriteDevice pr root file)
  else none

end Special

section Directory

def directoryOwner (parent : Except Errno (Position × Bytes)) : Sys Bool :=
  if file.metadata.isSome ∧ pr.identity.active then
    match parent with
    | .ok (d,leaf) => identityApplyOwnershipLink pr d leaf
    | .error _ => pure (!pr.identity.copyAs)
  else pure (!pr.identity.copyAs)

def directoryXattrs (dir : Except Errno Position) : Sys Unit :=
  match dir, file.xattrs with
  | .ok p, some n => if cfg.useXattrs then xattrApply (attributeFd p) n else pure ()
  | _, _ => pure ()

def directoryTimes (parent : Except Errno (Position × Bytes)) : Sys Unit :=
  match parent with
  | .ok (d,leaf) =>
    if file.metadata.isSome ∧ cfg.preserveTimes ∧ !cfg.omitDirTimes then do
      let _ ← attributeAt d leaf
      pure ()
    else pure ()
  | .error _ => pure ()

def openDirectory (parent : Except Errno (Position × Bytes)) : Sys (Except Errno Position) :=
  match parent with
  | .ok (d,leaf) => openDirAt d leaf
  | .error e => pure (.error e)

def finishDirectory (dirPath : Bytes) : Sys FileSaveResult := do
  let parent ← fileOpenSecureParent pr dirPath false
  let dir ← openDirectory parent
  if ← directoryOwner pr file parent then
    directoryXattrs cfg file dir
    directoryTimes cfg file parent
    pure .written
  else pure .error

def fileSaveDirectoryToDisk : Sys FileSaveResult :=
  if file.path = [] ∨ pr.trustSender = false ∧ hasPathTraversal file.path = true then pure .error
  else do
    if ← fileEnsureDirectorySecure pr (pathCat root file.path) then
      finishDirectory pr cfg file (pathCat root file.path)
    else pure .error

end Directory

section Symlink

def symlinkMungePrefix : Bytes := [47,114,115,121,110,99,100,45,109,117,110,103,101,100,47]

def fileRestoreSymlinkMetadata (path : Bytes) : Sys Bool :=
  match file.metadata with
  | none => pure (!pr.identity.copyAs)
  | some m => do
    match ← fileOpenSecureParent pr path false with
    | .error _ => pure (!pr.identity.copyAs)
    | .ok (d,leaf) =>
      let owned ← identityApplyOwnershipLink pr d leaf
      let _ ← (if cfg.preservePerms then attributeAt d leaf else pure (.ok ()))
      let _ ← (if !cfg.omitLinkTimes && (cfg.preserveTimes || (cfg.preserveAtimes && m.atimeValid))
        then attributeAt d leaf else pure (.ok ()))
      pure owned

def symlinkXattrs (path : Bytes) : Sys Unit :=
  match file.xattrs with
  | some (n+1) =>
    if cfg.useXattrs then do
      match ← fileOpenSecureParent pr path false with
      | .error _ => pure ()
      | .ok (d,leaf) => if leaf = [] then pure () else xattrApply (attributeAt d leaf) (n+1)
    else pure ()
  | _ => pure ()

def placeSymlink (linkPath target : Bytes) : Sys FileSaveResult := do
  if ← fileEnsureDirectorySecure pr (dirname linkPath) then
    if ← fileSymlinkAtSecure pr linkPath target then
      if ← (if cfg.useMetadata then fileRestoreSymlinkMetadata pr cfg file linkPath
          else pure true) then
        symlinkXattrs pr cfg file linkPath
        pure .written
      else pure .error
    else pure .error
  else pure .error

def fileSaveSymlinkToDisk : Sys FileSaveResult :=
  match file.symlinkTarget with
  | none => pure .error
  | some target =>
    if file.path = [] ∨ pr.trustSender = false ∧ hasPathTraversal file.path = true then pure .error
    else
      placeSymlink pr cfg file (pathCat root file.path)
        (if cfg.mungeLinks then symlinkMungePrefix++target else target)

end Symlink

section Sibling

/-- Reads a whole regular file; the flag says that the path was absent. -/
def hardlinkReadSource (path : Bytes) : Sys (Except Bool Bytes) := do
  match ← fileOpenSecureParent pr path false with
  | .error e => pure (.error (decide (e = .noent ∨ e = .notdir)))
  | .ok (d,leaf) =>
    match ← statAt d leaf with
    | .error e => pure (.error (decide (e = .noent ∨ e = .notdir)))
    | .ok (.inode _ (.file data _)) =>
      if maxReceiveWholeFileSize < data.length then pure (.error false) else pure (.ok data)
    | .ok _ => pure (.error false)

def hardlinkSiblingAbsentFirst (destination : Bytes) : Sys FileSaveResult := do
  if ← filePathExistsSecure pr destination then pure .skipped else pure .error

def siblingOptions : StoreOptions where
  inplace := false
  update := false
  noReplace := false
  keepPartial := false
  metadata := mtime? file
  times := cfg.preserveTimes

/-- The sibling is linked to the first member in the staging tree; when that or
the record of it fails, what stands at its staged path is unlinked by path. -/
def stageSibling (target : Bytes) : Sys FileSaveResult := do
  let destination := pathCat root file.path
  let context ← delayContext
  if ← delayUpdatesPrepare pr root context then
    let stagedFirst := pathCat (stagingRoot root) target
    let stagedSibling := pathCat (stagingRoot root) file.path
    match ← hardlinkReadSource pr stagedFirst with
    | .error absent =>
      if absent then hardlinkSiblingAbsentFirst pr destination else pure .error
    | .ok data =>
      if ← fileToDiskSecureLinkImpl pr (siblingOptions cfg file) cfg.useFsync none stagedSibling
          stagedFirst data data.length then
        if ← delayUpdatesRecord ⟨stagedSibling,destination,file.path⟩ then pure .written
        else
          let _ ← changePath (unlinkPath stagedSibling)
          pure .error
      else
        let _ ← changePath (unlinkPath stagedSibling)
        pure .error
  else pure .error

/-- A relative scratch directory lies below the root; an absolute one is resolved
and has to. -/
def fileSaveResolveTempDir (tempDir : Bytes) : Sys (Option Bytes) :=
  if tempDir.head? ≠ some slash then
    if hasPathTraversal tempDir then pure none else pure (some (pathCat root tempDir))
  else do
    match ← query (realpath tempDir) with
    | .error _ => pure none
    | .ok canonicalTemp =>
      match ← query (realpath root) with
      | .error _ => pure none
      | .ok canonicalRoot =>
        if absPath canonicalRoot ≠ [slash] ∧
            pathIsWithinRoot (absPath canonicalRoot) (absPath canonicalTemp) = false then pure none
        else pure (some (absPath canonicalTemp))

/-- The scratch directory, when one is set; the outer `none` is a refusal. -/
def resolveTempDir? : Sys (Option (Option Bytes)) :=
  match cfg.tempDir with
  | none => pure (some none)
  | some dir => do
    match ← fileSaveResolveTempDir root dir with
    | none => pure none
    | some path => pure (some (some path))

def linkSibling (target : Bytes) : Sys FileSaveResult := do
  let destination := pathCat root file.path
  let first := pathCat root target
  match ← hardlinkReadSource pr first with
  | .error absent => if absent then hardlinkSiblingAbsentFirst pr destination else pure .error
  | .ok data =>
    match ← resolveTempDir? cfg root with
    | none => pure .error
    | some tempDir =>
      let ok ← fileToDiskSecureLinkImpl pr (siblingOptions cfg file) cfg.useFsync tempDir
        destination first data data.length
      pure (savedWhen ok)

def fileSaveHardlinkSibling (target : Bytes) : Sys FileSaveResult := do
  if ← policySkips pr cfg file (pathCat root file.path) (pathCat root file.path) then pure .skipped
  else if cfg.delayUpdates then stageSibling pr cfg root file target
  else linkSibling pr cfg root file target

end Sibling

section Regular

def fileSaveValidate : Bool :=
  (decide (file.size = 0) || file.data.isSome || file.basisLink.isSome || file.basisCopy.isSome) &&
  (pr.trustSender || !hasPathTraversal file.path) &&
  (!backupEnabled cfg ||
    decide (backupSuffix cfg ≠ [] ∧ slash ∉ backupSuffix cfg ∧ backupSuffix cfg ≠ [dot] ∧
      backupSuffix cfg ≠ [dot,dot]))

def regularOptions (inplace update noReplace keepPartial : Bool) : StoreOptions where
  inplace := inplace
  update := update
  noReplace := noReplace
  keepPartial := keepPartial
  metadata := mtime? file
  times := cfg.preserveTimes

def stageData (stagedPath : Bytes) : Sys Bool :=
  match file.basisLink, file.basisCopy with
  | some basis, _ =>
    fileToDiskSecureLinkImpl pr (regularOptions cfg file false false false false) cfg.useFsync none
      stagedPath basis (file.data.getD []) file.size
  | none, some basis =>
    fileCopyBasisStreamImpl pr (regularOptions cfg file false cfg.update false false) none
      stagedPath basis file.size
  | none, none =>
    fileToDiskSecureImpl pr (regularOptions cfg file false false false false) none stagedPath
      (file.data.getD [])

def fileStageDelayedUpdate (destination : Bytes) : Sys FileSaveResult := do
  if ← policySkips pr cfg file destination destination then pure .skipped
  else if !chmodApply cfg file then pure .error
  else
    let context ← delayContext
    if ← delayUpdatesPrepare pr root context then
      let stagedPath := pathCat (stagingRoot root) file.path
      if ← stageData pr cfg file stagedPath then
        if ← delayUpdatesRecord ⟨stagedPath,destination,file.path⟩ then pure .written
        else
          let _ ← changePath (unlinkPath stagedPath)
          pure .error
      else pure .error
    else pure .error

def usePartialRoot : Bool := cfg.partialDir.isSome && cfg.keepPartial

/-- Options of the client that would leave the root. -/
def escapingOption (dir : Option Bytes) : Bool :=
  dir.any fun d => decide (d.head? = some slash) || hasPathTraversal d

def actualRoot : Bytes :=
  match cfg.partialDir with
  | some dir => if cfg.keepPartial then pathCat root dir else root
  | none => root

def diskPath : Bytes := pathCat (actualRoot cfg root) file.path

def replaceTarget : Bytes :=
  if usePartialRoot cfg then pathCat root file.path else diskPath cfg root file

def stripTrailingSlashes (path : Bytes) : Bytes := normalizeDirectoryPath path

/-- The scratch directory the write uses; an in-place write and a partial
directory do without one. -/
def scratchDir (tempDir : Option Bytes) : Option Bytes :=
  if cfg.inplace || usePartialRoot cfg then none else tempDir.map stripTrailingSlashes

def fileSaveInstallData (tempDir : Option Bytes) : Sys Bool :=
  match file.basisLink, file.basisCopy with
  | some basis, _ =>
    fileToDiskSecureLinkImpl pr (regularOptions cfg file false false false false) cfg.useFsync
      tempDir (diskPath cfg root file) basis (file.data.getD []) file.size
  | none, some basis =>
    fileCopyBasisStreamImpl pr (regularOptions cfg file false cfg.update false false) tempDir
      (diskPath cfg root file) basis file.size
  | none, none =>
    fileToDiskSecureImpl pr
      (regularOptions cfg file cfg.inplace cfg.update cfg.ignoreExisting cfg.keepPartial) tempDir
      (diskPath cfg root file) (file.data.getD [])

/-- `--force` and `--backup`, once the policies let the entry pass. -/
def makeWay : Sys Bool := do
  if ← (if file.isDir then pure true else clearDirectory pr cfg (pathCat root file.path)) then
    if backupEnabled cfg then backUp pr cfg root (replaceTarget cfg root file) file.path
    else pure true
  else pure false

def installRegular (tempDir : Option Bytes) : Sys FileSaveResult := do
  if !chmodApply cfg file then pure .error
  else if ← fileSaveInstallData pr cfg root file (scratchDir cfg tempDir) then
    if usePartialRoot cfg then
      let ok ← fileRenameSecure pr (diskPath cfg root file) (pathCat root file.path)
      pure (savedWhen ok)
    else pure .written
  else pure .error

def saveNow (tempDir : Option Bytes) : Sys FileSaveResult := do
  if ← policySkips pr cfg file (pathCat root file.path) (replaceTarget cfg root file) then
    pure .skipped
  else if ← makeWay pr cfg root file then installRegular pr cfg root file tempDir
  else pure .error

def saveRegular : Sys FileSaveResult :=
  if escapingOption cfg.backupDir || escapingOption cfg.partialDir then pure .error
  else do
    match ← resolveTempDir? cfg root with
    | none => pure .error
    | some tempDir =>
      if cfg.delayUpdates then fileStageDelayedUpdate pr cfg root file (pathCat root file.path)
      else saveNow pr cfg root file tempDir

end Regular

def saveByKind : Sys FileSaveResult :=
  if file.isDir then fileSaveDirectoryToDisk pr cfg root file
  else if file.isSymlink then fileSaveSymlinkToDisk pr cfg root file
  else if file.linkGroup ≠ 0 ∧ !file.linkFirst then
    match file.hardlinkTarget with
    | some target => fileSaveHardlinkSibling pr cfg root file target
    | none => saveRegular pr cfg root file
  else saveRegular pr cfg root file

def fileSaveToDiskFullEx : Sys FileSaveResult :=
  if cfg.dryRun then pure .skipped
  else if !fileSaveValidate pr cfg file then pure .error
  else if file.dirTimeOnly then pure .skipped
  else
    match fileSaveTrySpecialDispatch pr cfg root file with
    | some special => special
    | none => saveByKind pr cfg root file

section DirectoryTimes

/-- One record of a directory whose attributes are set at the end. -/
structure DirTime where
  path : Bytes
  mode : ℕ
  xattrs : Option ℕ
deriving DecidableEq, Repr

def applyDirMode (entry : DirTime) (dir : Except Errno Position) : Sys Unit :=
  match dir with
  | .error _ => pure ()
  | .ok p =>
    if cfg.preservePerms ∧ (cfg.chmodSpec.all fun spec => (spec entry.mode).isSome) then do
      let _ ← attributeFd p
      pure ()
    else pure ()

def applyDirXattrs (entry : DirTime) (dir : Except Errno Position) : Sys Unit :=
  match dir, entry.xattrs with
  | .ok p, some n => if cfg.useXattrs then xattrApply (attributeFd p) n else pure ()
  | _, _ => pure ()

def applyDirOwner (dir : Except Errno Position) : Sys Unit :=
  match dir with
  | .error _ => pure ()
  | .ok p => do
    let _ ← identityApplyOwnership pr p
    pure ()

def applyDirTime (entry : DirTime) : Sys Unit := do
  match ← fileOpenSecureParent pr (pathCat root entry.path) false with
  | .error _ => pure ()
  | .ok (d,leaf) =>
    match ← statAt d leaf with
    | .ok .dir =>
      let dir ← openDirAt d leaf
      applyDirOwner pr dir
      let _ ← (if cfg.preserveTimes && !cfg.omitDirTimes then attributeAt d leaf else pure (.ok ()))
      applyDirMode cfg entry dir
      applyDirXattrs cfg entry dir
    | _ => pure ()

def applyDirTimes : List DirTime → Sys Unit
  | [] => pure ()
  | entry::entries => do
    applyDirTime pr cfg root entry
    applyDirTimes entries

def dirMetadataListApply (entries : List DirTime) : Sys Unit :=
  if (cfg.preserveTimes && !cfg.omitDirTimes) || cfg.preservePerms || cfg.useXattrs ||
      pr.identity.active then applyDirTimes pr cfg root entries
  else pure ()

end DirectoryTimes

end FastSync.SaveEntry
