import FastSync.DeleteCommit
import FastSync.SaveEngines

/-!
# Delayed updates

With `--delay-updates` a file is installed in a staging tree below the receive
root and its destination is remembered. When the transfer is complete the staged
files are renamed to their destinations in order, and the staging tree goes.
-/

set_option autoImplicit false

namespace FastSync.DelayUpdates
open DeletePaths SystemCalls
open SecureWalk
open DeleteCommit (delayUpdatesStagingDir)

/-- The settings that decide what a received entry may do. A missing option is
`none`. -/
structure Config where
  existing : Bool
  ignoreExisting : Bool
  update : Bool
  backup : Bool
  suffix : Option Bytes
  backupDir : Option Bytes
  inplace : Bool
  keepPartial : Bool
  partialDir : Option Bytes
  tempDir : Option Bytes
  forceDelete : Bool
  delayUpdates : Bool
  writeDevices : Bool
  fakeSuper : Bool
  useXattrs : Bool
  useMetadata : Bool
  preserveTimes : Bool
  preserveAtimes : Bool
  preservePerms : Bool
  omitDirTimes : Bool
  omitLinkTimes : Bool
  preserveDevices : Bool
  preserveSpecials : Bool
  superPermitted : Bool
  mungeLinks : Bool
  useFsync : Bool
  dryRun : Bool
  chmodSpec : Option (ℕ → Option ℕ)

variable (pr : Process) (cfg : Config) (root : Bytes)

def stagingRoot : Bytes := pathCat root delayUpdatesStagingDir

def backupEnabled : Bool := cfg.backup && !cfg.ignoreExisting

def backupSuffix : Bytes := cfg.suffix.getD [126]

def setContext (context : DelayUpdatesContext) : Sys Unit :=
  fun w => ((), { w with delayContext := some context })

/-- Opens, locks and empties the staging directory, once in a session. -/
def delayUpdatesPrepare (context : DelayUpdatesContext) : Sys Bool :=
  if context.prepared then pure true
  else do
    match ← fileOpenPrivateDir pr (stagingRoot root) with
    | .error _ => pure false
    | .ok fd =>
      match ← answer with
      | .refuse _ _ => pure false
      | .pass =>
        if ← wipeDir fd then
          setContext { context with prepared := true }
          pure true
        else pure false

def delayContext : Sys DelayUpdatesContext := fun w =>
  match w.delayContext with
  | some context => (context, w)
  | none => (⟨false,[]⟩, { w with delayContext := some ⟨false,[]⟩ })

def delayUpdatesRecord (entry : StagedFileEntry) : Sys Bool := do
  match ← answer with
  | .refuse _ _ => pure false
  | .pass => fun w =>
    match w.delayContext with
    | none => (false, w)
    | some context =>
      (true, { w with delayContext := some { context with entries := context.entries++[entry] } })

def backupPath (replaced path : Bytes) : Bytes :=
  match cfg.backupDir with
  | some dir => pathCat (pathCat root dir) path
  | none => replaced++backupSuffix cfg

def backUp (replaced path : Bytes) : Sys Bool := do
  match ← fileStatSecure pr replaced with
  | none => pure true
  | some _ =>
    if ← fileEnsureDirectorySecure pr (dirname (backupPath cfg root replaced path)) then
      fileRenameSecure pr replaced (backupPath cfg root replaced path)
    else pure false

def delayPublishBackup (entry : StagedFileEntry) : Sys Bool :=
  if backupEnabled cfg then backUp pr cfg root entry.finalPath entry.filePath else pure true

/-- `--force`: a directory in the place of a file goes with its content. -/
def clearDirectory (path : Bytes) : Sys Bool :=
  if cfg.forceDelete then do
    if ← fileDirectoryExistsSecure pr path then fileRemoveTreeSecure pr path else pure true
  else pure true

def delayPublishEntry (entry : StagedFileEntry) : Sys Bool := do
  if ← delayPublishBackup pr cfg root entry then
    if ← clearDirectory pr cfg entry.finalPath then
      fileRenameSecure pr entry.stagedPath entry.finalPath
    else pure false
  else pure false

def delayUpdatesRemoveStagingTree : Sys Bool := do
  match ← query (openPathNoFollow (stagingRoot root)) with
  | .error e => pure (decide (e = .noent))
  | .ok fd =>
    if ← wipeDir fd then
      match ← changePath (rmdirPath (stagingRoot root)) with
      | .ok _ => pure true
      | .error e => pure (decide (e = .noent))
    else pure false

def publishEntries : List StagedFileEntry → Sys Bool
  | [] => pure true
  | entry::entries => do
    if ← delayPublishEntry pr cfg root entry then publishEntries entries else pure false

/-- Whatever the outcome, the staging tree is removed. -/
def delayUpdatesPublish : Sys Bool := do
  let context ← delayContext
  let ok ← publishEntries pr cfg root context.entries
  let _ ← delayUpdatesRemoveStagingTree root
  pure ok

end FastSync.DelayUpdates
