import FastSync.SecureWalk
import FastSync.StoreInstall

/-!
# Installing a file below the root

The three ways a file gets to its destination path: written from received data,
copied from a basis file, or linked to one. The bytes of a write are the subject
of the store modules; here a write is one call on the open file, and what counts
is which names are made, moved and removed, and in which directories.
-/

set_option autoImplicit false

namespace FastSync.SaveEngines
open DeletePaths SystemCalls
open SecureWalk
open StoreInstall (tempName tempAttempts)

/-- `metadata` is the time of the received metadata, `times` says that it is
restored. -/
structure StoreOptions where
  inplace : Bool
  update : Bool
  noReplace : Bool
  keepPartial : Bool
  metadata : Option Time
  times : Bool
deriving DecidableEq, Repr

variable (pr : Process)

def restoredTime (o : StoreOptions) : Time := if o.times then o.metadata.getD pr.now else pr.now

def inodeData : Inode → Bytes
  | .file data _ => data
  | _ => []

def inodeTime : Inode → Time
  | .file _ mtime => mtime
  | _ => (0,0)

/-- Preparing the open file: reserving its blocks or its size. -/
def prepareFile (p : Position) : Sys Bool := do
  match ← change (fun fs => .ok ((), fs, [p])) with
  | .ok _ => pure true
  | .error _ => pure false

/-- Writes the data, the attributes and the buffers of the open file `i`. -/
def writeFile (i : ℕ) (p : Position) (data : Bytes) (mtime : Time) : Sys Bool := do
  match ← answer with
  | .pass => fun w =>
    (true, { w with fs := w.fs.fill i (.file data mtime), touched := ⟨p,false⟩::w.touched })
  | .refuse _ n => fun w =>
    let old := inodeData (w.fs.content i)
    (false, { w with
      fs := w.fs.fill i (.file (data.take n++old.drop n) pr.now)
      touched := ⟨p,false⟩::w.touched })

/-- The first component says whether the data were attempted at all. -/
def fillFile (i : ℕ) (p : Position) (data : Bytes) (o : StoreOptions) : Sys (Bool × Bool) := do
  if ← prepareFile p then
    let ok ← writeFile pr i p data (restoredTime pr o)
    pure (true, ok)
  else pure (false, false)

def fileTime (i : ℕ) : Sys Time := fun w => (inodeTime (w.fs.content i), w)

section Write

def writeInplace (o : StoreOptions) (d : Position) (leaf data : Bytes) : Sys Bool := do
  match ← change (openWrite d leaf pr.now) with
  | .error _ => pure false
  | .ok (i,p) =>
    let mtime ← fileTime i
    if o.update ∧ isNewer mtime o.metadata then pure true
    else
      let r ← fillFile pr i p data o
      pure r.2

/-- Only a regular file is written in place. -/
def storeInplace (o : StoreOptions) (d : Position) (leaf data : Bytes) : Sys Bool := do
  match ← statAt d leaf with
  | .ok (.inode _ (.file _ _)) => writeInplace pr o d leaf data
  | .ok _ => pure false
  | .error _ => writeInplace pr o d leaf data

/-- How a temporary became the destination; `crossDevice` asks for the write
beside the destination. -/
inductive Commit where
  | done
  | failed
  | crossDevice
deriving DecidableEq

def refusal (scratch : Option Position) (e : Errno) : Commit :=
  if scratch.isSome ∧ e = .xdev then .crossDevice else .failed

def dropTemporary (dir : Position) (name : Bytes) : Sys Commit := do
  match ← unlinkAt dir name with
  | .ok _ => pure .done
  | .error .noent => pure .done
  | .error _ => pure .failed

def commitTemporary (o : StoreOptions) (scratch : Option Position) (d : Position)
    (leaf name : Bytes) : Sys Commit := do
  let dir := scratch.getD d
  if o.noReplace then
    match ← linkAt dir name d leaf with
    | .ok _ => dropTemporary dir name
    | .error .exist => dropTemporary dir name
    | .error e => pure (refusal scratch e)
  else
    match ← renameAt dir name d leaf with
    | .ok _ => pure .done
    | .error e => pure (refusal scratch e)

/-- Clears the temporary of a failed write, or keeps it as the destination. -/
def discardTemporary (o : StoreOptions) (scratch : Option Position) (d : Position)
    (leaf name : Bytes) (attempted : Bool) : Sys Unit := do
  let dir := scratch.getD d
  if !o.keepPartial || !attempted || o.noReplace then
    let _ ← unlinkAt dir name
    pure ()
  else
    match ← renameAt dir name d leaf with
    | .ok _ => pure ()
    | .error _ =>
      let _ ← unlinkAt dir name
      pure ()

def storeTemporary (o : StoreOptions) (scratch : Option Position) (d : Position)
    (leaf name data : Bytes) (i : ℕ) (p : Position) : Sys Commit := do
  let r ← fillFile pr i p data o
  let c ← (if r.2 then commitTemporary o scratch d leaf name else pure .failed)
  if c = .done then pure .done
  else
    discardTemporary o scratch d leaf name r.1
    pure c

/-- Scratch names are numbered by the process, the others by the attempt. -/
def nextTempName (scratch : Option Position) (leaf : Bytes) (i : ℕ) : Sys Bytes := fun w =>
  match scratch with
  | some _ => (tempName leaf pr.pid w.sequence, { w with sequence := w.sequence+1 })
  | none => (tempName leaf pr.pid i, w)

def storeAttempts (o : StoreOptions) (scratch : Option Position) (d : Position)
    (leaf data : Bytes) : ℕ → ℕ → Sys Commit
  | 0, _ => pure .failed
  | left+1, i => do
    let name ← nextTempName pr scratch leaf i
    match ← createAt (.file [] pr.now) (scratch.getD d) name with
    | .ok (j,p) => storeTemporary pr o scratch d leaf name data j p
    | .error _ => storeAttempts o scratch d leaf data left (i+1)

def openScratch (tempDir : Option Bytes) : Sys (Except Errno (Option Position)) :=
  match tempDir with
  | none => pure (.ok none)
  | some path => do
    match ← fileOpenTempDir pr path with
    | .error e => pure (.error e)
    | .ok p => pure (.ok (some p))

/-- A regular destination that is newer than the received file. -/
def destinationNewer (o : StoreOptions) (update : Bool) (d : Position) (leaf : Bytes) :
    Sys Bool := do
  match ← statAt d leaf with
  | .ok (.inode _ (.file _ mtime)) => pure (update && isNewer mtime o.metadata)
  | _ => pure false

def storeBeside (o : StoreOptions) (tempDir : Option Bytes) (d : Position) (leaf data : Bytes) :
    Sys Commit := do
  if ← destinationNewer o o.update d leaf then pure .done
  else
    match ← openScratch pr tempDir with
    | .error _ => pure .failed
    | .ok scratch => storeAttempts pr o scratch d leaf data tempAttempts 0

def storeOnce (o : StoreOptions) (tempDir : Option Bytes) (path data : Bytes) : Sys Commit := do
  match ← fileOpenSecureParent pr path true with
  | .error _ => pure .failed
  | .ok (d,leaf) =>
    if o.inplace then
      if ← storeInplace pr o d leaf data then pure .done else pure .failed
    else storeBeside pr o tempDir d leaf data

def fileToDiskSecureImpl (o : StoreOptions) (tempDir : Option Bytes) (path data : Bytes) :
    Sys Bool := do
  match ← storeOnce pr o tempDir path data with
  | .done => pure true
  | .failed => pure false
  | .crossDevice =>
    let c ← storeOnce pr o none path data
    pure (decide (c = .done))

end Write

section Copy

def openBasis (basisPath : Bytes) : Sys (Option ℕ) := do
  match ← fileOpenSecureParent pr basisPath false with
  | .error _ => pure none
  | .ok (d,leaf) =>
    match ← statAt d leaf with
    | .ok (.inode i (.file _ _)) => pure (some i)
    | _ => pure none

/-- The next bytes of the source, when it still has that many. -/
def copyWindow (source : Bytes) (offset expected : ℕ) : Option Bytes :=
  if offset+expected ≤ source.length then some ((source.drop offset).take expected) else none

/-- A source that ends early leaves what it had in the temporary. -/
def copyFill (o : StoreOptions) (source : Bytes) (offset expected : ℕ) (i : ℕ) (p : Position) :
    Sys Bool :=
  match copyWindow source offset expected with
  | some data => do
    let r ← fillFile pr i p data o
    pure r.2
  | none => do
    let _ ← writeFile pr i p (source.drop offset) pr.now
    pure false

/-- The temporary gets the name of the destination, or goes. -/
def moveTemporary (ready : Bool) (dir d : Position) (leaf name : Bytes) : Sys Bool := do
  match ← (if ready then renameAt dir name d leaf else pure (.error .unset)) with
  | .ok _ => pure true
  | .error _ =>
    let _ ← unlinkAt dir name
    pure false

def copyTemporary (o : StoreOptions) (dir d : Position) (leaf name : Bytes) (source : Bytes)
    (offset expected : ℕ) (i : ℕ) (p : Position) : Sys Bool := do
  let wrote ← copyFill pr o source offset expected i p
  moveTemporary wrote dir d leaf name

/-- The attempts share one source descriptor, and its offset with it. -/
def copyAttempts (o : StoreOptions) (scratch : Option Position) (d : Position) (leaf : Bytes)
    (source : Bytes) (expected : ℕ) : ℕ → ℕ → ℕ → Sys Bool
  | 0, _, _ => pure false
  | left+1, i, offset => do
    let name ← nextTempName pr scratch leaf i
    match ← createAt (.file [] pr.now) (scratch.getD d) name with
    | .error .exist => copyAttempts o scratch d leaf source expected left (i+1) offset
    | .error _ => pure false
    | .ok (j,p) =>
      if ← copyTemporary pr o (scratch.getD d) d leaf name source offset expected j p then
        pure true
      else
        copyAttempts o scratch d leaf source expected left (i+1)
          (min source.length (offset+expected))

/-- How a copy ended: done, failed, or failed in a scratch directory. -/
def copyOnce (o : StoreOptions) (tempDir : Option Bytes) (path basisPath : Bytes)
    (expected : ℕ) : Sys Commit := do
  match ← fileOpenSecureParent pr path true with
  | .error _ => pure .failed
  | .ok (d,leaf) =>
    match ← openBasis pr basisPath with
    | none => pure .failed
    | some j =>
      if ← destinationNewer o o.update d leaf then pure .done
      else
        match ← openScratch pr tempDir with
        | .error _ => pure .failed
        | .ok scratch =>
          let source ← fun w => (inodeData (w.fs.content j), w)
          if ← copyAttempts pr o scratch d leaf source expected tempAttempts 0 0 then pure .done
          else pure (if scratch.isSome then .crossDevice else .failed)

/-- Callers never ask a copy to leave an existing destination. -/
def fileCopyBasisStreamImpl (o : StoreOptions) (tempDir : Option Bytes) (path basisPath : Bytes)
    (expected : ℕ) : Sys Bool := do
  match ← copyOnce pr o tempDir path basisPath expected with
  | .done => pure true
  | .failed => pure false
  | .crossDevice =>
    let c ← copyOnce pr o none path basisPath expected
    pure (decide (c = .done))

end Copy

section Link

/-- The basis gets a temporary name. -/
def linkAttempts (scratch : Option Position) (d : Position) (leaf : Bytes) (bd : Position)
    (bleaf : Bytes) : ℕ → ℕ → Sys (Option Bytes)
  | 0, _ => pure none
  | left+1, i => do
    let name ← nextTempName pr scratch leaf i
    match ← linkAt bd bleaf (scratch.getD d) name with
    | .ok _ => pure (some name)
    | .error .exist => linkAttempts scratch d leaf bd bleaf left (i+1)
    | .error _ => pure none

/-- Flushes the new link when that is asked for; an object that cannot be opened
that way is no failure. -/
def syncLink (useFsync : Bool) : Sys Bool :=
  if useFsync then do
    match ← answer with
    | .pass => pure true
    | .refuse e _ => pure (decide (e = .nxio))
  else pure true

def linkTemporary (useFsync : Bool) (dir d : Position) (leaf name : Bytes) : Sys Bool := do
  let synced ← syncLink useFsync
  moveTemporary synced dir d leaf name

def linkBasis (useFsync : Bool) (scratch : Option Position) (d : Position) (leaf : Bytes)
    (basisPath : Bytes) : Sys Bool := do
  match ← fileOpenSecureParent pr basisPath false with
  | .error _ => pure false
  | .ok (bd,bleaf) =>
    match ← linkAttempts pr scratch d leaf bd bleaf tempAttempts 0 with
    | none => pure false
    | some name => linkTemporary useFsync (scratch.getD d) d leaf name

/-- The basis is linked in, else copied, else the caller's data are written. -/
def fileToDiskSecureLinkImpl (o : StoreOptions) (useFsync : Bool) (tempDir : Option Bytes)
    (path basisPath data : Bytes) (size : ℕ) : Sys Bool := do
  match ← fileOpenSecureParent pr path true with
  | .error _ => pure false
  | .ok (d,leaf) =>
    match ← openScratch pr tempDir with
    | .error _ => pure false
    | .ok scratch =>
      if ← linkBasis pr useFsync scratch d leaf basisPath then pure true
      else
        let plain : StoreOptions := { o with inplace := false, update := false,
                                             noReplace := false, keepPartial := false }
        if ← fileCopyBasisStreamImpl pr plain tempDir path basisPath size then pure true
        else fileToDiskSecureImpl pr plain tempDir path data

end Link

end FastSync.SaveEngines
