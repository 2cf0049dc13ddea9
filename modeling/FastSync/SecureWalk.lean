import FastSync.SystemCalls
import Mathlib.Data.List.DropRight

/-!
# Confined access below the authorized root

The receiver opens the parent of a path component by component from the
descriptor of the authorized root, without following links and without passing
through `..`, and works on the last component from there. With `--keep-dirlinks`
a component that is a link to a directory below the root stands for that
directory, which is opened by a second walk from the root.
-/

set_option autoImplicit false

namespace FastSync.SecureWalk
open DeletePaths SystemCalls

section Paths

/-- The components `strtok_r` finds between slashes. -/
def strtok (path : Bytes) : List Bytes := (components path).filter fun c => c ≠ []

def leafName (path : Bytes) : Bytes := (components path).getLast components_ne_nil

def dirname (path : Bytes) : Bytes :=
  let stripped := path.rdropWhile (· = slash)
  if stripped = [] then if path = [] then [dot] else [slash]
  else
    let parent := stripped.rdropWhile (· ≠ slash)
    if parent = [] then [dot]
    else if parent.rdropWhile (· = slash) = [] then [slash]
    else parent.rdropWhile (· = slash)

def pathIsWithinRoot (root path : Bytes) : Bool :=
  root.isPrefixOf path &&
    (match path.drop root.length with
      | [] => true
      | b::_ => decide (b = slash))

def absPath (p : Position) : Bytes := slash::relPath p

def normalizeDirectoryPath (path : Bytes) : Bytes :=
  if path.rdropWhile (· = slash) = [] then path.take 1 else path.rdropWhile (· = slash)

end Paths

/-- The ownership policy of the connection. `changes` tells whether the owner of
an object differs from the one the policy asks for. -/
structure Identity where
  active : Bool
  fakeSuper : Bool
  superPermitted : Bool
  copyAs : Bool
  changes : Position → Bool

/-- The settings of the receiving process. A local batch has no authorized root. -/
structure Process where
  authorizedRoot : Option Position
  cwd : Position
  keepDirlinks : Bool
  trustSender : Bool
  pid : ℕ
  now : Time
  identity : Identity

variable (pr : Process)

/-- A failed `chown` only counts when `--copy-as` requires it. -/
def identityApplyOwnershipLink (d : Position) (c : Bytes) : Sys Bool :=
  if !pr.identity.active || pr.identity.fakeSuper || !pr.identity.superPermitted then pure true
  else do
    match ← statAt d c with
    | .error _ => pure (!pr.identity.copyAs)
    | .ok _ =>
      if !((locate d c).any pr.identity.changes) then pure true
      else
        match ← attributeAt d c with
        | .error _ => pure (!pr.identity.copyAs)
        | .ok _ => pure true

def identityApplyOwnership (p : Position) : Sys Bool :=
  if !pr.identity.active || pr.identity.fakeSuper || !pr.identity.superPermitted then pure true
  else if !pr.identity.changes p then pure true
  else do
    match ← attributeFd p with
    | .error _ => pure (!pr.identity.copyAs)
    | .ok _ => pure true

section Walk

def openBeneath : Position → List Name → Sys (Except Errno Position)
  | fd, [] => pure (.ok fd)
  | fd, n::ns => do
    match ← openDirAt fd n.1 with
    | .error e => pure (.error e)
    | .ok next => openBeneath next ns

/-- `resolved` is canonical and was found to lie below `root`; the walk starts
again at the descriptor of the authorized root. -/
def openDirBeneathRoot (rootFd : Position) (resolved root : Position) :
    Sys (Except Errno Position) :=
  if resolved.drop root.length = [] then pure (.error .unset)
  else openBeneath rootFd (resolved.drop root.length)

/-- `--keep-dirlinks`: a link to a directory below the root. -/
def followDirlink (root fd : Position) (relBuf component : Bytes) (e : Errno) :
    Sys (Except Errno Position) := do
  match ← statAt fd component with
  | .ok (.inode _ (.link _)) =>
    match ← query (realpath (absPath root)) with
    | .error e' => pure (.error e')
    | .ok real =>
      match ← query (realpath (absPath real++relBuf++slash::component)) with
      | .error e' => pure (.error e')
      | .ok resolved =>
        if resolved ≠ real ∧ real ≠ [] ∧ real <+: resolved then
          match ← query (fun fs => .ok (fs.lstat resolved)) with
          | .ok (some .dir) => openDirBeneathRoot root resolved real
          | .ok _ => pure (.error e)
          | .error e' => pure (.error e')
        else pure (.error e)
  | .ok _ => pure (.error e)
  | .error e' => pure (.error e')

/-- How the attempt to open one component ended; an abort skips the link test. -/
inductive Attempt where
  | opened (p : Position)
  | failed (e : Errno)
  | abort (e : Errno)
deriving DecidableEq

def reopen (fd : Position) (component : Bytes) : Sys Attempt := do
  match ← openDirAt fd component with
  | .ok p => pure (.opened p)
  | .error e => pure (.failed e)

/-- A new component is owned when `--copy-as` says so. -/
def ownComponent (fd : Position) (component : Bytes) : Sys Attempt :=
  if pr.identity.copyAs then do
    if ← identityApplyOwnershipLink pr fd component then reopen fd component
    else pure (.abort .perm)
  else reopen fd component

def makeComponent (fd : Position) (component : Bytes) : Sys Attempt := do
  match ← mkdirAt fd component with
  | .ok _ => ownComponent pr fd component
  | .error .exist => reopen fd component
  | .error e => pure (.failed e)

def tryComponent (createDirs : Bool) (fd : Position) (component : Bytes) : Sys Attempt := do
  match ← openDirAt fd component with
  | .ok p => pure (.opened p)
  | .error e =>
    if createDirs ∧ e = .noent then makeComponent pr fd component else pure (.failed e)

/-- What is made of an attempt; a failed one may still be a link to follow. -/
def settleComponent (fd : Position) (relBuf component : Bytes) :
    Attempt → Sys (Except Errno Position)
  | .opened p => pure (.ok p)
  | .abort e => pure (.error e)
  | .failed e =>
    match pr.authorizedRoot with
    | none => pure (.error e)
    | some root =>
      if pr.keepDirlinks ∧ (e = .loop ∨ e = .notdir ∨ e = .acces) then
        followDirlink root fd relBuf component e
      else pure (.error e)

def openComponent (createDirs : Bool) (fd : Position) (relBuf component : Bytes) :
    Sys (Except Errno Position) := do
  let attempt ← tryComponent pr createDirs fd component
  settleComponent pr fd relBuf component attempt

def walkParent (createDirs : Bool) :
    List Bytes → Position → Bytes → Sys (Except Errno Position)
  | [], fd, _ => pure (.ok fd)
  | c::cs, fd, relBuf =>
    if c = [dot,dot] then pure (.error .unset)
    else if c = [dot] then walkParent createDirs cs fd relBuf
    else do
      match ← openComponent pr createDirs fd relBuf c with
      | .error e => pure (.error e)
      | .ok next => walkParent createDirs cs next (relBuf++slash::c)

/-- The directory a walk ends in, with the last component of the path. -/
def walkTo (createDirs : Bool) (cs : List Bytes) (fd : Position) (leaf : Bytes) :
    Sys (Except Errno (Position × Bytes)) := do
  match ← walkParent pr createDirs cs fd [] with
  | .error e => pure (.error e)
  | .ok fd => pure (.ok (fd, leaf))

def fileOpenSecureParent (path : Bytes) (createDirs : Bool) :
    Sys (Except Errno (Position × Bytes)) :=
  match pr.authorizedRoot with
  | some root =>
    if path.head? ≠ some slash ∨ pathIsWithinRoot (absPath root) path = false then
      pure (.error .unset)
    else
      walkTo pr createDirs (strtok (dirname (path.drop (absPath root).length))) root (leafName path)
  | none => do
    match ← openDirAt (if (dirname path).head? = some slash then [] else pr.cwd) [dot] with
    | .error e => pure (.error e)
    | .ok fd => walkTo pr createDirs (strtok (dirname path)) fd (leafName path)

end Walk

section Probes

def statSecure (path : Bytes) : Sys (Except Errno Stat) := do
  match ← fileOpenSecureParent pr path false with
  | .error e => pure (.error e)
  | .ok (d,leaf) => statAt d leaf

def filePathExistsSecure (path : Bytes) : Sys Bool := do
  match ← statSecure pr path with
  | .ok _ => pure true
  | .error _ => pure false

def fileStatSecure (path : Bytes) : Sys (Option Time) := do
  match ← statSecure pr path with
  | .ok (.inode _ (.file _ mtime)) => pure (some mtime)
  | _ => pure none

def isNewer (mtime : Time) (metadata : Option Time) : Bool :=
  match metadata with
  | none => false
  | some m => decide (m.1 < mtime.1 ∨ mtime.1 = m.1 ∧ m.2 < mtime.2)

def fileDestinationIsNewerSecure (path : Bytes) (metadata : Option Time) : Sys Bool := do
  match ← fileStatSecure pr path with
  | some mtime => pure (isNewer mtime metadata)
  | none => pure false

/-- The authorized root and the file system root need no parent. -/
def rootIsOpen (norm : Bytes) : Bool :=
  (match pr.authorizedRoot with
    | some root => decide (norm = absPath root)
    | none => false) || decide (norm = [slash])

def fileDirectoryExistsSecure (path : Bytes) : Sys Bool :=
  let norm := normalizeDirectoryPath path
  if rootIsOpen pr norm then pure true
  else do
    match ← fileOpenSecureParent pr norm false with
    | .error _ => pure false
    | .ok (d,leaf) =>
      match ← openDirAt d leaf with
      | .ok _ => pure true
      | .error _ => pure false

end Probes

section Changes

/-- Makes the last component; the flag says that this call created it. -/
def makeLeaf (d : Position) (leaf : Bytes) : Sys (Bool × Bool) := do
  match ← mkdirAt d leaf with
  | .ok _ =>
    match ← openDirAt d leaf with
    | .ok _ => pure (true, true)
    | .error _ => pure (false, true)
  | .error .exist =>
    match ← openDirAt d leaf with
    | .ok _ => pure (true, false)
    | .error _ => pure (false, false)
  | .error _ => pure (false, false)

/-- Opens the directory again after the attempt to make it. -/
def remakeLeaf (d : Position) (leaf : Bytes) : Sys (Bool × Bool) := do
  let made ← mkdirAt d leaf
  match ← openDirAt d leaf with
  | .ok _ => pure (true, made.toOption.isSome)
  | .error _ => pure (false, made.toOption.isSome)

/-- A file or a special node makes way for a directory, a link does not. -/
def replaceLeaf (d : Position) (leaf : Bytes) : Sys (Bool × Bool) := do
  match ← statAt d leaf with
  | .ok (.inode _ (.link _)) => pure (false, false)
  | .ok (.inode _ _) =>
    match ← unlinkAt d leaf with
    | .ok _ => remakeLeaf d leaf
    | .error _ => pure (false, false)
  | _ => pure (false, false)

def ensureLeaf (d : Position) (leaf : Bytes) : Sys (Bool × Bool) := do
  match ← openDirAt d leaf with
  | .ok _ => pure (true, false)
  | .error .noent => makeLeaf d leaf
  | .error .notdir => replaceLeaf d leaf
  | .error _ => pure (false, false)

def fileEnsureDirectorySecure (path : Bytes) : Sys Bool :=
  let norm := normalizeDirectoryPath path
  if rootIsOpen pr norm then pure true
  else do
    match ← fileOpenSecureParent pr norm true with
    | .error _ => pure false
    | .ok (d,leaf) =>
      let r ← ensureLeaf d leaf
      if r.1 ∧ r.2 ∧ pr.identity.copyAs then identityApplyOwnershipLink pr d leaf
      else pure r.1

/-- The parents of the new name are made even when the old one is missing. -/
def fileRenameSecure (oldPath newPath : Bytes) : Sys Bool := do
  let old ← fileOpenSecureParent pr oldPath false
  let new ← fileOpenSecureParent pr newPath true
  match old, new with
  | .ok (d,leaf), .ok (d',leaf') =>
    match ← renameAt d leaf d' leaf' with
    | .ok _ => pure true
    | .error _ => pure false
  | _, _ => pure false

section Wipe

/-- One entry of a directory that is emptied. That the content of a
subdirectory could not be removed is not reported. -/
def wipeEntry (wipe : Position → Sys Bool) (d : Position) (n : Name) : Sys Bool := do
  match ← statAt d n.1 with
  | .error e => pure (decide (e = .noent))
  | .ok .dir =>
    match ← openDirAt d n.1 with
    | .error e => pure (decide (e = .noent))
    | .ok child =>
      if ← wipe child then
        match ← rmdirAt d n.1 with
        | .ok _ => pure true
        | .error e => pure (decide (e = .noent))
      else pure true
  | .ok (.inode _ _) =>
    match ← unlinkAt d n.1 with
    | .ok _ => pure true
    | .error e => pure (decide (e = .noent))

def wipeEach (wipe : Position → Sys Bool) (d : Position) : List Name → Sys Bool
  | [] => pure true
  | n::ns => do
    let ok ← wipeEntry wipe d n
    let rest ← wipeEach wipe d ns
    pure (ok && rest)

/-- The fuel bounds the depth of the tree. -/
def wipeDirFd : ℕ → Position → Sys Bool
  | 0, _ => pure false
  | fuel+1, d => do
    match ← readdirAt d with
    | .error _ => pure false
    | .ok names => wipeEach (wipeDirFd fuel) d names

def depth (fs : Fs) : ℕ := fs.tree.support.foldr (fun p k => max p.length k) 0

def wipeDir (d : Position) : Sys Bool := fun w => wipeDirFd (depth w.fs+1) d w

end Wipe

def fileRemoveTreeSecure (path : Bytes) : Sys Bool := do
  match ← fileOpenSecureParent pr path false with
  | .error _ => pure false
  | .ok (d,leaf) =>
    match ← openDirAt d leaf with
    | .error e => pure (decide (e = .noent ∨ e = .notdir ∨ e = .loop))
    | .ok dir =>
      if ← wipeDir dir then
        match ← rmdirAt d leaf with
        | .ok _ => pure true
        | .error e => pure (decide (e = .noent))
      else pure false

def fileOpenPrivateDir (path : Bytes) : Sys (Except Errno Position) := do
  match ← fileOpenSecureParent pr path true with
  | .error e => pure (.error e)
  | .ok (d,leaf) =>
    match ← openDirAt d leaf with
    | .ok p => pure (.ok p)
    | .error .noent =>
      match ← mkdirAt d leaf with
      | .ok _ => openDirAt d leaf
      | .error .exist => openDirAt d leaf
      | .error e => pure (.error e)
    | .error e => pure (.error e)

/-- The scratch directory may be reached through links, but what was opened must
lie below the authorized root. -/
def fileOpenTempDir (dirPath : Bytes) : Sys (Except Errno Position) := do
  match ← query (openPath dirPath) with
  | .error e => pure (.error e)
  | .ok p =>
    match pr.authorizedRoot with
    | none => pure (.ok p)
    | some root =>
      match ← query (fun _ => .ok p) with
      | .error e => pure (.error e)
      | .ok resolved =>
        if pathIsWithinRoot (absPath root) (absPath resolved) then pure (.ok p)
        else pure (.error .acces)

/-- A link takes the place of anything but a directory. -/
def fileSymlinkAtSecure (path target : Bytes) : Sys Bool :=
  if hasPathTraversal path then pure false
  else do
    match ← fileOpenSecureParent pr path true with
    | .error _ => pure false
    | .ok (d,leaf) =>
      match ← statAt d leaf with
      | .ok .dir => pure false
      | .ok (.inode _ _) =>
        match ← unlinkAt d leaf with
        | .ok _ => symlink d leaf
        | .error .noent => symlink d leaf
        | .error _ => pure false
      | .error _ => symlink d leaf
where
  symlink (d : Position) (leaf : Bytes) : Sys Bool := do
    match ← createAt (.link target) d leaf with
    | .ok _ => pure true
    | .error _ => pure false

end Changes

end FastSync.SecureWalk
