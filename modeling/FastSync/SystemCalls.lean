import FastSync.DeletePaths
import FastSync.FileTree
import FastSync.Programs

/-!
# The file system as the receiver calls it

A directory descriptor is the position of the directory. Names are resolved
against it without following a link, except where a call takes a whole path.
Every call takes the next answer of the environment, which may refuse it; a call
that goes through records the positions of the objects it creates, moves,
removes, writes or gives new attributes.
-/

set_option autoImplicit false

namespace FastSync.SystemCalls
open DeletePaths FileTree Programs

inductive Errno where
  | noent
  | exist
  | notdir
  | isdir
  | loop
  | notempty
  | xdev
  | acces
  | perm
  | busy
  | inval
  | nxio
  -- a failure that sets no error number
  | unset
deriving DecidableEq, Repr

inductive Special where
  | fifo
  | socket
  | char
  | block
deriving DecidableEq, Repr

abbrev Time := ℤ × ℤ

inductive Inode where
  | file (data : Bytes) (mtime : Time)
  | link (target : Bytes)
  | special (kind : Special)
deriving DecidableEq, Repr

/-- The tree of names and the objects they denote, which are numbered below `next`. -/
structure Fs where
  tree : Tree Name ℕ
  content : ℕ → Inode
  next : ℕ
  bounded : ∀ p i, tree.node p = some (.leaf i) → i < next

inductive Stat where
  | dir
  | inode (i : ℕ) (x : Inode)
deriving DecidableEq, Repr

namespace Fs

def node (fs : Fs) (p : Position) : Option (Node ℕ) := fs.tree.node p

def lstat (fs : Fs) (p : Position) : Option Stat :=
  match fs.node p with
  | none => none
  | some .dir => some .dir
  | some (.leaf i) => some (.inode i (fs.content i))

def mkdir (fs : Fs) (d : Position) (n : Name) (hd : fs.node d = some .dir)
    (hfree : fs.node (d++[n]) = none) : Fs where
  tree := fs.tree.place d n .dir hd hfree
  content := fs.content
  next := fs.next
  bounded := by
    intro p i h
    simp only [Tree.place] at h
    split_ifs at h
    · cases h
    · exact fs.bounded p i h

def create (fs : Fs) (d : Position) (n : Name) (x : Inode) (hd : fs.node d = some .dir)
    (hfree : fs.node (d++[n]) = none) : Fs where
  tree := fs.tree.place d n (.leaf fs.next) hd hfree
  content := fun j => if j = fs.next then x else fs.content j
  next := fs.next+1
  bounded := by
    intro p i h
    simp only [Tree.place] at h
    split_ifs at h
    · cases h
      exact Nat.lt_succ_self _
    · exact Nat.lt_succ_of_lt (fs.bounded p i h)

def link (fs : Fs) (i : ℕ) (d : Position) (n : Name) (hd : fs.node d = some .dir)
    (hfree : fs.node (d++[n]) = none) (hi : i < fs.next) : Fs where
  tree := fs.tree.place d n (.leaf i) hd hfree
  content := fs.content
  next := fs.next
  bounded := by
    intro p j h
    simp only [Tree.place] at h
    split_ifs at h
    · cases h
      exact hi
    · exact fs.bounded p j h

def remove (fs : Fs) (p : Position) (hp : p ≠ []) (hempty : fs.tree.children p = []) : Fs where
  tree := fs.tree.remove p hp hempty
  content := fs.content
  next := fs.next
  bounded := by
    intro q i h
    simp only [Tree.remove] at h
    split_ifs at h
    exact fs.bounded q i h

def move (fs : Fs) (p d : Position) (n : Name) (hd : fs.node d = some .dir)
    (hapart : ¬p <+: d++[n]) : Fs where
  tree := fs.tree.move p d n hd hapart
  content := fs.content
  next := fs.next
  bounded := by
    intro q i h
    simp only [Tree.move] at h
    split_ifs at h
    · exact fs.bounded _ i h
    · exact fs.bounded q i h

def fill (fs : Fs) (i : ℕ) (x : Inode) : Fs :=
  { fs with content := fun j => if j = i then x else fs.content j }

end Fs

inductive Leaf where
  | missing
  | self
  | parent
  | name (n : Name)
deriving DecidableEq

def leafOf (c : Bytes) : Leaf :=
  if c = [dot] then .self
  else if c = [dot,dot] then .parent
  else match name? c with
    | some n => .name n
    | none => .missing

section Kernel

def locate (d : Position) (c : Bytes) : Option Position :=
  match leafOf c with
  | .missing => none
  | .self => some d
  | .parent => some d.dropLast
  | .name n => some (d++[n])

/-- `fstatat` with `AT_SYMLINK_NOFOLLOW` -/
def stat (d : Position) (c : Bytes) (fs : Fs) : Except Errno Stat :=
  match (locate d c).bind fs.lstat with
  | some o => .ok o
  | none => .error .noent

/-- `openat` with `O_DIRECTORY` and `O_NOFOLLOW` -/
def openDir (d : Position) (c : Bytes) (fs : Fs) : Except Errno Position :=
  match locate d c with
  | none => .error .noent
  | some p =>
    match fs.node p with
    | some .dir => .ok p
    | some _ => .error .notdir
    | none => .error .noent

def freeAt (d : Position) (c : Bytes) (fs : Fs) : Except Errno Name :=
  match leafOf c with
  | .missing => .error .noent
  | .self => .error .exist
  | .parent => .error .exist
  | .name n =>
    if fs.node d ≠ some .dir then .error .noent
    else if fs.node (d++[n]) ≠ none then .error .exist
    else .ok n

theorem freeAt_ok {d : Position} {c : Bytes} {fs : Fs} {n : Name} (h : freeAt d c fs = .ok n) :
    fs.node d = some .dir ∧ fs.node (d++[n]) = none := by
  unfold freeAt at h
  split at h
  · cases h
  · cases h
  · cases h
  · split_ifs at h with h1 h2
    cases h
    exact ⟨not_not.mp h1,not_not.mp h2⟩

/-- What a call makes of the file system, and the positions it touches. -/
abbrev Change (α : Type) := Except Errno (α × Fs × List Position)

def mkdir (d : Position) (c : Bytes) (fs : Fs) : Change Unit :=
  match h : freeAt d c fs with
  | .error e => .error e
  | .ok n => .ok ((), fs.mkdir d n (freeAt_ok h).1 (freeAt_ok h).2, [d++[n]])

/-- `symlinkat`, `mknodat`, and `openat` with `O_CREAT` and `O_EXCL` -/
def create (x : Inode) (d : Position) (c : Bytes) (fs : Fs) : Change (ℕ × Position) :=
  match h : freeAt d c fs with
  | .error e => .error e
  | .ok n => .ok ((fs.next, d++[n]), fs.create d n x (freeAt_ok h).1 (freeAt_ok h).2, [d++[n]])

/-- `linkat`, which does not follow a link at the old name -/
def link (d : Position) (c : Bytes) (d' : Position) (c' : Bytes) (fs : Fs) : Change Unit :=
  match locate d c with
  | none => .error .noent
  | some p =>
    match hs : fs.node p with
    | none => .error .noent
    | some .dir => .error .perm
    | some (.leaf i) =>
      match h : freeAt d' c' fs with
      | .error e => .error e
      | .ok n =>
        .ok ((), fs.link i d' n (freeAt_ok h).1 (freeAt_ok h).2 (fs.bounded p i hs), [d'++[n]])

def unlink (d : Position) (c : Bytes) (fs : Fs) : Change Unit :=
  match leafOf c with
  | .missing => .error .noent
  | .self => .error .isdir
  | .parent => .error .isdir
  | .name n =>
    match h : fs.node (d++[n]) with
    | none => .error .noent
    | some .dir => .error .isdir
    | some (.leaf i) =>
      .ok ((), fs.remove (d++[n]) (by simp) (fs.tree.children_leaf _ i h), [d++[n]])

def rmdir (d : Position) (c : Bytes) (fs : Fs) : Change Unit :=
  match leafOf c with
  | .missing => .error .noent
  | .self => .error .inval
  | .parent => .error .notempty
  | .name n =>
    match fs.node (d++[n]) with
    | none => .error .noent
    | some (.leaf _) => .error .notdir
    | some .dir =>
      if h : fs.tree.children (d++[n]) = [] then
        .ok ((), fs.remove (d++[n]) (by simp) h, [d++[n]])
      else .error .notempty

/-- Whether an object may take the place of another. -/
def replaces (fs : Fs) (o : Node ℕ) (q : Position) : Except Errno Unit :=
  match o, fs.node q with
  | _, none => .ok ()
  | .leaf _, some .dir => .error .isdir
  | .leaf _, some (.leaf _) => .ok ()
  | .dir, some (.leaf _) => .error .notdir
  | .dir, some .dir => if fs.tree.children q = [] then .ok () else .error .notempty

/-- `renameat`; two names of one object are both left in place -/
def rename (d : Position) (c : Bytes) (d' : Position) (c' : Bytes) (fs : Fs) : Change Unit :=
  match leafOf c, leafOf c' with
  | .name n, .name n' =>
    match fs.node (d++[n]) with
    | none => .error .noent
    | some o =>
      if hd : fs.node d' = some .dir then
        if fs.node (d'++[n']) = some o ∧ o ≠ .dir ∨ d++[n] = d'++[n'] then .ok ((), fs, [])
        else if hp : d++[n] <+: d'++[n'] then .error .inval
        else
          match replaces fs o (d'++[n']) with
          | .error e => .error e
          | .ok () => .ok ((), fs.move (d++[n]) d' n' hd hp, [d++[n],d'++[n']])
      else .error .noent
  | .missing, _ => .error .noent
  | _, .missing => .error .noent
  | _, _ => .error .busy

/-- `openat` of a destination that is written in place -/
def openWrite (d : Position) (c : Bytes) (now : Time) (fs : Fs) : Change (ℕ × Position) :=
  match leafOf c with
  | .missing => .error .noent
  | .self => .error .isdir
  | .parent => .error .isdir
  | .name n =>
    match fs.lstat (d++[n]) with
    | some (.inode i (.file _ _)) => .ok ((i, d++[n]), fs, [])
    | some .dir => .error .isdir
    | some (.inode _ (.link _)) => .error .loop
    | some (.inode _ (.special _)) => .error .nxio
    | none => create (.file [] now) d c fs

/-- `fchownat`, `fchmodat` and `utimensat` with `AT_SYMLINK_NOFOLLOW` -/
def setAttribute (d : Position) (c : Bytes) (fs : Fs) : Change Unit :=
  match locate d c with
  | none => .error .noent
  | some p => if fs.node p = none then .error .noent else .ok ((), fs, [p])

/-- Where the resolution of a path stops before it has to follow a link. -/
inductive Stop where
  | done (p : Position)
  | jump (cur : Position) (target : Bytes) (rest : List Bytes)
  | fail (e : Errno)

def advance (fs : Fs) : Position → List Bytes → Stop
  | cur, [] => .done cur
  | cur, c::cs =>
    if c = [] then advance fs cur cs
    else match leafOf c with
      | .missing => .fail .noent
      | .self => advance fs cur cs
      | .parent => advance fs cur.dropLast cs
      | .name n =>
        match fs.lstat (cur++[n]) with
        | none => .fail .noent
        | some .dir => advance fs (cur++[n]) cs
        | some (.inode _ (.link target)) => .jump cur target cs
        | some (.inode _ _) => if cs = [] then .done (cur++[n]) else .fail .notdir

/-- The object a path denotes, every link on the way followed. -/
def resolvePath (fs : Fs) : ℕ → Position → List Bytes → Except Errno Position
  | fuel, cur, cs =>
    match advance fs cur cs with
    | .done p => .ok p
    | .fail e => .error e
    | .jump cur target rest =>
      match fuel with
      | 0 => .error .loop
      | fuel+1 =>
        resolvePath fs fuel (if target.head? = some slash then [] else cur)
          (components target++rest)

def maxSymlinks : ℕ := 40

def realpath (path : Bytes) (fs : Fs) : Except Errno Position :=
  resolvePath fs maxSymlinks [] (components path)

def openPath (path : Bytes) (fs : Fs) : Except Errno Position :=
  match realpath path fs with
  | .error e => .error e
  | .ok p => if fs.node p = some .dir then .ok p else .error .notdir

/-- The directory and the last component of an absolute path. -/
def splitPath (path : Bytes) (fs : Fs) : Except Errno (Position × Bytes) :=
  match resolvePath fs maxSymlinks [] (components path).dropLast with
  | .error e => .error e
  | .ok d => .ok (d, ((components path).getLast?).getD [])

def unlinkPath (path : Bytes) (fs : Fs) : Change Unit :=
  match splitPath path fs with
  | .error e => .error e
  | .ok (d,c) => unlink d c fs

def rmdirPath (path : Bytes) (fs : Fs) : Change Unit :=
  match splitPath path fs with
  | .error e => .error e
  | .ok (d,c) => rmdir d c fs

/-- `open` of an absolute path with `O_DIRECTORY` and `O_NOFOLLOW` -/
def openPathNoFollow (path : Bytes) (fs : Fs) : Except Errno Position :=
  match splitPath path fs with
  | .error e => .error e
  | .ok (d,c) => openDir d c fs

end Kernel

/-- The environment lets a call through, or refuses it; a write that it refuses
may have written some bytes before. -/
inductive Reply where
  | pass
  | refuse (e : Errno) (written : ℕ)
deriving DecidableEq, Repr

structure StagedFileEntry where
  stagedPath : Bytes
  finalPath : Bytes
  filePath : Bytes
deriving DecidableEq, Repr

structure DelayUpdatesContext where
  prepared : Bool
  entries : List StagedFileEntry
deriving DecidableEq, Repr

/-- An object that a call changed, and whether the call took a whole path. -/
structure Touch where
  position : Position
  byPath : Bool
deriving DecidableEq

/-- The file system, the answers to come, the counter of scratch names, the
touched objects and the opened directories (the latest first), and the state of
the delayed updates. -/
structure World where
  fs : Fs
  replies : List Reply
  sequence : ℕ
  touched : List Touch
  opened : List Position
  delayContext : Option DelayUpdatesContext

abbrev Sys := Prog World

section Calls

def answer : Sys Reply := fun w =>
  match w.replies with
  | [] => (.pass, w)
  | r::rs => (r, { w with replies := rs })

def query {α : Type} (k : Fs → Except Errno α) : Sys (Except Errno α) := do
  match ← answer with
  | .refuse e _ => pure (.error e)
  | .pass => fun w => (k w.fs, w)

def apply {α : Type} (byPath : Bool) (c : Change α) : Sys (Except Errno α) := fun w =>
  match c with
  | .error e => (.error e, w)
  | .ok (a,fs,ps) =>
    (.ok a, { w with fs := fs, touched := (ps.map fun p => ⟨p,byPath⟩)++w.touched })

def perform {α : Type} (byPath : Bool) (k : Fs → Change α) : Sys (Except Errno α) := do
  match ← answer with
  | .refuse e _ => pure (.error e)
  | .pass => fun w => apply byPath (k w.fs) w

def change {α : Type} (k : Fs → Change α) : Sys (Except Errno α) := perform false k

def changePath {α : Type} (k : Fs → Change α) : Sys (Except Errno α) := perform true k

def statAt (d : Position) (c : Bytes) : Sys (Except Errno Stat) := query (stat d c)

def noteOpened (p : Position) : Sys Unit := fun w => ((), { w with opened := p::w.opened })

def openDirAt (d : Position) (c : Bytes) : Sys (Except Errno Position) := do
  match ← query (openDir d c) with
  | .error e => pure (.error e)
  | .ok p => do
    noteOpened p
    pure (.ok p)

def mkdirAt (d : Position) (c : Bytes) : Sys (Except Errno Unit) := change (mkdir d c)

def createAt (x : Inode) (d : Position) (c : Bytes) : Sys (Except Errno (ℕ × Position)) :=
  change (create x d c)

def linkAt (d : Position) (c : Bytes) (d' : Position) (c' : Bytes) : Sys (Except Errno Unit) :=
  change (link d c d' c')

def renameAt (d : Position) (c : Bytes) (d' : Position) (c' : Bytes) : Sys (Except Errno Unit) :=
  change (rename d c d' c')

def unlinkAt (d : Position) (c : Bytes) : Sys (Except Errno Unit) := change (unlink d c)

def rmdirAt (d : Position) (c : Bytes) : Sys (Except Errno Unit) := change (rmdir d c)

def attributeAt (d : Position) (c : Bytes) : Sys (Except Errno Unit) := change (setAttribute d c)

/-- `fchown`, `fchmod` and `fsetxattr` on the open object at `p` -/
def attributeFd (p : Position) : Sys (Except Errno Unit) := change fun fs => .ok ((), fs, [p])

def readdirAt (d : Position) : Sys (Except Errno (List Name)) :=
  query fun fs => .ok (fs.tree.children d)

end Calls

section Outcomes

theorem answer_run {w : World} : ∃ rs, (answer w).2 = { w with replies := rs } := by
  unfold answer
  split
  next h => exact ⟨[],by rw [← h]⟩
  next r rs _ => exact ⟨rs,rfl⟩

variable {α : Type}

theorem query_run (k : Fs → Except Errno α) (w : World) :
    ∃ rs r, query k w = (r, { w with replies := rs }) ∧ (r = k w.fs ∨ ∃ e, r = .error e) := by
  obtain ⟨rs,hw⟩ := answer_run
  rw [query, bind_apply, hw]
  cases (answer w).1 with
  | pass => exact ⟨rs,k w.fs,rfl,.inl rfl⟩
  | refuse e n => exact ⟨rs,.error e,rfl,.inr ⟨e,rfl⟩⟩

/-- A change fails and leaves everything but the answers, or it goes through. -/
theorem perform_run {byPath : Bool} {k : Fs → Change α} {w : World} :
    ∃ rs, (∃ e, perform byPath k w = (.error e, { w with replies := rs })) ∨
      ∃ a fs ps, k w.fs = .ok (a,fs,ps) ∧ perform byPath k w =
        (.ok a, { w with replies := rs, fs := fs,
                         touched := (ps.map fun p => ⟨p,byPath⟩)++w.touched }) := by
  obtain ⟨rs,hw⟩ := answer_run
  refine ⟨rs,?_⟩
  rw [perform, bind_apply, hw]
  cases (answer w).1 with
  | refuse e n => exact .inl ⟨e,rfl⟩
  | pass =>
    cases hk : k w.fs with
    | error e => exact .inl ⟨e,by simp only [hk]; rfl⟩
    | ok r => exact .inr ⟨r.1,r.2.1,r.2.2,rfl,by simp only [hk]; rfl⟩

theorem openDirAt_run {d : Position} {c : Bytes} {w : World} :
    ∃ rs, (∃ e, openDirAt d c w = (.error e, { w with replies := rs })) ∨
      ∃ p, openDir d c w.fs = .ok p ∧
        openDirAt d c w = (.ok p, { w with replies := rs, opened := p::w.opened }) := by
  obtain ⟨rs,r,hq,hr⟩ := query_run (openDir d c) w
  refine ⟨rs,?_⟩
  rw [openDirAt, bind_apply, hq]
  cases r with
  | error e => exact .inl ⟨e,rfl⟩
  | ok p =>
    rcases hr with hr | ⟨e,hr⟩
    · exact .inr ⟨p,hr.symm,rfl⟩
    · cases hr

section Undisturbed

variable {w : World} (h : w.replies = [])
include h

/-- An environment that refuses nothing lets every call through. -/
theorem answer_pass : answer w = (.pass,w) := by
  rw [answer, h]

theorem query_pass (k : Fs → Except Errno α) : query k w = (k w.fs,w) := by
  rw [query, bind_apply, answer_pass h]

theorem perform_pass (byPath : Bool) (k : Fs → Change α) :
    perform byPath k w = apply byPath (k w.fs) w := by
  rw [perform, bind_apply, answer_pass h]

end Undisturbed

end Outcomes

end FastSync.SystemCalls
