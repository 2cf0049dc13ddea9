import FastSync.InodeStore
import FastSync.StoreWrite

/-!
# Installing a received file

A file is written under a temporary name and then given the name of its
destination, or written into the destination itself. The temporary may live in a
scratch directory; when that lies on another device the file is written again
beside its destination. Every call takes its answer from the same list.
-/

set_option autoImplicit false

namespace FastSync.StoreInstall
open InodeStore StoreWrite

abbrev Name := List UInt8

/-- Directories are numbered; `leaf`, `tmp` and the rest are names in them. -/
abbrev Fs := Volume ℕ Name Bytes

/-- The file system, the answers to come, the counter of scratch names, every
file system seen so far (the latest first) and whether an unlink was refused. -/
structure World where
  fs : Fs
  replies : List Reply
  sequence : ℕ
  trace : List Fs
  unlinkFailed : Bool

namespace World

def start (fs : Fs) (replies : List Reply) (sequence : ℕ) : World := ⟨fs,replies,sequence,[],false⟩

def enter (w : World) (fs : Fs) : World := { w with fs := fs, trace := fs::w.trace }

def answer (w : World) : Reply × World :=
  let r := nextReply w.replies
  (r.1, { w with replies := r.2 })

/-- A call that changes no entry and no byte: opening a directory, `fstat`, `close`. -/
def consult (w : World) : Bool × World := (accepted w.answer.1, w.answer.2)

def onFile {α : Type} (w : World) (i : ℕ) (f : Handle → α × Handle) : α × World :=
  let r := f ⟨w.fs.content i,0,w.replies,[]⟩
  (r.1, { w with
    fs := w.fs.fill i r.2.content
    replies := r.2.replies
    trace := r.2.history.map (w.fs.fill i)++w.trace })

end World

inductive Opened where
  | fd (i : ℕ)
  | taken
  | refused
deriving DecidableEq, Repr

def openExclusive (d : ℕ) (n : Name) (w : World) : Opened × World :=
  let r := w.answer
  if accepted r.1 then
    match w.fs.entries d n with
    | some _ => (.taken, r.2)
    | none => (.fd w.fs.next, r.2.enter (w.fs.create d n []))
  else (.refused, r.2)

inductive Moved where
  | done
  | taken
  | crossDevice
  | refused
deriving DecidableEq, Repr

def refusal (r : Reply) : Moved := if r = .crossDevice then .crossDevice else .refused

def linkat (d : ℕ) (n : Name) (d' : ℕ) (n' : Name) (w : World) : Moved × World :=
  let r := w.answer
  if accepted r.1 then
    if w.fs.entries d n = none then (.refused, r.2)
    else if w.fs.entries d' n' ≠ none then (.taken, r.2)
    else (.done, r.2.enter (w.fs.link d n d' n'))
  else (refusal r.1, r.2)

def renameat (d : ℕ) (n : Name) (d' : ℕ) (n' : Name) (w : World) : Moved × World :=
  let r := w.answer
  if accepted r.1 then
    if w.fs.entries d n = none then (.refused, r.2)
    else (.done, r.2.enter (w.fs.rename d n d' n'))
  else (refusal r.1, r.2)

/-- True when the name is gone, also when it was never there. -/
def unlinkat (d : ℕ) (n : Name) (w : World) : Bool × World :=
  let r := w.answer
  if accepted r.1 then (true, r.2.enter (w.fs.unlink d n))
  else (false, { r.2 with unlinkFailed := true })

def decimal (n : ℕ) : Name := (Nat.toDigits 10 n).map fun c => UInt8.ofNat c.toNat

def tempName (leaf : Name) (pid n : ℕ) : Name :=
  46::leaf++([46,116,109,112,46]++(decimal pid++46::decimal n))

structure StoreOptions where
  inplace : Bool
  sparse : Bool
  preallocate : Bool
  useFsync : Bool
  update : Bool
  noReplace : Bool
  keepPartial : Bool
  metadata : Bool
  perms : Bool
deriving DecidableEq, Repr

/-- Where a file goes. `newer i` says that the time of object `i` is later than
that of the received metadata. -/
structure Target where
  dir : ℕ
  leaf : Name
  scratch : Option ℕ
  pid : ℕ
  newer : ℕ → Bool

def Target.tempDir (t : Target) : ℕ := t.scratch.getD t.dir

/-- Scratch names are numbered by the process, the others by the attempt. -/
def nextTempName (t : Target) (i : ℕ) (w : World) : Name × World :=
  match t.scratch with
  | some _ => (tempName t.leaf t.pid w.sequence, { w with sequence := w.sequence+1 })
  | none => (tempName t.leaf t.pid i, w)

inductive Outcome where
  | installed
  | leftNewer
  | leftExisting
  | leftEmpty
  | failed
deriving DecidableEq, Repr

section Payload

def applyAttributes (o : StoreOptions) : Act :=
  if o.metadata then andThen (whenever (!o.perms) attempt) attempt else attempt

def reserve (o : StoreOptions) (size : ℕ) : Act :=
  whenever (o.preallocate && decide (0 < size)) (preallocateFd size)

def prepare (o : StoreOptions) (data : Bytes) : Act :=
  andThen (reserve o data.length)
    (andThen lseekStart (whenever (o.sparse && decide (0 < data.length)) (ftruncate data.length)))

def writePayload (o : StoreOptions) (data : Bytes) : Act :=
  if o.sparse && decide (0 < data.length) then fileStoreWriteSparse data else writeAll data

def finishFile (o : StoreOptions) : Act :=
  andThen (applyAttributes o) (whenever o.useFsync attempt)

/-- The first component says whether the data were attempted at all. -/
def fillTemporary (o : StoreOptions) (data : Bytes) (h : Handle) : (Bool × Bool) × Handle :=
  let p := prepare o data h
  if p.1 then
    let r := andThen (writePayload o data) (finishFile o) p.2
    ((true, r.1), r.2)
  else ((false, false), p.2)

def fillInplace (o : StoreOptions) (data : Bytes) : Act :=
  andThen (prepare o data)
    (andThen (writePayload o data) (andThen (ftruncate data.length) (finishFile o)))

/-- The second component is the offset the source descriptor is left at. -/
def fillCopy (o : StoreOptions) (basis : Bytes) (size src : ℕ) (h : Handle) : (Bool × ℕ) × Handle :=
  let p := reserve o size h
  if p.1 then
    let c := copyFdAll basis src size p.2
    if c.1 then
      let f := finishFile o c.2.2
      ((f.1, c.2.1), f.2)
    else ((false, c.2.1), c.2.2)
  else ((false, src), p.2)

end Payload

section Write

/-- Writes into the destination itself. A file that this call created can count
as newer than the metadata too, since its time is the present. -/
def storeInplace (t : Target) (o : StoreOptions) (data : Bytes) (w : World) : Outcome × World :=
  let r := w.answer
  if accepted r.1 then
    let found := w.fs.entries t.dir t.leaf
    let i := found.getD w.fs.next
    let s := (if found.isSome then r.2 else r.2.enter (w.fs.create t.dir t.leaf [])).consult
    if !s.1 then (.failed, s.2)
    else if o.update && o.metadata && t.newer i then
      (if found.isSome then .leftNewer else .leftEmpty, s.2)
    else
      let f := s.2.onFile i (fillInplace o data)
      (if f.1 then .installed else .failed, f.2)
  else (.failed, r.2)

/-- The second component asks for the write beside the destination. -/
def commitTemporary (t : Target) (o : StoreOptions) (name : Name) (w : World) :
    (Outcome × Bool) × World :=
  if o.noReplace then
    match linkat t.tempDir name t.dir t.leaf w with
    | (.done, w) =>
      let u := unlinkat t.tempDir name w
      ((if u.1 then .installed else .failed, false), u.2)
    | (.taken, w) =>
      let u := unlinkat t.tempDir name w
      ((if u.1 then .leftExisting else .failed, false), u.2)
    | (.crossDevice, w) => ((.failed, t.scratch.isSome), w)
    | (.refused, w) => ((.failed, false), w)
  else
    match renameat t.tempDir name t.dir t.leaf w with
    | (.done, w) => ((.installed, false), w)
    | (.crossDevice, w) => ((.failed, t.scratch.isSome), w)
    | (_, w) => ((.failed, false), w)

/-- Clears the temporary of a failed write, or keeps it as the destination. -/
def discardTemporary (t : Target) (o : StoreOptions) (attempted : Bool) (name : Name) (w : World) :
    World :=
  if !o.keepPartial || !attempted || o.noReplace then (unlinkat t.tempDir name w).2
  else
    match renameat t.tempDir name t.dir t.leaf w with
    | (.done, w) => w
    | (_, w) => (unlinkat t.tempDir name w).2

def storeTemporary (t : Target) (o : StoreOptions) (data : Bytes) (name : Name) (i : ℕ) (w : World) :
    (Outcome × Bool) × World :=
  let f := w.onFile i (fillTemporary o data)
  let c := f.2.consult
  let s := if f.1.2 && c.1 then commitTemporary t o name c.2 else ((.failed, false), c.2)
  if s.1.1 = .failed then (s.1, discardTemporary t o f.1.1 name s.2) else s

def storeAttempts (t : Target) (o : StoreOptions) (data : Bytes) :
    ℕ → ℕ → World → (Outcome × Bool) × World
  | 0, _, w => ((.failed, false), w)
  | left+1, i, w =>
    let n := nextTempName t i w
    match openExclusive t.tempDir n.1 n.2 with
    | (.fd j, w) => storeTemporary t o data n.1 j w
    | (_, w) => storeAttempts t o data left (i+1) w

def tempAttempts : ℕ := 100

def openTempDir (t : Target) (w : World) : Bool × World :=
  if t.scratch.isSome then w.consult else (true, w)

/-- The regular file at the destination, as far as the probe sees it. -/
def probe (t : Target) (w : World) : Option ℕ × World :=
  let q := w.consult
  (if q.1 then w.fs.entries t.dir t.leaf else none, q.2)

def isNewer (t : Target) (o : StoreOptions) (found : Option ℕ) : Bool :=
  o.update && o.metadata && found.any t.newer

def storeOnce (t : Target) (o : StoreOptions) (data : Bytes) (w : World) : (Outcome × Bool) × World :=
  let p := w.consult
  if !p.1 then ((.failed, false), p.2)
  else if o.inplace then
    let r := storeInplace t o data p.2
    ((r.1, false), r.2)
  else
    let q := probe t p.2
    if isNewer t o q.1 then ((.leftNewer, false), q.2)
    else
      let s := openTempDir t q.2
      if !s.1 then ((.failed, false), s.2)
      else storeAttempts t o data tempAttempts 0 s.2

def fileToDiskSecureImpl (t : Target) (o : StoreOptions) (data : Bytes) (w : World) :
    Outcome × World :=
  let r := storeOnce t o data w
  if r.1.2 then
    let r' := storeOnce { t with scratch := none } o data r.2
    (r'.1.1, r'.2)
  else (r.1.1, r.2)

end Write

section Copy

/-- The name of the file that is copied or linked. -/
structure Basis where
  dir : ℕ
  leaf : Name

def openBasis (b : Basis) (w : World) : Option ℕ × World :=
  let p := w.consult
  if !p.1 then (none, p.2)
  else
    let q := p.2.consult
    (if q.1 then w.fs.entries b.dir b.leaf else none, q.2)

def filePathExistsSecure (t : Target) (w : World) : Bool × World :=
  let p := w.consult
  if !p.1 then (false, p.2)
  else
    let q := p.2.consult
    (q.1 && (w.fs.entries t.dir t.leaf).isSome, q.2)

def copyTemporary (t : Target) (o : StoreOptions) (basis : Bytes) (size : ℕ) (name : Name)
    (i src : ℕ) (w : World) : (Bool × ℕ) × World :=
  let f := w.onFile i (fillCopy o basis size src)
  let c := f.2.consult
  let m := if f.1.1 && c.1 then renameat t.tempDir name t.dir t.leaf c.2 else (.refused, c.2)
  if m.1 = .done then ((true, f.1.2), m.2) else ((false, f.1.2), (unlinkat t.tempDir name m.2).2)

/-- The attempts share one source descriptor, and its offset with it. The
result is the offset the successful attempt began at. -/
def copyAttempts (t : Target) (o : StoreOptions) (basis : Bytes) (size : ℕ) :
    ℕ → ℕ → ℕ → World → Option ℕ × World
  | 0, _, _, w => (none, w)
  | left+1, i, src, w =>
    let n := nextTempName t i w
    match openExclusive t.tempDir n.1 n.2 with
    | (.refused, w) => (none, w)
    | (.taken, w) => copyAttempts t o basis size left (i+1) src w
    | (.fd j, w) =>
      let r := copyTemporary t o basis size n.1 j src w
      if r.1.1 then (some src, r.2) else copyAttempts t o basis size left (i+1) r.1.2 r.2

/-- How a copy ended: whether the attempts were used up, and where the
successful one began. -/
structure CopyEnd where
  outcome : Outcome
  start : ℕ
  exhausted : Bool
deriving DecidableEq, Repr

def copyOnce (t : Target) (o : StoreOptions) (b : Basis) (size : ℕ) (w : World) : CopyEnd × World :=
  let p := w.consult
  if !p.1 then (⟨.failed,0,false⟩, p.2)
  else
    match openBasis b p.2 with
    | (none, w) => (⟨.failed,0,false⟩, w)
    | (some j, w) =>
      let q := probe t w
      if isNewer t o q.1 then (⟨.leftNewer,0,false⟩, q.2)
      else
        let e := if o.noReplace then filePathExistsSecure t q.2 else (false, q.2)
        if e.1 then (⟨.leftExisting,0,false⟩, e.2)
        else
          let s := openTempDir t e.2
          if !s.1 then (⟨.failed,0,false⟩, s.2)
          else
            match copyAttempts t o (w.fs.content j) size tempAttempts 0 0 s.2 with
            | (some start, w) => (⟨.installed,start,false⟩, w)
            | (none, w) => (⟨.failed,0,true⟩, w)

def fileCopyBasisStreamImpl (t : Target) (o : StoreOptions) (b : Basis) (size : ℕ) (w : World) :
    CopyEnd × World :=
  let r := copyOnce t o b size w
  if r.1.exhausted && t.scratch.isSome then copyOnce { t with scratch := none } o b size r.2 else r

end Copy

section Link

def linkAttempts (t : Target) (b : Basis) : ℕ → ℕ → World → Option Name × World
  | 0, _, w => (none, w)
  | left+1, i, w =>
    let n := nextTempName t i w
    match linkat b.dir b.leaf t.tempDir n.1 n.2 with
    | (.done, w) => (some n.1, w)
    | (.taken, w) => linkAttempts t b left (i+1) w
    | (_, w) => (none, w)

/-- Reopens the new link and flushes it; an open that says the object cannot be
read that way is no failure. -/
def syncLink (o : StoreOptions) (w : World) : Bool × World :=
  if o.useFsync then
    let r := w.answer
    if accepted r.1 then r.2.consult else (decide (r.1 = .unsupported), r.2)
  else (true, w)

def linkTemporary (t : Target) (o : StoreOptions) (name : Name) (w : World) : Bool × World :=
  let s := syncLink o w
  let m := if s.1 then renameat t.tempDir name t.dir t.leaf s.2 else (.refused, s.2)
  if m.1 = .done then (true, m.2) else (false, (unlinkat t.tempDir name m.2).2)

def linkBasis (t : Target) (o : StoreOptions) (b : Basis) (w : World) : Bool × World :=
  let p := w.consult
  if !p.1 then (false, p.2)
  else
    match linkAttempts t b tempAttempts 0 p.2 with
    | (some name, w) => linkTemporary t o name w
    | (none, w) => (false, w)

inductive LinkEnd where
  | linked
  | copied (c : CopyEnd)
  | written (o : Outcome)
  | failed
deriving DecidableEq, Repr

def fileToDiskSecureLinkImpl (t : Target) (o : StoreOptions) (b : Basis) (data : Bytes) (w : World) :
    LinkEnd × World :=
  let p := w.consult
  if !p.1 then (.failed, p.2)
  else
    let s := openTempDir t p.2
    if !s.1 then (.failed, s.2)
    else
      let l := linkBasis t o b s.2
      if l.1 then (.linked, l.2)
      else
        let c := fileCopyBasisStreamImpl t { o with update := false, noReplace := false } b
          data.length l.2
        if c.1.outcome ≠ .failed then (.copied c.1, c.2)
        else
          let r := fileToDiskSecureImpl t { o with
            inplace := false, sparse := false, update := false, noReplace := false,
            keepPartial := false } data c.2
          (.written r.1, r.2)

end Link

end FastSync.StoreInstall
