import FastSync.ByteReader
import FastSync.DeletePaths

/-!
# The chunk codec

A chunk is the concatenation of its files' records: the path, an entry type, the
device numbers of a special node, the optional metadata, the payload and the
target of a symbolic link. The serializer allocates a size it has computed
beforehand; an image of any other length is a fault of the model, since it would
overrun the buffer or leave part of it unwritten. The deserializer stops at the
first record it does not accept and charges each payload to the session that
owns the chunk.
-/

set_option autoImplicit false

namespace FastSync.ChunkCodec
open CheckedMemory LittleEndian ByteReader
open DeletePaths (Bytes hasPathTraversal)

def maxChunkSize : ℕ := 64*1024*1024
def maxChunkFileDataSize : ℕ := 64*1024*1024
def maxFilesPerChunk : ℕ := 65536
def maxDataPayloadSize : ℕ := 256*1024*1024
def maxConnectionMemory : ℕ := 256*1024*1024
def fileMetadataWireSize : ℕ := 4*5+8*6

abbrev CString := {s : Bytes // 0 ∉ s}

structure FileMetadata where
  mode : UInt32
  uid : UInt32
  gid : UInt32
  mtimeSec : Int64
  mtimeNsec : Int64
  atimeValid : Bool
  atimeSec : Int64
  atimeNsec : Int64
  crtimeValid : Bool
  crtimeSec : Int64
  crtimeNsec : Int64
deriving DecidableEq, Repr

/-- The fields of a file's status that reach the wire. -/
structure Stat where
  mode : UInt32
  uid : UInt32
  gid : UInt32
  mtimeSec : Int64
  mtimeNsec : Int64
  atimeSec : Int64
  atimeNsec : Int64
deriving DecidableEq, Repr

/-- The birth time is what a further system call answers, if it does. -/
def fileMetadataCreate (stats : Stat) (btime : Option (Int64 × Int64))
    (captureAtime captureCrtime : Bool) : FileMetadata :=
  let birth := if captureCrtime then btime else none
  ⟨stats.mode,stats.uid,stats.gid,stats.mtimeSec,stats.mtimeNsec,captureAtime,stats.atimeSec,
    stats.atimeNsec,birth.isSome,(birth.getD (0, 0)).1,(birth.getD (0, 0)).2⟩

/-- A payload is either read or only announced with its size. -/
inductive Data where
  | reserved (size : ℕ)
  | loaded (bytes : Bytes)
deriving DecidableEq, Repr

def Data.size : Data → ℕ
  | .reserved n => n
  | .loaded bytes => bytes.length

def Data.bytes : Data → Bytes
  | .reserved _ => []
  | .loaded bytes => bytes

structure File where
  path : CString
  sendPath : Option CString
  data : Data
  metadata : Option FileMetadata
  isDir : Bool
  isSymlink : Bool
  isSpecial : Bool
  symlinkTarget : Option CString
  rdevMajor : Int32
  rdevMinor : Int32
deriving DecidableEq

def fileWirePath (f : File) : CString := f.sendPath.getD f.path

def wireTarget (f : File) : CString := f.symlinkTarget.getD ⟨[],by simp⟩

def addSize (size n : ℕ) : Option ℕ := if n > uint64Max-size then none else some (size+n)

def metadataSize (useMetadata : Bool) (f : File) : ℕ :=
  if useMetadata then 4+(if f.metadata.isSome then fileMetadataWireSize else 0) else 0

def addRdevSize (f : File) (size : ℕ) : Option ℕ :=
  if f.isSpecial then addSize size (2*4) else some size

def addTargetSize (f : File) (size : ℕ) : Option ℕ :=
  if f.isSymlink then addSize size 8 >>= fun size => addSize size (wireTarget f).1.length
  else some size

def perFileSerializeSize (f : File) (useMetadata : Bool) : Option ℕ := do
  let size ← addSize 8 (fileWirePath f).1.length
  let size ← addSize size (metadataSize useMetadata f)
  let size ← addSize size 4
  let size ← addRdevSize f size
  let size ← addSize size 8
  let size ← addSize size f.data.size
  addTargetSize f size

def serializable (f : File) : Bool :=
  !(decide (f.data.size > 0) && decide (f.data.bytes = [])) && decide (f.path.1 ≠ []) &&
    !hasPathTraversal f.path.1 && decide ((fileWirePath f).1 ≠ [])

def chunkSerializeSize (useMetadata : Bool) : List File → ℕ → Option ℕ
  | [], total => some total
  | f::files, total =>
    if serializable f then
      match perFileSerializeSize f useMetadata with
      | none => none
      | some size =>
        if size > uint64Max-total ∨ total+size > sizeMax then none
        else chunkSerializeSize useMetadata files (total+size)
    else none

def putInt (v : Int32) : Bytes := putU32 v.toUInt32

def putLong (v : Int64) : Bytes := putU64 v.toUInt64

def putString (s : Bytes) : Bytes := encode 8 s.length++s

def flag (b : Bool) : Int32 := if b then 1 else 0

def metadataFields (m : FileMetadata) : Bytes :=
  putU32 m.mode++(putU32 m.uid++(putU32 m.gid++(putLong m.mtimeSec++(putLong m.mtimeNsec++
    (putInt (flag m.atimeValid)++(putLong m.atimeSec++(putLong m.atimeNsec++
    (putInt (flag m.crtimeValid)++(putLong m.crtimeSec++putLong m.crtimeNsec)))))))))

def metadataToBuf (m : Option FileMetadata) : Bytes :=
  putInt (flag m.isSome)++(match m with
    | none => []
    | some m => metadataFields m)

def entryType (f : File) : Int32 :=
  if f.isDir then 1 else if f.isSymlink then 2 else if f.isSpecial then 3 else 0

def putFile (useMetadata : Bool) (f : File) : Bytes :=
  putString (fileWirePath f).1++(putInt (entryType f)++
    ((if f.isSpecial then putInt f.rdevMajor++putInt f.rdevMinor else [])++
    ((if useMetadata then metadataToBuf f.metadata else [])++
    (putString f.data.bytes++
    (if f.isSymlink then putString (wireTarget f).1 else [])))))

def chunkSerialize (files : List File) (useMetadata : Bool) : Checked Bytes :=
  match chunkSerializeSize useMetadata files 0 with
  | none => .reject
  | some size =>
    let image := files.flatMap (putFile useMetadata)
    if image.length = size then .done image else .fault

/-- The bytes charged to the owner of the chunk; a chunk of a local batch has
none. -/
abbrev Session := Option ℕ

def dataChargeSession (charge : ℕ) : Session → Option Session
  | none => some none
  | some allocated =>
    if allocated > maxConnectionMemory ∨ charge > maxConnectionMemory-allocated then none
    else some (some (allocated+charge))

def getInt : Reader Session Int32 := do
  let n ← word 4
  pure (UInt32.ofNat n).toInt32

def getLong : Reader Session Int64 := do
  let n ← word 8
  pure (UInt64.ofNat n).toInt64

def cString (s : Bytes) : Reader Session CString :=
  fun bs session => if h : 0 ∉ s then some (⟨s,h⟩, bs, session) else none

def getPath : Reader Session CString := do
  let len ← word 8
  check (¬len > sizeMax-1)
  let raw ← take len
  let path ← cString raw
  check (¬(path.1.length = 0 ∨ hasPathTraversal path.1 = true))
  pure path

def getRdev (isSpecial : Bool) : Reader Session (Int32 × Int32) :=
  if isSpecial then do
    let major ← getInt
    let minor ← getInt
    check (¬(major < 0 ∨ minor < 0 ∨ major > 0xffff ∨ minor > 0x00ffffff))
    pure (major, minor)
  else pure (0, 0)

def nsecOk (v : Int64) : Bool := !(decide (v < 0) || decide (v ≥ 1000000000))

def metadataFromBuf : Reader Session FileMetadata := do
  let mode ← getInt
  let uid ← getInt
  let gid ← getInt
  let mtimeSec ← getLong
  let mtimeNsec ← getLong
  let atimeValid ← getInt
  let atimeSec ← getLong
  let atimeNsec ← getLong
  let crtimeValid ← getInt
  let crtimeSec ← getLong
  let crtimeNsec ← getLong
  check (¬(nsecOk mtimeNsec = false ∨ mode < 0 ∨ uid < 0 ∨ gid < 0 ∨
    atimeValid < 0 ∨ atimeValid > 1 ∨ crtimeValid < 0 ∨ crtimeValid > 1 ∨
    (atimeValid ≠ 0 ∧ nsecOk atimeNsec = false) ∨ (crtimeValid ≠ 0 ∧ nsecOk crtimeNsec = false)))
  pure ⟨mode.toUInt32,uid.toUInt32,gid.toUInt32,mtimeSec,mtimeNsec,decide (atimeValid ≠ 0),
    atimeSec,atimeNsec,decide (crtimeValid ≠ 0),crtimeSec,crtimeNsec⟩

def getMetadata (useMetadata : Bool) : Reader Session (Option FileMetadata) :=
  if useMetadata then do
    let present ← getInt
    check (¬(present ≠ 0 ∧ present ≠ 1))
    if present = 1 then do
      let m ← metadataFromBuf
      pure (some m)
    else pure none
  else pure none

def allocationSize (size : ℕ) : ℕ := if size > 0 then size else 1

def getData : Reader Session Bytes := do
  let size ← word 8
  let bytes ← take size
  check (¬size > maxChunkFileDataSize)
  update (dataChargeSession (allocationSize size))
  pure bytes

def getTarget (isSymlink : Bool) : Reader Session (Option CString) :=
  if isSymlink then do
    let len ← word 8
    check (¬len = 0)
    let raw ← take len
    let target ← cString raw
    pure (some target)
  else pure none

def getFile (useMetadata : Bool) : Reader Session File := do
  let path ← getPath
  let entryType ← getInt
  check (¬(entryType ≠ 0 ∧ entryType ≠ 1 ∧ entryType ≠ 2 ∧ entryType ≠ 3))
  let isDir := decide (entryType = 1)
  let isSymlink := decide (entryType = 2)
  let isSpecial := decide (entryType = 3)
  let rdev ← getRdev isSpecial
  let metadata ← getMetadata useMetadata
  let bytes ← getData
  let target ← getTarget isSymlink
  pure ⟨path,none,.loaded bytes,metadata,isDir,isSymlink,isSpecial,target,rdev.1,rdev.2⟩

/-- Every record takes at least a byte, so the number of bytes bounds the number
of rounds. -/
def getFiles (useMetadata : Bool) : ℕ → List File → Bytes → Session → Option (List File)
  | 0, files, data, _ => if data = [] then some files else none
  | fuel+1, files, data, session =>
    if data = [] then some files
    else if files.length ≥ maxFilesPerChunk then none
    else match getFile useMetadata data session with
      | none => none
      | some (f, rest, session') => getFiles useMetadata fuel (files++[f]) rest session'

def chunkDeserialize (data : Bytes) (owner : Session) (useMetadata : Bool) : Option (List File) :=
  getFiles useMetadata data.length [] data owner

/-- The frame's own buffer is charged to the session as well. -/
def receiveChunkData (allocated : ℕ) (frame : Bytes) (useMetadata : Bool) : Option (List File) :=
  if frame.length > maxDataPayloadSize ∨ frame.length > maxChunkSize then none
  else match dataChargeSession (allocationSize frame.length) (some allocated) with
    | none => none
    | some owner => chunkDeserialize frame owner useMetadata

end FastSync.ChunkCodec
