import FastSync.ByteFile
import FastSync.StringIndex
import Mathlib.Data.List.DropRight

/-!
# The list of `--files-from`

The file is read record by record, each record ending with its delimiter. An
entry is rebuilt in place from its components, without `.` and empty ones, and
goes into a list that is then indexed. A query asks whether a path is listed, is
below a listed one or leads to one.
-/

set_option autoImplicit false

namespace FastSync.FileList
open DeletePaths (Bytes slash dot components)
open StringIndex

def utilsMaxLineLen : ℕ := 64*1024

def intMax : ℕ := 2^31-1

def newline : UInt8 := 10
def carriageReturn : UInt8 := 13

/-- One record with its delimiter and the rest of the stream; the empty record is
the end of the stream, and a record past the limit is an error. -/
def utilsGetdelimBounded (delim : UInt8) (maxLen : ℕ) : Bytes → Bytes → Option (Bytes × Bytes)
  | line, [] => some (line,[])
  | line, c::stream =>
    if line.length ≥ maxLen then none
    else if c = delim then some (line++[c],stream)
    else utilsGetdelimBounded delim maxLen (line++[c]) stream

def cString (buf : Bytes) : Bytes := buf.takeWhile fun b => decide (b ≠ 0)

structure StringList where
  items : List Bytes
  capacity : ℕ
deriving DecidableEq, Repr

def stringListAdd (list : StringList) (text : Bytes) : Option StringList :=
  if list.items.length = list.capacity then
    if list.capacity > intMax/2 then none
    else some ⟨list.items++[text],if list.capacity > 0 then list.capacity*2 else 16⟩
  else some {list with items := list.items++[text]}

section Rebuild

inductive Rebuilt where
  | unfinished
  | traversal (dup : Bytes)
  | done (dup : Bytes) (outLen : ℕ)
deriving DecidableEq, Repr

def partLength (dup : Bytes) (part : ℕ) : ℕ :=
  ((dup.drop part).takeWhile fun b => decide (b ≠ slash ∧ b ≠ 0)).length

def separate (dup : Bytes) (outLen : ℕ) : Bytes × ℕ :=
  if outLen > 0 then (dup.set outLen slash,outLen+1) else (dup,outLen)

/-- Moves a part down to the end of what is already rebuilt. -/
def appendPart (dup : Bytes) (part len outLen : ℕ) : Bytes × ℕ :=
  let dup' := (separate dup outLen).1
  let outLen' := (separate dup outLen).2
  (ByteFile.writeAt 0 dup' outLen' ((dup'.drop part).take len),outLen'+len)

def rebuild : ℕ → Bytes → ℕ → ℕ → Rebuilt
  | 0, _, _, _ => .unfinished
  | fuel+1, dup, part, outLen =>
    let len := partLength dup part
    let piece := (dup.drop part).take len
    let more := dup[part+len]? = some slash
    if piece = [dot,dot] then .traversal dup
    else
      let next := if piece = [dot] ∨ piece = [] then (dup,outLen)
        else appendPart dup part len outLen
      if more then rebuild fuel next.1 (part+len+1) next.2
      else .done (next.1.set next.2 0) next.2

end Rebuild

/-- Why an entry is refused; `absolute` and `traversal` quote what they print. -/
inductive EntryError where
  | absolute (raw : Bytes)
  | embeddedNul
  | traversal (dup : Bytes)
  | allocation
deriving DecidableEq, Repr

def stripLineEndings (raw : Bytes) : Bytes :=
  raw.rdropWhile fun b => decide (b = newline ∨ b = carriageReturn)

/-- A blank entry leaves the list as it is. -/
def normalizeEntry (raw : Bytes) (stripEndings : Bool) (out : StringList) :
    Except EntryError StringList :=
  let raw := if stripEndings then stripLineEndings raw else raw
  if raw = [] then .ok out
  else if raw.head? = some slash then .error (.absolute raw)
  else if 0 ∈ raw.take (if stripEndings then raw.length else raw.length-1) then .error .embeddedNul
  else match rebuild (raw.length+1) (raw++[0]) 0 0 with
    | .unfinished => .error .allocation
    | .traversal dup => .error (.traversal (cString dup))
    | .done dup outLen =>
      match stringListAdd out (if outLen = 0 then [] else cString dup) with
      | none => .error .allocation
      | some out => .ok out

inductive LoadError where
  | noFile
  | couldNotOpen (path : Bytes)
  | tooLong
  | entry (error : EntryError)
  | allocation
deriving DecidableEq, Repr

structure FileListSet where
  entries : List Bytes
  index : PathIndex
  wholeTree : Bool
deriving DecidableEq, Repr

section Load
variable (hash : Bytes → ℕ)

def fileListIndexBuild (entries : List Bytes) : Option FileListSet :=
  match pathIndexBuild hash entries with
  | none => none
  | some index => some ⟨entries,index,entries.any fun e => decide (e = [])⟩

/-- Every record has at least one byte, so the length of the stream is fuel enough. -/
def readEntries (nullSeparated : Bool) : ℕ → Bytes → StringList → Except LoadError StringList
  | 0, _, _ => .error .tooLong
  | fuel+1, stream, raw =>
    match utilsGetdelimBounded (if nullSeparated then 0 else newline) utilsMaxLineLen [] stream with
    | none => .error .tooLong
    | some (line,rest) =>
      if line = [] then .ok raw
      else match normalizeEntry line (!nullSeparated) raw with
        | .error error => .error (.entry error)
        | .ok raw => readEntries nullSeparated fuel rest raw

def fileListLoad (files : Bytes → Option Bytes) (path : Bytes) (nullSeparated : Bool) :
    Except LoadError FileListSet :=
  if path = [] then .error .noFile
  else match files path with
    | none => .error (.couldNotOpen path)
    | some stream =>
      match readEntries nullSeparated (stream.length+1) stream ⟨[],0⟩ with
      | .error error => .error error
      | .ok raw =>
        match fileListIndexBuild hash raw.items with
        | none => .error .allocation
        | some set => .ok set

end Load

section Queries
variable (hash : Bytes → ℕ)

def lastSlash (rel : Bytes) : ℕ → Option ℕ
  | 0 => none
  | i+1 => if rel[i]? = some slash then some i else lastSlash rel i

theorem lastSlash_lt {rel : Bytes} {len i : ℕ} (h : lastSlash rel len = some i) : i < len := by
  induction len with
  | zero => cases h
  | succ len ih =>
    rw [lastSlash] at h
    by_cases hs : rel[len]? = some slash
    · rw [if_pos hs, Option.some.injEq] at h
      omega
    · rw [if_neg hs] at h
      have := ih h
      omega

/-- Whether a directory above `rel`, cut off before `len`, is listed. -/
def ancestorListed (set : FileListSet) (rel : Bytes) (len : ℕ) : Option Bool :=
  if len > 0 then
    match hslash : lastSlash rel len with
    | none => some false
    | some i =>
      match pathIndexContainsN hash set.index rel i with
      | none => none
      | some true => some true
      | some false =>
        have := lastSlash_lt hslash
        ancestorListed set rel i
  else some false
termination_by len

def fileListAffects (set : FileListSet) (rel : Bytes) : Option Bool :=
  if set.wholeTree then some true
  else do
    if ← pathIndexContains hash set.index rel then return true
    if ← ancestorListed hash set rel rel.length then return true
    return pathIndexHasDescendant set.index rel

def fileListDirInScope (set : FileListSet) (rel : Bytes) : Option Bool :=
  if set.wholeTree then some true
  else if rel = [] then some false
  else do
    if ← ancestorListed hash set rel rel.length then return true
    pathIndexContains hash set.index rel

end Queries

end FastSync.FileList
