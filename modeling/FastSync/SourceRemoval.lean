import Mathlib.Data.List.Basic

/-!
# Removing transferred source files

With `--remove-source-files` the sender records the sources it transmits and
the receiver acknowledges the files it stores; the acknowledgements carry no
names and are matched by position. Each end decides on its own which entries
enter its list.
-/

set_option autoImplicit false

namespace FastSync.SourceRemoval

inductive FileSaveResult where
  | error
  | written
  | skipped
  | failed
deriving DecidableEq, Repr

inductive Status where
  | ok
  | next
  | error
  | deleteLimit
deriving DecidableEq, Repr

structure Config where
  useChunkSerialization : Bool
  useIncremental : Bool
deriving DecidableEq, Repr

structure SourceStat where
  regular : Bool
  device : ℕ
  inode : ℕ
deriving DecidableEq, Repr

/-- A scanned entry, with what `lstat` says about its path. A path that names a
regular file was not scanned as a directory, a link or a special node. -/
structure File where
  path : List UInt8
  isDir : Bool
  isSymlink : Bool
  isSpecial : Bool
  linkGroup : ℕ
  linkFirst : Bool
  hardlinkTarget : Option (List UInt8)
  lstat : Option SourceStat
  regular_kind : ∀ st, lstat = some st → st.regular = true →
    isDir = false ∧ isSymlink = false ∧ isSpecial = false

/-- What the receiver makes of an incremental check: it wants the data, it has
the file, or it installs the file from a basis directory. -/
inductive CheckReply where
  | transfer
  | unchanged
  | materialized
deriving DecidableEq, Repr

/-- One transmitted entry, and what the receiver's check and save of it give. -/
structure Entry where
  file : File
  check : CheckReply
  result : FileSaveResult

/-- A recorded source: the entry its path is taken from, and the file that was
there. -/
structure SourceFile where
  entry : Entry
  stat : SourceStat
  skipped : Bool

def sourceFileCreate (e : Entry) : Option SourceFile :=
  match e.file.lstat with
  | none => none
  | some st => if st.regular then some ⟨e,st,false⟩ else none

def rememberSourceFile (paths : List SourceFile) (e : Entry) : List SourceFile :=
  match sourceFileCreate e with
  | none => paths
  | some source => paths++[source]

inductive Frame where
  | chunk (entries : List Entry)
  | mkdir (e : Entry)
  | hardlink (e : Entry)
  | symlink (e : Entry)
  | special (e : Entry)
  | check (e : Entry)
  | next (e : Entry)

def isSibling (f : File) : Bool := decide (f.linkGroup ≠ 0) && !f.linkFirst && f.hardlinkTarget.isSome

/-- Sends the data of one file; the second part is false when the receiver's
check makes that unnecessary. -/
def sendSingleFile (cfg : Config) (e : Entry) : Frame × Bool :=
  if !cfg.useIncremental then (.next e, true) else (.check e, decide (e.check = .transfer))

def sendEntry (cfg : Config) (e : Entry) (removeSources : List SourceFile) :
    List SourceFile × Frame :=
  if e.file.isDir then (removeSources, .mkdir e)
  else if isSibling e.file then (removeSources, .hardlink e)
  else if e.file.isSymlink then (removeSources, .symlink e)
  else if e.file.isSpecial then (removeSources, .special e)
  else
    let r := sendSingleFile cfg e
    (if r.2 then rememberSourceFile removeSources e else removeSources, r.1)

def sendEntries (cfg : Config) : List Entry → List SourceFile → List SourceFile × List Frame
  | [], removeSources => (removeSources, [])
  | e::es, removeSources =>
    let r := sendEntry cfg e removeSources
    let rest := sendEntries cfg es r.1
    (rest.1, r.2::rest.2)

def sendChunkWithRemoval (cfg : Config) (chunk : List Entry) (removeSources : List SourceFile) :
    List SourceFile × List Frame :=
  if cfg.useChunkSerialization then (chunk.foldl rememberSourceFile removeSources, [.chunk chunk])
  else sendEntries cfg chunk removeSources

def sendChunks (cfg : Config) : List (List Entry) → List SourceFile → List SourceFile × List Frame
  | [], removeSources => (removeSources, [])
  | chunk::chunks, removeSources =>
    let r := sendChunkWithRemoval cfg chunk removeSources
    let rest := sendChunks cfg chunks r.1
    (rest.1, r.2++rest.2)

structure ReceivedFile where
  isDir : Bool
  isSpecial : Bool
  skip : Bool
  result : FileSaveResult
deriving DecidableEq, Repr

/-- An entry of a serialized chunk. One type marker stands for the three flags. -/
def chunkEntry (e : Entry) : ReceivedFile :=
  let entryType := if e.file.isDir then 1 else if e.file.isSymlink then 2
    else if e.file.isSpecial then 3 else 0
  ⟨decide (entryType = 1),decide (entryType = 3),false,e.result⟩

/-- The files a frame hands to the sink. A file that stands in a basis directory
is stored and never acknowledged. -/
def frameFiles : Frame → List ReceivedFile
  | .chunk entries => entries.map chunkEntry
  | .mkdir e => [⟨true,false,false,e.result⟩]
  | .hardlink e => [⟨false,false,false,e.result⟩]
  | .symlink e => [⟨false,false,false,e.result⟩]
  | .special e => [⟨false,true,false,e.result⟩]
  | .next e => [⟨false,false,false,e.result⟩]
  | .check e =>
    match e.check with
    | .transfer => [⟨false,false,false,e.result⟩]
    | .unchanged => []
    | .materialized => [⟨false,false,true,e.result⟩]

def receiverSaveFile (f : ReceivedFile) (outcomes : List FileSaveResult) :
    Option (List FileSaveResult) :=
  if f.result = .error then none
  else if !f.isDir && !f.isSpecial && !f.skip then some (outcomes++[f.result])
  else some outcomes

def receiverSaveFiles : List ReceivedFile → List FileSaveResult → Option (List FileSaveResult)
  | [], outcomes => some outcomes
  | f::fs, outcomes =>
    match receiverSaveFile f outcomes with
    | none => none
    | some outcomes => receiverSaveFiles fs outcomes

/-- The acknowledgements of a stream; `none` when a save fails. -/
def receiverOutcomes (frames : List Frame) : Option (List FileSaveResult) :=
  receiverSaveFiles (frames.flatMap frameFiles) []

def ackStatus : FileSaveResult → Status
  | .written => .next
  | .failed => .error
  | _ => .ok

def receiverSendFinalSuccess (outcomes : List FileSaveResult) (finalStatus : Status) :
    List Status :=
  outcomes.map ackStatus++[finalStatus]

def readAcks : List SourceFile → List Status → Option (List SourceFile × List Status)
  | [], stream => some ([], stream)
  | _::_, [] => none
  | source::sources, status::stream =>
    match status with
    | .ok => (readAcks sources stream).map fun r => ({ source with skipped := true }::r.1, r.2)
    | .next => (readAcks sources stream).map fun r => (source::r.1, r.2)
    | _ => none

/-- The sender's end of the transfer: its list with the skipped sources marked,
or `none` when the transfer fails and nothing is removed. -/
def finalizeTransfer (removeSources : List SourceFile) (stream : List Status) :
    Option (List SourceFile) :=
  match readAcks removeSources stream with
  | none => none
  | some (marked, rest) =>
    match rest with
    | .ok::_ => some marked
    | .deleteLimit::_ => some marked
    | _ => none

/-- The sources the sender unlinks: the ones without a mark whose path still
names the recorded file. -/
def removeTransferredSources (lstatNow : List UInt8 → Option SourceStat)
    (marked : List SourceFile) : List SourceFile :=
  marked.filter fun source => !source.skipped &&
    match lstatNow source.entry.file.path with
    | none => false
    | some st => st.regular && decide (st.device = source.stat.device) &&
        decide (st.inode = source.stat.inode)

section Lists
variable (cfg : Config)

def recordOf (e : Entry) : Option SourceFile :=
  if cfg.useChunkSerialization then sourceFileCreate e
  else if e.file.isDir || isSibling e.file || e.file.isSymlink || e.file.isSpecial then none
  else if (sendSingleFile cfg e).2 then sourceFileCreate e else none

/-- The file of one entry that reaches the receiver's sink. -/
def storedOf (e : Entry) : List ReceivedFile :=
  if cfg.useChunkSerialization then [chunkEntry e] else frameFiles (sendEntry cfg e []).2

def acknowledgement (f : ReceivedFile) : Option FileSaveResult :=
  if !f.isDir && !f.isSpecial && !f.skip then some f.result else none

variable {cfg}

theorem rememberSourceFile_eq (paths : List SourceFile) (e : Entry) :
    rememberSourceFile paths e = paths++(sourceFileCreate e).toList := by
  unfold rememberSourceFile
  cases sourceFileCreate e <;> simp

theorem rememberAll_eq {es : List Entry} (paths : List SourceFile) :
    es.foldl rememberSourceFile paths = paths++es.filterMap sourceFileCreate := by
  induction es generalizing paths with
  | nil => simp
  | cons e es ih =>
    rw [List.foldl_cons,ih,rememberSourceFile_eq]
    cases h : sourceFileCreate e <;> simp [h]

theorem sendEntry_eq (hs : cfg.useChunkSerialization = false) (e : Entry)
    (sources : List SourceFile) :
    sendEntry cfg e sources = (sources++(recordOf cfg e).toList, (sendEntry cfg e []).2) := by
  unfold sendEntry recordOf
  rw [hs]
  cases e.file.isDir <;> cases isSibling e.file <;> cases e.file.isSymlink <;>
    cases e.file.isSpecial <;> cases h : (sendSingleFile cfg e).2 <;>
    simp [h,rememberSourceFile_eq]

theorem sendEntries_eq (hs : cfg.useChunkSerialization = false) {es : List Entry}
    (sources : List SourceFile) :
    (sendEntries cfg es sources).1 = sources++es.filterMap (recordOf cfg) ∧
      (sendEntries cfg es sources).2.flatMap frameFiles = es.flatMap (storedOf cfg) := by
  induction es generalizing sources with
  | nil => simp [sendEntries]
  | cons e es ih =>
    have hstored : storedOf cfg e = frameFiles (sendEntry cfg e []).2 := by
      rw [storedOf,hs]
      rfl
    rw [sendEntries,sendEntry_eq hs]
    obtain ⟨h1,h2⟩ := ih (sources++(recordOf cfg e).toList)
    refine ⟨?_,?_⟩
    · dsimp only
      rw [h1]
      cases h : recordOf cfg e <;> simp [h]
    · simp [h2,hstored]

/-- What a whole transfer leaves on both ends, entry by entry. -/
theorem sendChunks_eq (chunks : List (List Entry)) (sources : List SourceFile) :
    (sendChunks cfg chunks sources).1 = sources++chunks.flatten.filterMap (recordOf cfg) ∧
      (sendChunks cfg chunks sources).2.flatMap frameFiles =
        chunks.flatten.flatMap (storedOf cfg) := by
  induction chunks generalizing sources with
  | nil => simp [sendChunks]
  | cons chunk chunks ih =>
    have hchunk : (sendChunkWithRemoval cfg chunk sources).1 =
        sources++chunk.filterMap (recordOf cfg) ∧
        (sendChunkWithRemoval cfg chunk sources).2.flatMap frameFiles =
          chunk.flatMap (storedOf cfg) := by
      unfold sendChunkWithRemoval
      cases hs : cfg.useChunkSerialization with
      | false =>
        exact sendEntries_eq hs sources
      | true =>
        have hrec : recordOf cfg = sourceFileCreate := by
          funext e
          rw [recordOf,hs,if_pos rfl]
        have hsto : storedOf cfg = fun e => [chunkEntry e] := by
          funext e
          rw [storedOf,hs,if_pos rfl]
        rw [if_pos rfl,hrec,hsto]
        refine ⟨rememberAll_eq sources,?_⟩
        simp [frameFiles,← List.map_eq_flatMap]
    obtain ⟨h1,h2⟩ := ih (sendChunkWithRemoval cfg chunk sources).1
    rw [sendChunks,List.flatten_cons,List.filterMap_append,List.flatMap_append]
    refine ⟨?_,?_⟩
    · dsimp only
      rw [h1,hchunk.1,List.append_assoc]
    · rw [List.flatMap_append,h2,hchunk.2]

theorem receiverSaveFiles_eq {fs : List ReceivedFile} (outcomes r : List FileSaveResult)
    (h : receiverSaveFiles fs outcomes = some r) :
    r = outcomes++fs.filterMap acknowledgement ∧ ∀ f ∈ fs, f.result ≠ .error := by
  induction fs generalizing outcomes with
  | nil =>
    cases h
    simp
  | cons f fs ih =>
    rw [receiverSaveFiles] at h
    split at h
    · cases h
    · rename_i mid hmid
      obtain ⟨hr,hok⟩ := ih mid h
      unfold receiverSaveFile at hmid
      split_ifs at hmid with herr hack <;> cases hmid
      · refine ⟨?_,by simpa [herr] using hok⟩
        rw [hr,List.filterMap_cons,acknowledgement,if_pos hack]
        simp
      · refine ⟨?_,by simpa [herr] using hok⟩
        rw [hr,List.filterMap_cons,acknowledgement,if_neg hack]

variable (cfg)

def acked (e : Entry) : Bool :=
  !e.file.isDir &&
    if cfg.useChunkSerialization then e.file.isSymlink || !e.file.isSpecial
    else isSibling e.file || e.file.isSymlink ||
      (!e.file.isSpecial && (!cfg.useIncremental || decide (e.check = .transfer)))

def SourceRegular (e : Entry) : Prop := ∃ st, e.file.lstat = some st ∧ st.regular = true

/-- Both ends agree on whether the entry counts: it is a directory or a node the
receiver recreates, its data is not sent, or its own path names a regular file
and it is not sent as a hard link. -/
def Accounted (e : Entry) : Prop :=
  e.file.isDir = true ∨
    (e.file.isSpecial = true ∧ e.file.isSymlink = false ∧
      (cfg.useChunkSerialization = true ∨ isSibling e.file = false)) ∨
    (cfg.useChunkSerialization = false ∧ cfg.useIncremental = true ∧ e.check ≠ .transfer ∧
      isSibling e.file = false ∧ e.file.isSymlink = false) ∨
    (SourceRegular e ∧ (cfg.useChunkSerialization = true ∨ isSibling e.file = false))

variable {cfg}

theorem storedOf_acked (e : Entry) :
    (storedOf cfg e).filterMap acknowledgement = if acked cfg e then [e.result] else [] := by
  cases hs : cfg.useChunkSerialization with
  | true =>
    cases hd : e.file.isDir <;> cases hl : e.file.isSymlink <;> cases hsp : e.file.isSpecial <;>
      simp [storedOf,acked,chunkEntry,acknowledgement,hs,hd,hl,hsp]
  | false =>
    -- the tests of the per-file loop, in their order
    simp only [storedOf,acked,sendEntry,sendSingleFile,hs,Bool.false_eq_true,if_false]
    cases e.file.isDir
    case true => simp [frameFiles,acknowledgement]
    cases isSibling e.file
    case true => simp [frameFiles,acknowledgement]
    cases e.file.isSymlink
    case true => simp [frameFiles,acknowledgement]
    cases e.file.isSpecial
    case true => simp [frameFiles,acknowledgement]
    by_cases hi : cfg.useIncremental = true
    case neg => simp [frameFiles,acknowledgement,hi]
    have hcheck : e.check = .transfer ∨ e.check = .unchanged ∨ e.check = .materialized := by
      cases e.check <;> simp
    rcases hcheck with hc | hc | hc <;> simp [frameFiles,acknowledgement,hi,hc]

variable {e : Entry}

theorem sourceFileCreate_regular : (sourceFileCreate e).isSome ↔ SourceRegular e := by
  unfold sourceFileCreate SourceRegular
  cases e.file.lstat with
  | none => simp
  | some st => by_cases h : st.regular <;> simp [h]

theorem sourceFileCreate_entry {source : SourceFile}
    (h : sourceFileCreate e = some source) : source.entry = e ∧ source.skipped = false := by
  unfold sourceFileCreate at h
  split at h
  · cases h
  · split_ifs at h
    cases h
    exact ⟨rfl,rfl⟩

theorem recordOf_some {source : SourceFile} (h : recordOf cfg e = some source) :
    sourceFileCreate e = some source := by
  unfold recordOf at h
  split_ifs at h <;> exact h

theorem sourceRegular_kind (h : SourceRegular e) :
    e.file.isDir = false ∧ e.file.isSymlink = false ∧ e.file.isSpecial = false := by
  obtain ⟨st,hst,hreg⟩ := h
  exact e.file.regular_kind st hst hreg

theorem recordOf_isSome {e : Entry} : (recordOf cfg e).isSome ↔ SourceRegular e ∧
    (cfg.useChunkSerialization = true ∨
      isSibling e.file = false ∧ (cfg.useIncremental = false ∨ e.check = .transfer)) := by
  have hkind := sourceRegular_kind (e := e)
  have hreg := sourceFileCreate_regular (e := e)
  unfold recordOf sendSingleFile
  cases hs : cfg.useChunkSerialization with
  | true => simpa using hreg
  | false =>
    by_cases hr : SourceRegular e
    · obtain ⟨hd,hl,hsp⟩ := hkind hr
      have hsome := hreg.mpr hr
      cases hsib : isSibling e.file <;> cases hi : cfg.useIncremental <;>
        by_cases hc : e.check = .transfer <;> simp [hd,hl,hsp,hc,hr,hsome]
    · have hnone : sourceFileCreate e = none := by
        rw [← Option.not_isSome_iff_eq_none,hreg]
        exact hr
      simp [hr,hnone]

theorem acked_iff (e : Entry) : acked cfg e = true ↔ e.file.isDir = false ∧
    (if cfg.useChunkSerialization then e.file.isSymlink = true ∨ e.file.isSpecial = false
      else isSibling e.file = true ∨ e.file.isSymlink = true ∨
        e.file.isSpecial = false ∧ (cfg.useIncremental = false ∨ e.check = .transfer)) := by
  unfold acked
  cases cfg.useChunkSerialization <;> simp [or_assoc]

/-- The sender records nothing the receiver does not acknowledge. -/
theorem recordOf_acked (h : (recordOf cfg e).isSome) : acked cfg e = true := by
  obtain ⟨hr,hmode⟩ := recordOf_isSome.mp h
  obtain ⟨hd,hl,hsp⟩ := sourceRegular_kind hr
  rw [acked_iff]
  refine ⟨hd,?_⟩
  split_ifs with hs
  · exact .inr hsp
  · exact .inr (.inr ⟨hsp,(hmode.resolve_left hs).2⟩)

theorem accounted_iff {e : Entry} :
    Accounted cfg e ↔ (acked cfg e = true → (recordOf cfg e).isSome) := by
  have hkind := sourceRegular_kind (e := e)
  rw [acked_iff,recordOf_isSome,Accounted]
  cases hs : cfg.useChunkSerialization <;> cases hd : e.file.isDir <;>
    cases hl : e.file.isSymlink <;> cases hsp : e.file.isSpecial <;>
    simp only [hd,hl,hsp,Bool.false_eq_true,Bool.true_eq_false,if_true,if_false] at hkind ⊢ <;>
    grind

theorem acks_of_accounted {es : List Entry} (h : ∀ e ∈ es, Accounted cfg e) :
    (es.flatMap (storedOf cfg)).filterMap acknowledgement =
      (es.filterMap (recordOf cfg)).map fun source => source.entry.result := by
  induction es with
  | nil => rfl
  | cons e es ih =>
    have hrest := ih fun e he => h e (List.mem_cons_of_mem _ he)
    rw [List.flatMap_cons,List.filterMap_append,storedOf_acked,List.filterMap_cons,hrest]
    cases hrec : recordOf cfg e with
    | none =>
      have hack : ¬acked cfg e = true := by
        intro hack
        have := accounted_iff.mp (h e (by simp)) hack
        rw [hrec] at this
        cases this
      rw [if_neg hack]
      rfl
    | some source =>
      rw [if_pos (recordOf_acked (by rw [hrec]; rfl)),List.map_cons,
        (sourceFileCreate_entry (recordOf_some hrec)).1]
      rfl

theorem accounted_of_length (es : List Entry)
    (h : ((es.flatMap (storedOf cfg)).filterMap acknowledgement).length =
      (es.filterMap (recordOf cfg)).length) : ∀ e ∈ es, Accounted cfg e := by
  have hcount : ∀ es : List Entry, ((es.flatMap (storedOf cfg)).filterMap acknowledgement).length =
      es.countP (acked cfg) := by
    intro es
    induction es with
    | nil => rfl
    | cons e es ih =>
      rw [List.flatMap_cons,List.filterMap_append,List.length_append,ih,storedOf_acked,
        List.countP_cons]
      split_ifs <;> simp [Nat.add_comm]
  have hle : ∀ es : List Entry, es.countP (fun e => (recordOf cfg e).isSome) ≤
      es.countP (acked cfg) := fun es => List.countP_mono_left fun e _ he => recordOf_acked he
  rw [hcount,List.length_filterMap_eq_countP] at h
  induction es with
  | nil => simp
  | cons e es ih =>
    rw [List.countP_cons,List.countP_cons] at h
    have htail := hle es
    have hhead : (recordOf cfg e).isSome → acked cfg e = true := recordOf_acked
    have hboth : es.countP (acked cfg) = es.countP (fun e => (recordOf cfg e).isSome) ∧
        (acked cfg e = true → (recordOf cfg e).isSome) := by
      split_ifs at h with h1 h2 h2
      · exact ⟨by omega,fun _ => h2⟩
      · omega
      · exact absurd (hhead h2) h1
      · exact ⟨by omega,fun h3 => absurd h3 h1⟩
    intro x hx
    rcases List.mem_cons.mp hx with rfl | hx
    · exact accounted_iff.mpr hboth.2
    · exact ih hboth.1 x hx

theorem readAcks_aligned {sources : List SourceFile} {outcomes : List FileSaveResult}
    (hal : outcomes = sources.map fun source => source.entry.result) {tail : List Status}
    (marked : List SourceFile) {rest : List Status}
    (h : readAcks sources (outcomes.map ackStatus++tail) = some (marked, rest)) :
    ∀ source ∈ marked, source.skipped = false → source.entry.result = .written := by
  subst hal
  induction sources generalizing marked with
  | nil =>
    cases h
    simp
  | cons source sources ih =>
    simp only [List.map_cons,List.cons_append,readAcks] at h
    cases hres : source.entry.result <;> rw [hres] at h <;>
      simp only [ackStatus,Option.map_eq_some_iff,Prod.exists,Prod.mk.injEq,reduceCtorEq] at h
    all_goals
      obtain ⟨m,r,hm,rfl,rfl⟩ := h
      intro x hx hskip
      rcases List.mem_cons.mp hx with rfl | hx
    · cases hskip
    · exact ih _ hm x hx hskip
    · exact hres
    · exact ih _ hm x hx hskip
    · cases hskip
    · exact ih _ hm x hx hskip

end Lists

section Results
variable (cfg : Config)

/-- A transfer that completes keeps the two lists aligned, and the sender then
unlinks written sources only, exactly when every transmitted entry is accounted
for on both ends. -/
theorem removal_aligned_iff (chunks : List (List Entry)) (outcomes : List FileSaveResult)
    (finalStatus : Status) (lstatNow : List UInt8 → Option SourceStat)
    (h : receiverOutcomes (sendChunks cfg chunks []).2 = some outcomes) :
    let sources := (sendChunks cfg chunks []).1
    (outcomes.length = sources.length ∧
      (∀ i : ℕ, outcomes[i]? = (sources[i]?).map fun source : SourceFile => source.entry.result) ∧
      ∀ marked, finalizeTransfer sources (receiverSendFinalSuccess outcomes finalStatus) =
          some marked →
        ∀ source ∈ removeTransferredSources lstatNow marked, source.entry.result = .written) ↔
      ∀ e ∈ chunks.flatten, Accounted cfg e := by
  intro sources
  obtain ⟨hsrc,hfiles⟩ := @sendChunks_eq cfg chunks []
  obtain ⟨hout,-⟩ := receiverSaveFiles_eq _ _ h
  rw [List.nil_append,hfiles] at hout
  rw [List.nil_append] at hsrc
  constructor
  · rintro ⟨hlen,-⟩
    apply accounted_of_length
    rw [← hout,hlen,show sources = _ from hsrc]
  · intro hacc
    have hal : outcomes = sources.map fun source => source.entry.result := by
      rw [hout,show sources = _ from hsrc,acks_of_accounted hacc]
    refine ⟨by rw [hal,List.length_map],fun i => by rw [hal,List.getElem?_map],?_⟩
    intro marked hfin source hmem
    unfold finalizeTransfer at hfin
    split at hfin
    · cases hfin
    · rename_i m rest hread
      have hmarked : m = marked := by
        split at hfin <;> cases hfin <;> rfl
      obtain ⟨hm,hkeep⟩ := List.mem_filter.mp hmem
      rw [Bool.and_eq_true,Bool.not_eq_true'] at hkeep
      exact readAcks_aligned hal m hread source (hmarked ▸ hm) hkeep.1

end Results

def dataFile : File where
  path := [100]
  isDir := false
  isSymlink := false
  isSpecial := false
  linkGroup := 0
  linkFirst := false
  hardlinkTarget := none
  lstat := some ⟨true,1,2⟩
  regular_kind := by simp

def linkFile : File where
  path := [108]
  isDir := false
  isSymlink := true
  isSpecial := false
  linkGroup := 0
  linkFirst := false
  hardlinkTarget := none
  lstat := some ⟨false,1,3⟩
  regular_kind := by simp

/-- A link the receiver writes, then a file it leaves alone. -/
def linkThenFile (serialized : Bool) :=
  sendChunks ⟨serialized,false⟩ [[⟨linkFile,.transfer,.written⟩,⟨dataFile,.transfer,.skipped⟩]] []

/-- The link's acknowledgement is taken for the file's, and the sender removes
the file, with and without chunk serialization. -/
theorem removal_of_skipped_source :
    (receiverOutcomes (linkThenFile false).2 = some [.written, .skipped] ∧
      ((finalizeTransfer (linkThenFile false).1
        (receiverSendFinalSuccess [.written, .skipped] .ok)).map fun marked =>
          (removeTransferredSources (fun _ => some ⟨true,1,2⟩) marked).map
            fun source => source.entry.result) = some [.skipped]) ∧
    receiverOutcomes (linkThenFile true).2 = some [.written, .skipped] ∧
      ((finalizeTransfer (linkThenFile true).1
        (receiverSendFinalSuccess [.written, .skipped] .ok)).map fun marked =>
          (removeTransferredSources (fun _ => some ⟨true,1,2⟩) marked).map
            fun source => source.entry.result) = some [.skipped] := by
  exact ⟨⟨rfl,rfl⟩,rfl,rfl⟩

theorem removal_aligned_single_file :
    (finalizeTransfer (sendChunks ⟨false,false⟩ [[⟨dataFile,.transfer,.written⟩]] []).1
        (receiverSendFinalSuccess [.written] .ok)).isSome ∧
      ∀ marked, finalizeTransfer (sendChunks ⟨false,false⟩ [[⟨dataFile,.transfer,.written⟩]] []).1
          (receiverSendFinalSuccess [.written] .ok) = some marked →
        ∀ source ∈ removeTransferredSources (fun _ => some ⟨true,1,2⟩) marked,
          source.entry.result = .written := by
  have hiff := removal_aligned_iff ⟨false,false⟩ [[⟨dataFile,.transfer,.written⟩]] [.written] .ok
    (fun _ => some ⟨true,1,2⟩) rfl
  refine ⟨rfl,(hiff.mpr fun e he => ?_).2.2⟩
  rw [List.mem_singleton.mp he]
  exact .inr (.inr (.inr ⟨⟨⟨true,1,2⟩,rfl,rfl⟩,.inr rfl⟩))

end FastSync.SourceRemoval
