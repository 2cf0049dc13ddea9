import FastSync.DeleteEngineRuns
import FastSync.WireValues
import Mathlib.Algebra.Order.BigOperators.Group.List

/-!
# The statistics frame

At the end of a transfer the receiver sends its counters and the paths it
removed, or in a dry run would remove. It bounds the list by the number of its
entries. The client, which keeps the list, bounds what the entries take in its
memory as well. Paths are sent unconverted.
-/

set_option autoImplicit false

namespace FastSync.StatsFrame
open LittleEndian ByteReader WireValues DeletePaths DeleteExtras DeleteSession DeleteEngineRuns

def maxManifestEntries : ℕ := 1024*1024

def maxManifestBytes : ℕ := 16*1024*1024

def pathMax : ℕ := 4096

structure ReceiverStats where
  matchedData : UInt64
  deletedFiles : UInt64
  wouldDeleteCount : UInt64
  literalBytes : UInt64
  createdReg : UInt64
  createdDir : UInt64
  createdLink : UInt64
  createdSpecial : UInt64
deriving DecidableEq, Repr

structure ReportConfig where
  reportStats : Bool
  dryRun : Bool
  reportDeletes : Bool
deriving DecidableEq, Repr

def formatStatsSend (stats : ReceiverStats) : Bytes :=
  [stats.matchedData, stats.deletedFiles, stats.wouldDeleteCount, stats.literalBytes,
    stats.createdReg, stats.createdDir, stats.createdLink, stats.createdSpecial].flatMap
      fun v => encode 8 v.toNat

def receiveCounter : Reader Session UInt64 := do
  let v ← word 8
  pure (.ofNat v)

def formatStatsReceive : Reader Session ReceiverStats := do
  let matchedData ← receiveCounter
  let deletedFiles ← receiveCounter
  let wouldDeleteCount ← receiveCounter
  let literalBytes ← receiveCounter
  let createdReg ← receiveCounter
  let createdDir ← receiveCounter
  let createdLink ← receiveCounter
  let createdSpecial ← receiveCounter
  pure ⟨matchedData,deletedFiles,wouldDeleteCount,literalBytes,createdReg,createdDir,createdLink,
    createdSpecial⟩

def reportedPaths (config : ReportConfig) (wouldDelete deletedPaths : List Bytes) : List Bytes :=
  if config.dryRun then wouldDelete else if config.reportDeletes then deletedPaths else []

/-- The counters a frame carries; without statistics they are zero. -/
def record (stats : Option ReceiverStats) (count : ℕ) : ReceiverStats :=
  {stats.getD ⟨0,0,0,0,0,0,0,0⟩ with wouldDeleteCount := .ofNat count}

/-- What follows the status, when the peer asked for statistics. -/
def receiverSendStatsFrame (config : ReportConfig) (stats : Option ReceiverStats)
    (wouldDelete deletedPaths : List Bytes) : Option Bytes :=
  if config.reportStats then
    let paths := reportedPaths config wouldDelete deletedPaths
    let count := min paths.length maxManifestEntries
    some (formatStatsSend (record stats count)++
      (sendInt count++(paths.take count).flatMap sendStr))
  else none

/-- What the client charges for a path: its bytes, a pointer and the allocation. -/
def entrySize (path : Bytes) : ℕ := path.length+8+16

def receivePaths : ℕ → ℕ → Reader Session (List Bytes)
  | 0, _ => pure []
  | n+1, bytes => do
    let path ← receiveStr
    check (validRelPath path = true)
    check (entrySize path ≤ maxManifestBytes-bytes)
    let paths ← receivePaths n (bytes+entrySize path)
    pure (path::paths)

def receiveStatsRecord : Reader Session (ReceiverStats × List Bytes) := do
  let stats ← formatStatsReceive
  let count ← receiveInt
  check (0 ≤ count ∧ count ≤ maxManifestEntries)
  let paths ← receivePaths count.toNat 0
  pure (stats, paths)

/-- A destination-relative path as both lists hold it. -/
structure Recorded (path : Bytes) : Prop where
  valid : validRelPath path = true
  text : 0 ∉ path
  short : path.length ≤ pathMax

theorem relPath_text (p : Position) : 0 ∉ relPath p := by
  induction p using List.reverseRecOn with
  | nil => simp [relPath_nil]
  | append_singleton d n ih =>
    by_cases hd : d = []
    · subst hd
      exact n.2.2.2.1
    · rw [relPath_deep hd]
      simp [ih, n.2.2.2.1, slash]

/-- What the delete walk emits is such a path, with and without the trailing slash. -/
theorem spell_recorded {x : Extra} (hx : x.1 ≠ []) (hlen : (spell x).length ≤ pathMax) :
    Recorded (spell x) := by
  obtain ⟨p,isDir⟩ := x
  have hvalid := validRelPath_relPath p hx
  have htext := relPath_text p
  cases isDir with
  | false =>
    rw [spell, if_neg Bool.false_ne_true, List.append_nil] at hlen ⊢
    exact ⟨hvalid,htext,hlen⟩
  | true =>
    refine ⟨?_,by simpa [spell, slash] using htext,hlen⟩
    have htraversal : hasPathTraversal (relPath p++[slash]) = hasPathTraversal (relPath p) := by
      simp [hasPathTraversal, components_append, components]
    cases hr : relPath p <;> simp_all [spell, validRelPath]

section Frame
variable {paths : List Bytes} (s : Session)

theorem reads_counter {v : UInt64} : Reads receiveCounter s (encode 8 v.toNat) v s := by
  have h := reads_map (g := UInt64.ofNat) (reads_word (w := 8) v.toNat_lt s)
  rwa [UInt64.ofNat_toNat] at h

theorem reads_stats {stats : ReceiverStats} :
    Reads formatStatsReceive s (formatStatsSend stats) stats s := by
  simp only [formatStatsSend, List.flatMap_cons, List.flatMap_nil, List.append_nil]
  iterate 7 refine reads_bind (reads_counter s) ?_
  exact reads_map (reads_counter s)

/-- The client may allocate each of the strings, and they fit into its budget, of
which some is already spent. -/
def Affordable (bytes : ℕ) (paths : List Bytes) : Prop :=
  (∀ path ∈ paths, s.maxAlloc = 0 ∨ path.length+1 ≤ s.maxAlloc) ∧
    bytes+(paths.map entrySize).sum ≤ maxManifestBytes

theorem decides_paths (h : ∀ path ∈ paths, Recorded path) (bytes : ℕ)
    (hb : bytes ≤ maxManifestBytes) : Decides (receivePaths paths.length bytes) s
      (paths.flatMap sendStr) (Affordable s bytes paths) paths s := by
  induction paths generalizing bytes with
  | nil => exact decides_congr (by simp [Affordable, hb]) (decides_pure [] s)
  | cons path paths ih =>
    have hpath := h path (by simp)
    have hlen : path.length ≤ maxStringSize := le_trans hpath.short (by decide)
    have hstr := decides_receiveStr hpath.text (lt_of_le_of_lt hlen (by decide)) s
    refine decides_congr ?_ (decides_bind hstr fun _ => decides_check fun _ =>
      decides_check fun hroom => decides_map (ih (fun p hp => h p (.tail _ hp))
        (bytes+entrySize path) (by omega)))
    simp only [hlen, hpath.valid, Affordable, List.map_cons, List.sum_cons, List.forall_mem_cons,
      true_and]
    constructor
    · rintro ⟨hone,-,hall,hsum⟩
      exact ⟨⟨hone,hall⟩,by omega⟩
    · rintro ⟨⟨hone,hall⟩,hsum⟩
      exact ⟨hone,by omega,hall,by omega⟩

variable (config : ReportConfig) (stats : Option ReceiverStats)
  (wouldDelete deletedPaths : List Bytes) (hreport : config.reportStats = true)
  (hpaths : ∀ path ∈ reportedPaths config wouldDelete deletedPaths, Recorded path)
include hreport hpaths

theorem decides_frame (hcount : (reportedPaths config wouldDelete deletedPaths).length ≤ 100000) :
    let paths := reportedPaths config wouldDelete deletedPaths
    ∃ frame, receiverSendStatsFrame config stats wouldDelete deletedPaths = some frame ∧
      Decides receiveStatsRecord s frame (Affordable s 0 paths)
        (record stats paths.length, paths) s := by
  intro paths
  have hle : paths.length ≤ maxManifestEntries := le_trans hcount (by decide)
  have hint : Reads receiveInt s (sendInt paths.length) paths.length s :=
    reads_int ⟨by omega,by simp only [paths]; omega⟩ s
  have hread := decides_paths s hpaths 0 (Nat.zero_le _)
  refine ⟨formatStatsSend (record stats paths.length)++
    (sendInt paths.length++paths.flatMap sendStr),?_,decides_read (reads_stats s)
    (decides_read hint (decides_congr ?_ (decides_check fun _ => decides_map hread)))⟩
  · rw [receiverSendStatsFrame, if_pos hreport]
    simp only [paths, Nat.min_eq_left hle, List.take_length]
  · exact and_iff_right ⟨by omega,by exact_mod_cast hle⟩

/-- The client takes a frame, with the counters and the list that were sent,
exactly when the entries stay within its byte budget and its allocation ceiling. -/
theorem stats_frame_accepted_iff
    (hcount : (reportedPaths config wouldDelete deletedPaths).length ≤ 100000) :
    let paths := reportedPaths config wouldDelete deletedPaths
    ∃ frame, receiverSendStatsFrame config stats wouldDelete deletedPaths = some frame ∧
      (Reads receiveStatsRecord s frame (record stats paths.length, paths) s ↔
        Affordable s 0 paths) := by
  intro paths
  obtain ⟨frame,hframe,h⟩ :=
    decides_frame s config stats wouldDelete deletedPaths hreport hpaths hcount
  refine ⟨frame,hframe,fun hreads => ?_,h.reads⟩
  by_contra hlarge
  have hnone := hreads []
  rw [h.refuses hlarge []] at hnone
  cases hnone

end Frame

theorem removal_accepted : ∃ frame,
    receiverSendStatsFrame ⟨true,true,false⟩ none [[97]] [] = some frame ∧
      Reads receiveStatsRecord ⟨0,0⟩ frame (record none 1, [[97]]) ⟨0,0⟩ := by
  have hone : ∀ path ∈ [[97]], Recorded path := by
    simpa using Recorded.mk (by decide) (by decide) (by decide)
  obtain ⟨frame,hframe,hiff⟩ :=
    stats_frame_accepted_iff ⟨0,0⟩ ⟨true,true,false⟩ none [[97]] [] rfl hone (by decide)
  exact ⟨frame,hframe,hiff.mpr ⟨fun _ _ => .inl rfl,by decide⟩⟩

def longName (k : ℕ) : Name :=
  ⟨List.replicate (k+1) 97,by simp [ValidName, slash, dot, List.replicate_succ]⟩

/-- Files fifteen levels below the root of the destination. -/
def deepFile (i : ℕ) : Extra :=
  (List.replicate 14 (longName 249)++[longName (200+i/250)]++[longName (i%250)], false)

theorem deepFile_length (i : ℕ) : (spell (deepFile i)).length = 3717+i/250+i%250 := by
  have hbase : (relPath (List.replicate 14 (longName 249))).length = 3513 := by decide +kernel
  show (relPath (deepFile i).1++[]).length = _
  rw [List.append_nil, deepFile, relPath_deep (by simp), relPath_deep (by simp)]
  rw [List.length_append, List.length_append, hbase]
  simp only [List.length_cons, longName, List.length_replicate]
  omega

/-- A dry run that would remove 4500 such files sends a frame the client gives up on. -/
theorem deep_removals_refused :
    let wouldDelete := (List.range 4500).map fun i => spell (deepFile i)
    (∀ path ∈ wouldDelete, Recorded path) ∧
      ∃ frame, receiverSendStatsFrame ⟨true,true,false⟩ none wouldDelete [] = some frame ∧
        Refuses receiveStatsRecord ⟨0,0⟩ frame := by
  intro wouldDelete
  have hrecorded : ∀ path ∈ wouldDelete, Recorded path := by
    intro path hpath
    obtain ⟨i,hi,rfl⟩ := List.mem_map.mp hpath
    refine spell_recorded (by simp [deepFile]) ?_
    rw [deepFile_length, pathMax]
    rw [List.mem_range] at hi
    omega
  have hlength : wouldDelete.length = 4500 := by simp [wouldDelete]
  obtain ⟨frame,hframe,h⟩ := decides_frame ⟨0,0⟩ ⟨true,true,false⟩ none wouldDelete [] rfl
    hrecorded (hlength ▸ by decide)
  refine ⟨hrecorded,frame,hframe,h.refuses fun hfits => ?_⟩
  have hlarge := List.card_nsmul_le_sum (wouldDelete.map entrySize) 3741 (by
    simp [wouldDelete, entrySize, deepFile_length]
    omega)
  rw [List.length_map, hlength] at hlarge
  exact absurd (le_trans hlarge (Nat.zero_add _ ▸ hfits.2)) (by decide)

end FastSync.StatsFrame
