import FastSync.ChunkRoundtrip
import FastSync.ScanAgreement

/-!
# Whether the receiver accepts the chunks of a scan

The scanners cut a chunk when the sizes of its payloads add up; the receiver
bounds the frame, the number of records and every field on its own.
-/

set_option autoImplicit false

namespace FastSync.ChunkAcceptance
open CheckedMemory ChunkCodec ChunkRoundtrip
open DeletePaths (Bytes hasPathTraversal)
open ScanEntries (ScannerOptions Path)
open ScanSequential (SourceDir Event)
open ScanParallel (ParallelRun sequentialRun)

variable {ρ : Type}

/-- The chunks a scan of the directory may hand out, from either scanner. -/
def Emitted (opts : ScannerOptions ρ) (rootDirectory : Path) (dir : SourceDir ρ)
    (chunk : List ScanEntries.File) : Prop :=
  Event.chunk chunk ∈ sequentialRun opts rootDirectory dir ∨
    ∃ out, ParallelRun opts rootDirectory dir out ∧ Event.chunk chunk ∈ out

/-- The file in memory that an entry of a scan becomes once its payload has been
read in full. -/
structure Carries (useMetadata : Bool) (e : ScanEntries.File) (f : File) : Prop where
  wirePath : (fileWirePath f).1 = e.wirePath
  isDir : f.isDir = decide (e.kind = .dir)
  isSymlink : f.isSymlink = decide (e.kind = .symlink)
  isSpecial : f.isSpecial = decide (e.kind = .special)
  loaded : Loaded f
  size : f.data.size = e.size
  target : f.symlinkTarget.map Subtype.val = e.symlinkTarget
  metadata : f.metadata.isSome = useMetadata

def recordSize (useMetadata : Bool) (e : ScanEntries.File) : ℕ :=
  8+(e.wirePath.length+((if useMetadata then 4+fileMetadataWireSize else 0)+
    (4+((if e.kind = .special then 2*4 else 0)+(8+(e.size+
      (if e.kind = .symlink then 8+(e.symlinkTarget.getD []).length else 0)))))))

def frameSize (useMetadata : Bool) (chunk : List ScanEntries.File) : ℕ :=
  (chunk.map (recordSize useMetadata)).sum

variable {useMetadata : Bool}

theorem carries_exclusive {e : ScanEntries.File} {f : File}
    (h : Carries useMetadata e f) : Exclusive f := by
  unfold Exclusive
  rw [h.isDir, h.isSymlink, h.isSpecial]
  cases e.kind <;> decide

variable {files : List File}

theorem carried_exclusive {chunk : List ScanEntries.File}
    (h : List.Forall₂ (Carries useMetadata) chunk files) : ∀ f ∈ files, Exclusive f := by
  induction h with
  | nil => simp
  | cons hf _ ih => exact List.forall_mem_cons.mpr ⟨carries_exclusive hf,ih⟩

theorem carries_length {e : ScanEntries.File} {f : File}
    (h : Carries useMetadata e f) : (putFile useMetadata f).length = recordSize useMetadata e := by
  have htarget : (wireTarget f).1 = e.symlinkTarget.getD [] := by
    rw [← h.target, wireTarget]
    cases f.symlinkTarget <;> rfl
  rw [putFile_length h.loaded, recordSize, metadataSize, h.wirePath, h.size, htarget,
    h.isSymlink, h.isSpecial, h.metadata]
  cases useMetadata <;> simp

theorem chunkImage_frameSize {chunk : List ScanEntries.File}
    (h : List.Forall₂ (Carries useMetadata) chunk files) :
    (chunkImage useMetadata files).length = frameSize useMetadata chunk := by
  induction h with
  | nil => rfl
  | cons hf _ ih =>
    rw [chunkImage_cons, List.length_append, carries_length hf, ih]
    simp [frameSize]

theorem payloadCharge_le (useMetadata : Bool) (files : List File) :
    payloadCharge files ≤ (chunkImage useMetadata files).length := by
  induction files with
  | nil => simp [payloadCharge]
  | cons f files ih =>
    have hf : allocationSize f.data.bytes.length ≤ (putFile useMetadata f).length := by
      simp only [putFile, List.length_append, putString_length, allocationSize]
      split <;> omega
    rw [chunkImage_cons, List.length_append]
    simp only [payloadCharge, List.map_cons, List.sum_cons] at ih ⊢
    omega

/-- What the receiver asks of a frame beyond what a scan and the serializer
already see to. -/
structure Receivable (useMetadata : Bool) (files : List File) (frame : ℕ) : Prop where
  frame : frame ≤ maxChunkSize
  count : files.length ≤ maxFilesPerChunk
  no_traversal : ∀ f ∈ files, hasPathTraversal (fileWirePath f).1 = false
  rdev : ∀ f ∈ files, f.isSpecial = true → RdevOk f
  metadata : useMetadata = true → ∀ f ∈ files, ∀ m ∈ f.metadata, MetadataOk m
  target_ne : ∀ f ∈ files, f.isSymlink = true → (wireTarget f).1 ≠ []

theorem allocationSize_le {n : ℕ} (h : n ≤ maxChunkSize) : allocationSize n ≤ maxChunkSize := by
  unfold allocationSize
  split
  · exact h
  · decide

/-- Within the frame limit the session has room for every payload beside the
frame itself. -/
theorem chunkAcceptable_iff
    (hser : ∀ f ∈ files, serializable f = true)
    (hframe : (chunkImage useMetadata files).length ≤ maxChunkSize) :
    ChunkAcceptable useMetadata 0 (some (allocationSize (chunkImage useMetadata files).length))
        files ↔ Receivable useMetadata files (chunkImage useMetadata files).length := by
  constructor
  · rintro ⟨heach, hcount, -⟩
    exact ⟨hframe,by omega,fun f hf => (heach f hf).no_traversal,fun f hf => (heach f hf).rdev,
      fun hm f hf => (heach f hf).metadata hm,fun f hf => (heach f hf).target_ne⟩
  · intro h
    refine ⟨fun f hf => ?_,by have := h.count; omega,?_⟩
    · have hs := hser f hf
      have hpayload : f.data.bytes.length ≤ maxChunkFileDataSize := by
        have hle := (putFile_length_le useMetadata files f hf).trans hframe
        simp only [putFile, List.length_append, putString_length] at hle
        exact le_trans (by omega) hle
      simp only [serializable, Bool.and_eq_true, decide_eq_true_eq] at hs
      exact ⟨hs.2,h.no_traversal f hf,h.rdev f hf,fun hm => h.metadata hm f hf,hpayload,
        h.target_ne f hf⟩
    · intro allocated ha
      cases Option.some.inj ha
      have hcharge := payloadCharge_le useMetadata files
      have hbound := allocationSize_le hframe
      simp only [maxChunkSize, maxConnectionMemory] at hframe hbound ⊢
      omega

theorem receiveChunkData_image
    (hser : ∀ f ∈ files, serializable f = true) (hex : ∀ f ∈ files, Exclusive f) :
    (Receivable useMetadata files (chunkImage useMetadata files).length →
      receiveChunkData 0 (chunkImage useMetadata files) useMetadata =
        some (files.map (received useMetadata))) ∧
    (¬Receivable useMetadata files (chunkImage useMetadata files).length →
      receiveChunkData 0 (chunkImage useMetadata files) useMetadata = none) := by
  by_cases hframe : (chunkImage useMetadata files).length ≤ maxChunkSize
  · have hin : ¬((chunkImage useMetadata files).length > maxDataPayloadSize ∨
        (chunkImage useMetadata files).length > maxChunkSize) := by
      simp only [maxDataPayloadSize, maxChunkSize] at hframe ⊢
      omega
    have hbound := allocationSize_le hframe
    have hcharge : dataChargeSession (allocationSize (chunkImage useMetadata files).length)
        (some 0) = some (some (allocationSize (chunkImage useMetadata files).length)) := by
      rw [dataChargeSession, if_neg, Nat.zero_add]
      simp only [maxChunkSize, maxConnectionMemory] at hbound ⊢
      omega
    have hroom : HasRoom (some (allocationSize (chunkImage useMetadata files).length)) 0 := by
      intro allocated ha
      cases Option.some.inj ha
      simp only [maxChunkSize, maxConnectionMemory] at hbound ⊢
      omega
    have hmax : maxChunkSize ≤ uint64Max := by decide
    rw [receiveChunkData, if_neg hin, hcharge, ← chunkAcceptable_iff hser hframe]
    exact chunkDeserialize_image useMetadata files _
      (fun f hf => ⟨hex f hf,framed_of_image useMetadata files f hf (hframe.trans hmax)⟩) hroom
  · refine ⟨fun h => absurd h.frame hframe,fun _ => ?_⟩
    rw [receiveChunkData, if_pos (.inr (by omega))]

section Examples
open ScanAgreement (depthOptions nestedRoot leafFile)

def leafLoaded (uid : UInt32) : File :=
  ⟨⟨[114,47,100,47,102],by decide⟩,none,.loaded [1,2,3],
    some (fileMetadataCreate ⟨0o100644,uid,0,0,0,0,0⟩ none false false),false,false,false,none,0,0⟩

theorem leaf_emitted : Emitted (depthOptions 0) [114] nestedRoot [leafFile] := by
  have hseq : sequentialRun (depthOptions 0) [114] nestedRoot = [.chunk [leafFile]] := by
    decide +kernel
  refine .inl ?_
  rw [hseq]
  simp

theorem leaf_carries {uid : UInt32} : List.Forall₂ (Carries true) [leafFile] [leafLoaded uid] :=
  .cons ⟨rfl,rfl,rfl,rfl,rfl,rfl,rfl,rfl⟩ .nil

end Examples

end FastSync.ChunkAcceptance
