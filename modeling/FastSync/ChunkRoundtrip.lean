import FastSync.ChunkCodec
import Mathlib.Algebra.BigOperators.Group.List.Basic

/-!
# What the deserializer makes of a serialized chunk

The size computed beforehand is the length of the image, so serializing never
faults. Each record of the image is read back as its file or refused, according
to conditions on that file and to the room left in the session.
-/

set_option autoImplicit false

namespace FastSync.ChunkRoundtrip
open CheckedMemory LittleEndian ByteReader ChunkCodec
open DeletePaths (Bytes hasPathTraversal)

theorem reads_putU32 (v : UInt32) (s : Session) : Reads getInt s (putU32 v) v.toInt32 s := by
  have h : Reads getInt s (putU32 v) (UInt32.ofNat v.toNat).toInt32 s :=
    reads_map (reads_word v.toNat_lt s)
  rwa [UInt32.ofNat_toNat] at h

theorem reads_putInt (v : Int32) (s : Session) : Reads getInt s (putInt v) v s :=
  reads_putU32 v.toUInt32 s

theorem reads_putLong (v : Int64) (s : Session) : Reads getLong s (putLong v) v s := by
  have h : Reads getLong s (putLong v) (UInt64.ofNat v.toUInt64.toNat).toInt64 s :=
    reads_map (reads_word v.toUInt64.toNat_lt s)
  rwa [UInt64.ofNat_toNat] at h

theorem reads_cString {p : CString} {s : Session} : Reads (cString p.1) s [] p s :=
  fun _ => dif_pos p.2

theorem decides_getPath {p : CString} {s : Session} (h : p.1.length < sizeMax) :
    Decides getPath s (putString p.1) (p.1 ≠ [] ∧ hasPathTraversal p.1 = false) p s := by
  have hc : Decides getPath s (encode 8 p.1.length++(p.1++([]++[]))) _ p s :=
    decides_read (reads_word (Nat.lt_succ_of_lt h) s)
      (decides_check fun _ => decides_read (reads_take p.1 s)
        (decides_read reads_cString (decides_check fun _ => decides_pure p s)))
  rw [List.append_nil,List.append_nil] at hc
  refine decides_congr ?_ hc
  have hlen : ¬p.1.length > sizeMax-1 := by omega
  simp [hlen]

def RdevOk (f : File) : Prop :=
  ¬(f.rdevMajor < 0 ∨ f.rdevMinor < 0 ∨ f.rdevMajor > 0xffff ∨ f.rdevMinor > 0x00ffffff)

def putRdev (f : File) : Bytes :=
  if f.isSpecial then putInt f.rdevMajor++putInt f.rdevMinor else []

def rdev (f : File) : Int32 × Int32 := if f.isSpecial then (f.rdevMajor, f.rdevMinor) else (0, 0)

theorem decides_getRdev {f : File} {s : Session} :
    Decides (getRdev f.isSpecial) s (putRdev f) (f.isSpecial = true → RdevOk f) (rdev f) s := by
  unfold getRdev putRdev rdev
  cases f.isSpecial with
  | false => exact decides_congr (by simp) (decides_pure _ s)
  | true =>
    have hc : Decides (getRdev true) s (putInt f.rdevMajor++(putInt f.rdevMinor++[])) _ _ s :=
      decides_read (reads_putInt f.rdevMajor s) (decides_read (reads_putInt f.rdevMinor s)
        (decides_check fun _ => decides_pure (f.rdevMajor, f.rdevMinor) s))
    rw [List.append_nil] at hc
    exact decides_congr (by simp [RdevOk]) hc

def TimesOk (m : FileMetadata) : Prop :=
  nsecOk m.mtimeNsec = true ∧ (m.atimeValid = true → nsecOk m.atimeNsec = true) ∧
    (m.crtimeValid = true → nsecOk m.crtimeNsec = true)

def OwnerOk (m : FileMetadata) : Prop :=
  m.mode.toNat < 2^31 ∧ m.uid.toNat < 2^31 ∧ m.gid.toNat < 2^31

theorem toInt32_neg_iff (v : UInt32) : v.toInt32 < 0 ↔ ¬v.toNat < 2^31 := by
  have hb : v.toInt32.toInt < 0 ↔ 2^32 ≤ 2*v.toNat := BitVec.toInt_neg_iff
  rw [Int32.lt_iff_toInt_lt]
  change v.toInt32.toInt < 0 ↔ _
  rw [hb]
  omega

theorem flag_facts (b : Bool) : ¬flag b < 0 ∧ ¬flag b > 1 ∧ (flag b ≠ 0 ↔ b = true) := by
  cases b <;> decide

theorem decides_metadataFromBuf (m : FileMetadata) (s : Session) :
    Decides metadataFromBuf s (metadataFields m) (TimesOk m ∧ OwnerOk m) m s := by
  have hc : Decides metadataFromBuf s _ _ _ s :=
    decides_read (reads_putU32 m.mode s) <| decides_read (reads_putU32 m.uid s) <|
    decides_read (reads_putU32 m.gid s) <| decides_read (reads_putLong m.mtimeSec s) <|
    decides_read (reads_putLong m.mtimeNsec s) <| decides_read (reads_putInt (flag m.atimeValid) s) <|
    decides_read (reads_putLong m.atimeSec s) <| decides_read (reads_putLong m.atimeNsec s) <|
    decides_read (reads_putInt (flag m.crtimeValid) s) <| decides_read (reads_putLong m.crtimeSec s) <|
    decides_read (reads_putLong m.crtimeNsec s) <| decides_check fun _ => decides_pure _ s
  obtain ⟨ha, ha', ha''⟩ := flag_facts m.atimeValid
  obtain ⟨hb, hb', hb''⟩ := flag_facts m.crtimeValid
  simp only [ha'',hb'',UInt32.toUInt32_toInt32,Bool.decide_eq_true,List.append_nil] at hc
  refine decides_congr ?_ hc
  simp only [toInt32_neg_iff,ha,ha',hb,hb',TimesOk,OwnerOk]
  cases nsecOk m.mtimeNsec <;> cases nsecOk m.atimeNsec <;> cases nsecOk m.crtimeNsec <;> simp
  all_goals tauto

def MetadataOk (m : FileMetadata) : Prop := TimesOk m ∧ OwnerOk m

theorem decides_getMetadata {useMetadata : Bool} {f : File} {s : Session} :
    Decides (getMetadata useMetadata) s (if useMetadata then metadataToBuf f.metadata else [])
      (useMetadata = true → ∀ m ∈ f.metadata, MetadataOk m)
      (if useMetadata then f.metadata else none) s := by
  cases useMetadata with
  | false => exact decides_congr (by simp) (decides_pure none s)
  | true =>
    cases hm : f.metadata with
    | none =>
      have hc : Decides (getMetadata true) s (metadataToBuf none) _ none s :=
        decides_read (reads_putInt 0 s) (decides_check fun _ => decides_pure none s)
      exact decides_congr (by simp) hc
    | some m =>
      have hc : Decides (getMetadata true) s (metadataToBuf (some m)) _ (some m) s :=
        decides_read (reads_putInt 1 s)
          (decides_check fun _ => decides_map (decides_metadataFromBuf m s))
      exact decides_congr (by simp [MetadataOk]) hc

/-- The session after a payload of the given size has been charged to it. -/
def charged (s : Session) (size : ℕ) : Session := s.map (·+allocationSize size)

def HasRoom (s : Session) (size : ℕ) : Prop :=
  ∀ allocated ∈ s, allocated+size ≤ maxConnectionMemory

theorem dataChargeSession_eq {s : Session} {size : ℕ} :
    (∀ t, dataChargeSession (allocationSize size) s = some t → t = charged s size) ∧
      ((dataChargeSession (allocationSize size) s).isSome = true ↔
        HasRoom s (allocationSize size)) := by
  cases s with
  | none => exact ⟨fun t h => (Option.some.inj h).symm,by simp [dataChargeSession,HasRoom]⟩
  | some allocated =>
    have hpos : 0 < allocationSize size := by unfold allocationSize; split <;> omega
    by_cases h : allocated > maxConnectionMemory ∨
        allocationSize size > maxConnectionMemory-allocated
    · simp [dataChargeSession,HasRoom,h]
      omega
    · simp [dataChargeSession,HasRoom,charged,h]
      omega

theorem decides_getData {bytes : Bytes} {s : Session} (h : bytes.length < 2^64) :
    Decides getData s (putString bytes)
      (bytes.length ≤ maxChunkFileDataSize ∧ HasRoom s (allocationSize bytes.length)) bytes
      (charged s bytes.length) := by
  obtain ⟨hs, hr⟩ := dataChargeSession_eq
  have hc : Decides getData s (encode 8 bytes.length++(bytes++[])) _ bytes _ :=
    decides_read (reads_word h s) (decides_read (reads_take bytes s)
      (decides_check fun _ => decides_update hs (decides_pure bytes _)))
  rw [List.append_nil] at hc
  exact decides_congr (by rw [hr]; simp) hc

def putTarget (f : File) : Bytes := if f.isSymlink then putString (wireTarget f).1 else []

theorem decides_getTarget {f : File} {s : Session}
    (h : f.isSymlink = true → (wireTarget f).1.length < 2^64) :
    Decides (getTarget f.isSymlink) s (putTarget f) (f.isSymlink = true → (wireTarget f).1 ≠ [])
      (if f.isSymlink then some (wireTarget f) else none) s := by
  unfold getTarget putTarget
  cases hl : f.isSymlink with
  | false => exact decides_congr (by simp) (decides_pure none s)
  | true =>
    have hc : Decides (getTarget true) s (encode 8 (wireTarget f).1.length++((wireTarget f).1++[]))
        _ (some (wireTarget f)) s :=
      decides_read (reads_word (h hl) s) (decides_check fun _ => decides_read (reads_take _ s)
        (decides_read reads_cString (decides_pure _ s)))
    rw [List.append_nil] at hc
    exact decides_congr (by simp) hc

def Exclusive (f : File) : Prop :=
  ¬(f.isDir = true ∧ f.isSymlink = true) ∧ ¬(f.isDir = true ∧ f.isSpecial = true) ∧
    ¬(f.isSymlink = true ∧ f.isSpecial = true)

theorem entryType_marks {f : File} (h : Exclusive f) :
    decide (entryType f = 1) = f.isDir ∧ decide (entryType f = 2) = f.isSymlink ∧
      decide (entryType f = 3) = f.isSpecial ∧
      ¬(entryType f ≠ 0 ∧ entryType f ≠ 1 ∧ entryType f ≠ 2 ∧ entryType f ≠ 3) := by
  unfold Exclusive at h
  unfold entryType
  revert h
  cases f.isDir <;> cases f.isSymlink <;> cases f.isSpecial <;> decide

def received (useMetadata : Bool) (f : File) : File :=
  ⟨fileWirePath f,none,.loaded f.data.bytes,if useMetadata then f.metadata else none,f.isDir,
    f.isSymlink,f.isSpecial,if f.isSymlink then some (wireTarget f) else none,(rdev f).1,(rdev f).2⟩

/-- What a record must satisfy on its own, the session apart. -/
structure Acceptable (useMetadata : Bool) (f : File) : Prop where
  path_ne : (fileWirePath f).1 ≠ []
  no_traversal : hasPathTraversal (fileWirePath f).1 = false
  rdev : f.isSpecial = true → RdevOk f
  metadata : useMetadata = true → ∀ m ∈ f.metadata, MetadataOk m
  payload : f.data.bytes.length ≤ maxChunkFileDataSize
  target_ne : f.isSymlink = true → (wireTarget f).1 ≠ []

structure Framed (f : File) : Prop where
  path : (fileWirePath f).1.length < sizeMax
  payload : f.data.bytes.length < 2^64
  target : f.isSymlink = true → (wireTarget f).1.length < 2^64

theorem decides_getFile (useMetadata : Bool) (f : File) (s : Session) (he : Exclusive f)
    (hf : Framed f) :
    Decides (getFile useMetadata) s (putFile useMetadata f)
      (Acceptable useMetadata f ∧ HasRoom s (allocationSize f.data.bytes.length))
      (received useMetadata f) (charged s f.data.bytes.length) := by
  obtain ⟨hd, hl, hp, ht⟩ := entryType_marks he
  have hrdev : Decides (getRdev (decide (entryType f = 3))) s (putRdev f)
      (f.isSpecial = true → RdevOk f) (rdev f) s := by
    rw [hp]
    exact decides_getRdev
  have htarget : Decides (getTarget (decide (entryType f = 2))) (charged s f.data.bytes.length)
      (putTarget f) (f.isSymlink = true → (wireTarget f).1 ≠ [])
      (if f.isSymlink then some (wireTarget f) else none) (charged s f.data.bytes.length) := by
    rw [hl]
    exact decides_getTarget hf.target
  have hc : Decides (getFile useMetadata) s (putFile useMetadata f) _ _
      (charged s f.data.bytes.length) :=
    decides_bind (decides_getPath hf.path) fun _ =>
    decides_read (reads_putInt _ s) <| decides_check fun _ =>
    decides_bind hrdev fun _ => decides_bind decides_getMetadata fun _ =>
    decides_bind (decides_getData hf.payload) fun _ => decides_map htarget
  rw [hd,hl,hp] at hc
  refine decides_congr ⟨?_,?_⟩ hc
  · rintro ⟨⟨h1, h2⟩, -, h3, h4, ⟨h5, h6⟩, h7⟩
    exact ⟨⟨h1,h2,h3,h4,h5,h7⟩,h6⟩
  · rintro ⟨h, hr⟩
    exact ⟨⟨h.path_ne,h.no_traversal⟩,ht,h.rdev,h.metadata,⟨h.payload,hr⟩,h.target_ne⟩

theorem hasRoom_charged {s : Session} {size k : ℕ} :
    HasRoom (charged s size) k ↔ HasRoom s (allocationSize size+k) := by
  cases s with
  | none => simp [HasRoom,charged]
  | some allocated => simp [HasRoom,charged,Nat.add_assoc]

theorem hasRoom_mono {s : Session} {k l : ℕ} (hkl : k ≤ l) (h : HasRoom s l) : HasRoom s k :=
  fun allocated ha => (Nat.add_le_add_left hkl allocated).trans (h allocated ha)

def chunkImage (useMetadata : Bool) (files : List File) : Bytes :=
  files.flatMap (putFile useMetadata)

def payloadCharge (files : List File) : ℕ :=
  (files.map fun f => allocationSize f.data.bytes.length).sum

/-- What the deserializer asks of the records still to come, after the given
number of them. -/
structure ChunkAcceptable (useMetadata : Bool) (count : ℕ) (s : Session) (files : List File) :
    Prop where
  each : ∀ f ∈ files, Acceptable useMetadata f
  count : count+files.length ≤ maxFilesPerChunk
  room : HasRoom s (payloadCharge files)

section
variable (useMetadata : Bool)

theorem chunkAcceptable_cons (count : ℕ) (s : Session) (f : File) (files : List File) :
    ChunkAcceptable useMetadata count s (f::files) ↔
      (Acceptable useMetadata f ∧ HasRoom s (allocationSize f.data.bytes.length)) ∧
        ChunkAcceptable useMetadata (count+1) (charged s f.data.bytes.length) files := by
  have hcharge : payloadCharge (f::files) =
      allocationSize f.data.bytes.length+payloadCharge files := by simp [payloadCharge]
  constructor
  · rintro ⟨heach, hcount, hroom⟩
    rw [List.length_cons] at hcount
    refine ⟨⟨heach f (by simp),hasRoom_mono (Nat.le_add_right _ _) hroom⟩,
      fun g hg => heach g (by simp [hg]),by omega,?_⟩
    rwa [hasRoom_charged]
  · rintro ⟨⟨hf, -⟩, heach, hcount, hroom⟩
    refine ⟨List.forall_mem_cons.mpr ⟨hf,heach⟩,by rw [List.length_cons]; omega,?_⟩
    rwa [hcharge,← hasRoom_charged]

theorem getFiles_nil (fuel : ℕ) (done : List File) (s : Session) :
    getFiles useMetadata fuel done [] s = some done := by
  cases fuel <;> simp [getFiles]

theorem putFile_pos (f : File) : 0 < (putFile useMetadata f).length := by
  simp only [putFile,putString,List.length_append,encode_length]
  omega

theorem chunkImage_cons (f : File) (files : List File) :
    chunkImage useMetadata (f::files) = putFile useMetadata f++chunkImage useMetadata files :=
  List.flatMap_cons

theorem chunkImage_ne (f : File) (files : List File) : chunkImage useMetadata (f::files) ≠ [] := by
  intro h
  have hpos := putFile_pos useMetadata f
  rw [(List.append_eq_nil_iff.mp h).1] at hpos
  exact absurd hpos (by simp)

theorem getFiles_image (files done : List File) (fuel : ℕ) (s : Session)
    (hfuel : (chunkImage useMetadata files).length ≤ fuel)
    (hfiles : ∀ f ∈ files, Exclusive f ∧ Framed f) (hdone : done.length ≤ maxFilesPerChunk)
    (hs : HasRoom s 0) :
    (ChunkAcceptable useMetadata done.length s files →
      getFiles useMetadata fuel done (chunkImage useMetadata files) s =
        some (done++files.map (received useMetadata))) ∧
    (¬ChunkAcceptable useMetadata done.length s files →
      getFiles useMetadata fuel done (chunkImage useMetadata files) s = none) := by
  induction files generalizing done fuel s with
  | nil =>
    have hacc : ChunkAcceptable useMetadata done.length s [] := ⟨by simp,hdone,hs⟩
    exact ⟨fun _ => by simp [chunkImage,getFiles_nil],fun h => absurd hacc h⟩
  | cons f files ih =>
    obtain ⟨hef, hff⟩ := hfiles f (by simp)
    have hpos := putFile_pos useMetadata f
    have hne := chunkImage_ne useMetadata f files
    rw [chunkImage_cons] at hfuel hne ⊢
    rw [List.length_append] at hfuel
    obtain ⟨fuel, rfl⟩ : ∃ k, fuel = k+1 := ⟨fuel-1,by omega⟩
    have hd := decides_getFile useMetadata f s hef hff
    rw [getFiles,if_neg hne,chunkAcceptable_cons]
    by_cases hfull : done.length ≥ maxFilesPerChunk
    · rw [if_pos hfull]
      refine ⟨fun h => ?_,fun _ => rfl⟩
      have := h.2.count
      omega
    rw [if_neg hfull]
    by_cases hf : Acceptable useMetadata f ∧ HasRoom s (allocationSize f.data.bytes.length)
    · rw [hd.reads hf]
      have hroom : HasRoom (charged s f.data.bytes.length) 0 := hasRoom_charged.mpr hf.2
      have hi := ih (done++[received useMetadata f]) fuel (charged s f.data.bytes.length)
        (by omega) (fun g hg => hfiles g (by simp [hg]))
        (by rw [List.length_append,List.length_singleton]; omega) hroom
      rw [List.length_append,List.length_singleton] at hi
      refine ⟨fun h => ?_,fun h => hi.2 fun ha => h ⟨hf,ha⟩⟩
      simpa using hi.1 h.2
    · rw [hd.refuses hf]
      exact ⟨fun h => absurd h.1 hf,fun _ => rfl⟩

theorem chunkDeserialize_image (files : List File) (owner : Session)
    (hfiles : ∀ f ∈ files, Exclusive f ∧ Framed f) (hs : HasRoom owner 0) :
    (ChunkAcceptable useMetadata 0 owner files →
      chunkDeserialize (chunkImage useMetadata files) owner useMetadata =
        some (files.map (received useMetadata))) ∧
    (¬ChunkAcceptable useMetadata 0 owner files →
      chunkDeserialize (chunkImage useMetadata files) owner useMetadata = none) :=
  getFiles_image useMetadata files [] _ owner le_rfl hfiles (by decide) hs

end

def fits (t : ℕ) : Option ℕ := if t ≤ uint64Max then some t else none

/-- A continuation of a size computation that adds a fixed amount. -/
def Adds (k : ℕ → Option ℕ) (c : ℕ) : Prop := ∀ x ≤ uint64Max, k x = fits (x+c)

theorem adds_some : Adds some 0 := fun _ hx => (if_pos hx).symm

theorem adds_addSize {n : ℕ} : Adds (fun x => addSize x n) n := by
  intro x hx
  change addSize x n = _
  unfold addSize fits
  split <;> split <;> first | rfl | omega

section
variable {j k : ℕ → Option ℕ} {c d : ℕ}

theorem adds_bind (hj : Adds j c) (hk : Adds k d) : Adds (fun x => j x >>= k) (c+d) := by
  intro x hx
  change (j x >>= k) = _
  rw [hj x hx,fits,← Nat.add_assoc]
  split
  · next h => exact hk _ h
  · next h => exact (if_neg (by omega)).symm

theorem adds_ite {b : Bool} (hj : Adds j c) (hk : Adds k d) :
    Adds (fun x => if b = true then j x else k x) (if b = true then c else d) := by
  cases b
  · exact hk
  · exact hj

end

/-- The payload is present, so that its size is the number of its bytes. -/
def Loaded (f : File) : Prop := f.data.size = f.data.bytes.length

@[simp] theorem putInt_length (v : Int32) : (putInt v).length = 4 := putU32_length

@[simp] theorem putLong_length (v : Int64) : (putLong v).length = 8 := putU64_length

@[simp] theorem putString_length (s : Bytes) : (putString s).length = 8+s.length := by
  simp [putString]

theorem metadataToBuf_length (m : Option FileMetadata) :
    (metadataToBuf m).length = 4+(if m.isSome then fileMetadataWireSize else 0) := by
  cases m with
  | none => simp [metadataToBuf]
  | some m => simp [metadataToBuf,metadataFields,fileMetadataWireSize]

theorem putFile_length {useMetadata : Bool} {f : File} (h : Loaded f) :
    (putFile useMetadata f).length =
      8+((fileWirePath f).1.length+(metadataSize useMetadata f+(4+((if f.isSpecial then 2*4 else 0)+
        (8+(f.data.size+(if f.isSymlink then 8+(wireTarget f).1.length else 0))))))) := by
  unfold Loaded at h
  unfold metadataSize
  simp only [putFile,List.length_append,putString_length,putInt_length]
  cases useMetadata <;> cases f.isSpecial <;> cases f.isSymlink <;>
    simp [metadataToBuf_length] <;> omega

theorem perFileSerializeSize_eq (useMetadata : Bool) (f : File) (h : Loaded f) :
    perFileSerializeSize f useMetadata = fits (putFile useMetadata f).length := by
  rw [putFile_length h]
  exact adds_bind adds_addSize (adds_bind adds_addSize (adds_bind adds_addSize
    (adds_bind (adds_ite adds_addSize adds_some) (adds_bind adds_addSize
    (adds_bind adds_addSize (adds_ite (adds_bind adds_addSize adds_addSize)
      adds_some)))))) 8 (by decide)

theorem serializable_loaded (f : File) (h : serializable f = true) : Loaded f := by
  unfold Loaded
  cases hd : f.data with
  | reserved n => cases n <;> simp [serializable,hd,Data.size,Data.bytes] at h ⊢
  | loaded bytes => rfl

theorem chunkSerializeSize_eq {useMetadata : Bool} {files : List File} (total : ℕ)
    (htotal : total ≤ uint64Max) :
    chunkSerializeSize useMetadata files total =
      if (∀ f ∈ files, serializable f = true) ∧
          total+(chunkImage useMetadata files).length ≤ uint64Max then
        some (total+(chunkImage useMetadata files).length)
      else none := by
  induction files generalizing total with
  | nil => simp [chunkSerializeSize,chunkImage,htotal]
  | cons f files ih =>
    rw [chunkSerializeSize]
    by_cases hf : serializable f = true
    · have hsize := perFileSerializeSize_eq useMetadata f (serializable_loaded f hf)
      rw [if_pos hf,chunkImage_cons,List.length_append]
      by_cases hn : total+(putFile useMetadata f).length ≤ uint64Max
      · rw [fits,if_pos (by omega)] at hsize
        have hin : ¬((putFile useMetadata f).length > uint64Max-total ∨
            total+(putFile useMetadata f).length > sizeMax) := by
          simp only [sizeMax,uint64Max] at hn ⊢
          omega
        rw [hsize]
        simp only [if_neg hin,ih _ hn,List.forall_mem_cons,hf,true_and,Nat.add_assoc]
      · rw [if_neg (fun h => hn (by omega)),hsize,fits]
        split
        · rfl
        · next size h =>
          have he : size = (putFile useMetadata f).length := by
            split at h <;> simp at h
            exact h.symm
          exact if_pos (by omega)
    · rw [if_neg hf,if_neg]
      exact fun h => hf (h.1 f (by simp))

/-- The computed size is the length of the image: serializing never faults, and
it refuses exactly what is not loaded, badly named or too large for the address
space. -/
theorem chunkSerialize_eq (files : List File) (useMetadata : Bool) :
    chunkSerialize files useMetadata =
      if (∀ f ∈ files, serializable f = true) ∧
          (chunkImage useMetadata files).length ≤ uint64Max then
        .done (chunkImage useMetadata files)
      else .reject := by
  unfold chunkSerialize
  rw [chunkSerializeSize_eq 0 (Nat.zero_le _),Nat.zero_add]
  split
  · next h =>
    split at h
    · cases h
    · next hc => rw [if_neg hc]
  · next size h =>
    split at h
    · next hc =>
      cases h
      rw [if_pos hc]
      exact if_pos rfl
    · cases h

section
variable (useMetadata : Bool) (files : List File) (f : File) (hf : f ∈ files)
include hf

theorem putFile_length_le :
    (putFile useMetadata f).length ≤ (chunkImage useMetadata files).length := by
  obtain ⟨before, after, rfl⟩ := List.append_of_mem hf
  simp only [chunkImage,List.flatMap_append,List.flatMap_cons,List.length_append]
  omega

theorem framed_of_image (h : (chunkImage useMetadata files).length ≤ uint64Max) : Framed f := by
  have hfile := (putFile_length_le useMetadata files f hf).trans h
  simp only [putFile,List.length_append,putString_length,putInt_length,uint64Max] at hfile
  refine ⟨by simp only [sizeMax]; omega,by omega,fun hl => ?_⟩
  simp only [hl,if_true,putString_length] at hfile
  omega

end

inductive EntryKind where
  | regular
  | directory
  | symlink (target : Bytes)
  | special (major minor : Int32)
deriving DecidableEq, Repr

structure WireEntry where
  path : Bytes
  kind : EntryKind
  payload : Bytes
  metadata : Option FileMetadata
deriving DecidableEq, Repr

def wireKind (f : File) : EntryKind :=
  if f.isDir then .directory
  else if f.isSymlink then .symlink (wireTarget f).1
  else if f.isSpecial then .special f.rdevMajor f.rdevMinor
  else .regular

def wireEntry (useMetadata : Bool) (f : File) : WireEntry :=
  ⟨(fileWirePath f).1,wireKind f,f.data.bytes,if useMetadata then f.metadata else none⟩

theorem wireEntry_received (useMetadata : Bool) (f : File) :
    wireEntry useMetadata (received useMetadata f) = wireEntry useMetadata f := by
  unfold wireEntry wireKind received rdev wireTarget fileWirePath
  cases useMetadata <;> cases f.isDir <;> cases f.isSymlink <;> cases f.isSpecial <;> rfl

structure Transferable (f : File) : Prop where
  exclusive : Exclusive f
  loaded : Loaded f
  path_ne : f.path.1 ≠ []
  path_ok : hasPathTraversal f.path.1 = false
  wire_ne : (fileWirePath f).1 ≠ []
  wire_ok : hasPathTraversal (fileWirePath f).1 = false
  payload : f.data.bytes.length ≤ maxChunkFileDataSize
  target_ne : f.isSymlink = true → (wireTarget f).1 ≠ []
  rdev : f.isSpecial = true → RdevOk f
  times : ∀ m ∈ f.metadata, TimesOk m

theorem transferable_serializable (f : File) (h : Transferable f) : serializable f = true := by
  have hl : f.data.size = 0 ∨ f.data.bytes ≠ [] := by
    rw [h.loaded,List.length_eq_zero_iff]
    exact em _
  simpa [serializable,h.path_ok,h.path_ne,h.wire_ne] using hl

/-- A chunk within the limits comes back with every record as it was sent exactly
when no metadata on the wire has a mode, user or group beyond the signed range;
otherwise the whole chunk is refused. -/
theorem chunk_roundtrip_iff (files : List File) (useMetadata : Bool) (owner : Session)
    (hfiles : ∀ f ∈ files, Transferable f) (hcount : files.length ≤ maxFilesPerChunk)
    (halloc : (chunkImage useMetadata files).length ≤ sizeMax)
    (hroom : HasRoom owner (payloadCharge files)) :
    (∃ data, chunkSerialize files useMetadata = .done data ∧
      ∃ out, chunkDeserialize data owner useMetadata = some out ∧
        out.map (wireEntry useMetadata) = files.map (wireEntry useMetadata)) ↔
      (useMetadata = true → ∀ f ∈ files, ∀ m ∈ f.metadata, OwnerOk m) := by
  have hser : chunkSerialize files useMetadata = .done (chunkImage useMetadata files) := by
    rw [chunkSerialize_eq,if_pos ⟨fun f hf => transferable_serializable f (hfiles f hf),halloc⟩]
  have hdes := chunkDeserialize_image useMetadata files owner
    (fun f hf => ⟨(hfiles f hf).exclusive,framed_of_image useMetadata files f hf halloc⟩)
    (hasRoom_mono (Nat.zero_le _) hroom)
  constructor
  · rintro ⟨data, hdata, out, hout, -⟩ hm f hf m hmem
    rw [hser] at hdata
    cases hdata
    have hacc : ChunkAcceptable useMetadata 0 owner files := by
      by_contra hn
      rw [hdes.2 hn] at hout
      cases hout
    exact ((hacc.each f hf).metadata hm m hmem).2
  · intro hok
    have hacc : ChunkAcceptable useMetadata 0 owner files := by
      refine ⟨fun f hf => ?_,by omega,hroom⟩
      have ht := hfiles f hf
      exact ⟨ht.wire_ne,ht.wire_ok,ht.rdev,fun hm m hmem => ⟨ht.times m hmem,hok hm f hf m hmem⟩,
        ht.payload,ht.target_ne⟩
    refine ⟨_,hser,_,hdes.1 hacc,?_⟩
    rw [List.map_map]
    exact List.map_congr_left fun f _ => wireEntry_received useMetadata f

theorem fileMetadataCreate_times {stats : Stat} {btime : Option (Int64 × Int64)}
    {captureAtime captureCrtime : Bool} (hm : nsecOk stats.mtimeNsec = true)
    (ha : nsecOk stats.atimeNsec = true) (hb : ∀ t ∈ btime, nsecOk t.2 = true) :
    TimesOk (fileMetadataCreate stats btime captureAtime captureCrtime) := by
  refine ⟨hm,fun _ => ha,fun h => ?_⟩
  cases captureCrtime with
  | false => cases h
  | true =>
    cases btime with
    | none => cases h
    | some t => exact hb t rfl

def emptyFile (uid : UInt32) : File :=
  ⟨⟨[97],by decide⟩,none,.loaded [],
    some (fileMetadataCreate ⟨0o100644,uid,0,0,0,0,0⟩ none false false),false,false,false,none,0,0⟩

theorem chunk_owner_lost :
    ∃ data, chunkSerialize [emptyFile 4294967294] true = .done data ∧
      chunkDeserialize data none true = none :=
  ⟨_,rfl,by decide⟩

theorem chunk_owner_kept :
    ∃ data, chunkSerialize [emptyFile 1000] true = .done data ∧
      ∃ out, chunkDeserialize data none true = some out ∧
        out.map (wireEntry true) = [emptyFile 1000].map (wireEntry true) := by
  have htransfer : Transferable (emptyFile 1000) := by
    refine ⟨by simp [Exclusive,emptyFile],rfl,by decide,by decide,by decide,by decide,by decide,
      by decide,by simp [emptyFile],?_⟩
    intro m hm
    cases Option.some.inj hm
    exact fileMetadataCreate_times (by decide) (by decide) (by simp)
  refine (chunk_roundtrip_iff [emptyFile 1000] true none ?_ (by decide) (by decide)
    (by simp [HasRoom])).mpr ?_
  · intro f hf
    rwa [List.mem_singleton.mp hf]
  · intro _ f hf m hm
    rw [List.mem_singleton.mp hf] at hm
    cases Option.some.inj hm
    exact ⟨by decide,by decide,by decide⟩

end FastSync.ChunkRoundtrip
