import FastSync.DeltaChecksum
import FastSync.LittleEndian
import Mathlib.Algebra.Order.Floor.Div

/-!
# Block signatures of the old file

The receiver describes its old file by one weak and one strong checksum per
block. The strong hash is a parameter. A signature carries the bound that lets
its block count stand in a 32-bit field.
-/

set_option autoImplicit false

namespace FastSync.DeltaBlocks
open CheckedMemory LittleEndian DeltaChecksum

def deltaBlockSizeMin : ℕ := 1024
def deltaBlockSizeMax : ℕ := 65536
def deltaMaxFileSize : ℕ := 256*1024*1024
def maxDeltaBlocks : ℕ := 1024*1024

structure DeltaBlockSig where
  adler32 : UInt32
  xxhash : UInt32
deriving DecidableEq, Repr

structure DeltaSignature where
  fileSize : UInt64
  blockSize : UInt32
  blocks : List DeltaBlockSig
  count_fits : blocks.length < 2^32
deriving DecidableEq, Repr

def DeltaSignature.blockCount (sig : DeltaSignature) : UInt32 := UInt32.ofNat sig.blocks.length

@[simp] theorem blockCount_toNat (sig : DeltaSignature) :
    sig.blockCount.toNat = sig.blocks.length :=
  UInt32.toNat_ofNat_of_lt' sig.count_fits

def signBlock (xxh32 : List UInt8 → UInt32 → UInt32) (old : List UInt8) (blockSize seed : UInt32)
    (i : ℕ) : Checked DeltaBlockSig := do
  let offset := i*blockSize.toNat
  let len := if old.length-offset < blockSize.toNat then old.length-offset else blockSize.toNat
  let block ← slice old offset len
  pure ⟨deltaAdler32 block,xxh32 block seed⟩

def deltaSignatureCreateSeeded (xxh32 : List UInt8 → UInt32 → UInt32) (old : List UInt8)
    (blockSize seed : UInt32) : Checked DeltaSignature := do
  require (¬(old.length = 0 ∨ blockSize = 0))
  require (¬(old.length > deltaMaxFileSize ∨ blockSize.toNat > deltaBlockSizeMax ∨
    old.length > uint32Max*blockSize.toNat))
  let blockCount := UInt32.ofNat ((old.length+blockSize.toNat-1)/blockSize.toNat)
  require (blockCount ≠ 0)
  let blocks ← tabulate (signBlock xxh32 old blockSize seed) blockCount.toNat
  pure ⟨UInt64.ofNat old.length,blockSize,blocks.1,by rw [blocks.2]; exact blockCount.toNat_lt⟩

def putBlockSig (b : DeltaBlockSig) : List UInt8 := putU32 b.adler32++putU32 b.xxhash

def deltaSignatureSerialize (sig : DeltaSignature) : Checked (List UInt8) := do
  let blockBytes := sig.blockCount.toNat*(4+4)
  let total := 8+4+4+blockBytes
  require (¬(blockBytes > uint64Max-(8+4+4) ∨ total > sizeMax))
  pure (putU64 sig.fileSize++putU32 sig.blockSize++putU32 sig.blockCount++
    sig.blocks.flatMap putBlockSig)

def getBlockSig (buf : List UInt8) (pos : ℕ) (i : ℕ) : Checked DeltaBlockSig := do
  let adler32 ← getU32 buf (pos+i*8)
  let xxhash ← getU32 buf (pos+i*8+4)
  pure ⟨adler32,xxhash⟩

def deltaSignatureDeserialize (data : List UInt8) : Checked DeltaSignature := do
  require (8+4+4 ≤ data.length)
  let fileSize ← getU64 data 0
  let blockSize ← getU32 data 8
  let blockCount ← getU32 data 12
  require (blockCount.toNat ≤ maxDeltaBlocks)
  require (¬(blockSize = 0 ∨ blockSize.toNat > deltaBlockSizeMax ∨
    fileSize.toNat > deltaMaxFileSize ∨ fileSize = 0 ∨
    (fileSize.toNat+blockSize.toNat-1)/blockSize.toNat ≠ blockCount.toNat))
  require (8+4+4+blockCount.toNat*(4+4) ≤ data.length)
  require (blockCount.toNat*8 ≤ sizeMax)
  let blocks ← tabulate (getBlockSig data 16) blockCount.toNat
  pure ⟨fileSize,blockSize,blocks.1,by rw [blocks.2]; exact blockCount.toNat_lt⟩

def blockAt (old : List UInt8) (blockSize : ℕ) (i : ℕ) : List UInt8 :=
  (old.drop (i*blockSize)).take blockSize

def signedBlock (xxh32 : List UInt8 → UInt32 → UInt32) (old : List UInt8) (blockSize seed : UInt32)
    (i : ℕ) : DeltaBlockSig :=
  ⟨deltaAdler32 (blockAt old blockSize.toNat i),xxh32 (blockAt old blockSize.toNat i) seed⟩

section
variable (xxh32 : List UInt8 → UInt32 → UInt32) (old : List UInt8) (blockSize seed : UInt32)

theorem signBlock_done (i : ℕ) (h : i*blockSize.toNat ≤ old.length) :
    signBlock xxh32 old blockSize seed i = .done (signedBlock xxh32 old blockSize seed i) := by
  have hb : ∀ len, len = min (old.length-i*blockSize.toNat) blockSize.toNat →
      slice old (i*blockSize.toNat) len = .done (blockAt old blockSize.toNat i) := by
    intro len hlen
    rw [slice_done (by omega), blockAt]
    congr 1
    rw [List.take_eq_take_iff, List.length_drop]
    omega
  simp only [signBlock]
  rw [hb _ (by split <;> omega)]
  rfl

theorem ceil_mul_lt {n b i : ℕ} (hi : i < (n+b-1)/b) : i*b < n := by
  have hb : 0 < b := Nat.pos_of_ne_zero (by rintro rfl; simp at hi)
  have := (Nat.le_div_iff_mul_le hb).mp (Nat.succ_le_of_lt hi)
  rw [Nat.succ_mul] at this
  omega

structure Describes (xxh32 : List UInt8 → UInt32 → UInt32) (old : List UInt8)
    (blockSize seed : UInt32) (sig : DeltaSignature) : Prop where
  file_size : sig.fileSize.toNat = old.length
  block_size : sig.blockSize = blockSize
  block_list : sig.blocks = (List.range ((old.length+blockSize.toNat-1)/blockSize.toNat)).map
    (signedBlock xxh32 old blockSize seed)

theorem ceil_le {n b : ℕ} (hn : 0 < n) : (n+b-1)/b ≤ n := by
  rcases Nat.eq_zero_or_pos b with rfl | hb
  · simp
  · rw [← Nat.lt_succ_iff, Nat.div_lt_iff_lt_mul hb, Nat.succ_mul]
    have := Nat.le_mul_of_pos_right n hb
    omega

theorem ceil_pos {n b : ℕ} (hn : 0 < n) (hb : 0 < b) : 0 < (n+b-1)/b :=
  Nat.div_pos (by omega) hb

theorem deltaSignatureCreateSeeded_describes (hold : 0 < old.length)
    (hmax : old.length ≤ deltaMaxFileSize) (hpos : 0 < blockSize.toNat)
    (hblock : blockSize.toNat ≤ deltaBlockSizeMax) :
    ∃ sig, deltaSignatureCreateSeeded xxh32 old blockSize seed = .done sig ∧
      Describes xxh32 old blockSize seed sig := by
  have hfile : old.length < 2^32 := by
    unfold deltaMaxFileSize at hmax
    omega
  have hcount : (UInt32.ofNat ((old.length+blockSize.toNat-1)/blockSize.toNat)).toNat =
      (old.length+blockSize.toNat-1)/blockSize.toNat :=
    UInt32.toNat_ofNat_of_lt' (lt_of_le_of_lt (ceil_le hold) hfile)
  have hne : blockSize ≠ 0 := by
    rintro rfl
    exact absurd hpos (by decide)
  have hwide : old.length ≤ uint32Max*blockSize.toNat := by
    unfold uint32Max at *
    omega
  have hsome : UInt32.ofNat ((old.length+blockSize.toNat-1)/blockSize.toNat) ≠ 0 := by
    intro h
    rw [h] at hcount
    have := ceil_pos hold hpos
    rw [← hcount] at this
    exact absurd this (by decide)
  have hblocks := tabulate_done (signBlock xxh32 old blockSize seed)
    (signedBlock xxh32 old blockSize seed)
    (UInt32.ofNat ((old.length+blockSize.toNat-1)/blockSize.toNat)).toNat (by
      intro i hi
      rw [hcount] at hi
      exact signBlock_done xxh32 old blockSize seed i (ceil_mul_lt hi).le)
  simp only [deltaSignatureCreateSeeded]
  rw [require_pos (not_or.mpr ⟨hold.ne',hne⟩), done_bind, require_pos (by omega), done_bind,
    require_pos hsome, done_bind, hblocks, done_bind]
  refine ⟨_,rfl,?_,rfl,?_⟩
  · exact UInt64.toNat_ofNat_of_lt' (lt_trans hfile (by decide))
  · simp [hcount]

def Acceptable (sig : DeltaSignature) : Prop :=
  sig.blocks.length ≤ maxDeltaBlocks ∧ 0 < sig.blockSize.toNat ∧
    sig.blockSize.toNat ≤ deltaBlockSizeMax ∧ 0 < sig.fileSize.toNat ∧
    sig.fileSize.toNat ≤ deltaMaxFileSize ∧
    (sig.fileSize.toNat+sig.blockSize.toNat-1)/sig.blockSize.toNat = sig.blocks.length

theorem putBlockSigs_length (blocks : List DeltaBlockSig) :
    (blocks.flatMap putBlockSig).length = blocks.length*8 := by
  induction blocks with
  | nil => rfl
  | cons b blocks ih => simp [putBlockSig, ih]; omega

theorem getBlockSig_put (pre : List UInt8) (blocks : List DeltaBlockSig) (i : ℕ)
    (hi : i < blocks.length) :
    getBlockSig (pre++blocks.flatMap putBlockSig) pre.length i = .done blocks[i] := by
  have hsplit : blocks.flatMap putBlockSig =
      (blocks.take i).flatMap putBlockSig++(putBlockSig blocks[i]++
        (blocks.drop (i+1)).flatMap putBlockSig) := by
    calc blocks.flatMap putBlockSig
        = (blocks.take i++blocks.drop i).flatMap putBlockSig := by rw [List.take_append_drop]
      _ = _ := by rw [List.flatMap_append, List.drop_eq_getElem_cons hi, List.flatMap_cons]
  have hlen : (pre++(blocks.take i).flatMap putBlockSig).length = pre.length+i*8 := by
    rw [List.length_append, putBlockSigs_length, List.length_take, min_eq_left hi.le]
  have hadler := getU32_put (pre++(blocks.take i).flatMap putBlockSig)
    (putU32 blocks[i].xxhash++(blocks.drop (i+1)).flatMap putBlockSig) blocks[i].adler32
  have hxxh := getU32_put (pre++(blocks.take i).flatMap putBlockSig++putU32 blocks[i].adler32)
    ((blocks.drop (i+1)).flatMap putBlockSig) blocks[i].xxhash
  rw [List.length_append, hlen, putU32_length] at hxxh
  rw [hlen] at hadler
  simp only [List.append_assoc] at hadler hxxh
  simp [getBlockSig, hsplit, putBlockSig, hadler, hxxh, done_bind, pure_done]

theorem describes_acceptable {sig : DeltaSignature} (h : Describes xxh32 old blockSize seed sig)
    (hold : 0 < old.length) (hmax : old.length ≤ deltaMaxFileSize)
    (hmin : deltaBlockSizeMin ≤ blockSize.toNat) (hblock : blockSize.toNat ≤ deltaBlockSizeMax) :
    Acceptable sig := by
  have hlen : sig.blocks.length = (old.length+blockSize.toNat-1)/blockSize.toNat := by
    simp [h.block_list]
  have hpos : 0 < blockSize.toNat := lt_of_lt_of_le (by decide) hmin
  have hceil : (old.length+blockSize.toNat-1)/blockSize.toNat ≤ maxDeltaBlocks := by
    have hle : (old.length+blockSize.toNat-1)/blockSize.toNat ≤
        (old.length+blockSize.toNat-1)/deltaBlockSizeMin :=
      Nat.div_le_div_left hmin (by decide)
    unfold deltaMaxFileSize at hmax
    unfold deltaBlockSizeMax at hblock
    unfold deltaBlockSizeMin at hle
    unfold maxDeltaBlocks
    omega
  unfold Acceptable
  rw [h.file_size, h.block_size, hlen]
  exact ⟨hceil,hpos,hblock,hold,hmax,rfl⟩

end

theorem deltaSignature_roundtrip {sig : DeltaSignature} (h : Acceptable sig) :
    (deltaSignatureSerialize sig >>= deltaSignatureDeserialize) = .done sig := by
  obtain ⟨hcount,hpos,hblock,hold,hmax,hceil⟩ := h
  set body := sig.blocks.flatMap putBlockSig with hbody
  set hdr := putU64 sig.fileSize++putU32 sig.blockSize++putU32 sig.blockCount with hhdr
  have hlen : hdr.length = 16 := by simp [hhdr]
  have htotal : (hdr++body).length = 8+4+4+sig.blockCount.toNat*(4+4) := by
    rw [List.length_append, hlen, hbody, putBlockSigs_length, blockCount_toNat]
  have hfits : sig.blockCount.toNat ≤ maxDeltaBlocks := by rwa [blockCount_toNat]
  have hbytes : deltaSignatureSerialize sig = .done (hdr++body) := by
    simp only [deltaSignatureSerialize]
    rw [require_pos (by unfold maxDeltaBlocks at hfits; unfold uint64Max sizeMax; omega),
      done_bind]
    rfl
  have hfile : getU64 (hdr++body) 0 = .done sig.fileSize := by
    simpa [hhdr] using getU64_put [] (putU32 sig.blockSize++putU32 sig.blockCount++body)
      sig.fileSize
  have hsize : getU32 (hdr++body) 8 = .done sig.blockSize := by
    simpa [hhdr] using getU32_put (putU64 sig.fileSize) (putU32 sig.blockCount++body)
      sig.blockSize
  have hnum : getU32 (hdr++body) 12 = .done sig.blockCount := by
    simpa [hhdr] using getU32_put (putU64 sig.fileSize++putU32 sig.blockSize) body
      sig.blockCount
  have hblocks := tabulate_done (getBlockSig (hdr++body) 16)
    (fun i => sig.blocks.getD i ⟨0,0⟩) sig.blockCount.toNat (by
      intro i hi
      rw [blockCount_toNat] at hi
      rw [← hlen, getBlockSig_put hdr sig.blocks i hi]
      simp [hi])
  have hsame : (List.range sig.blockCount.toNat).map (fun i => sig.blocks.getD i ⟨0,0⟩) =
      sig.blocks := by
    apply List.ext_getElem
    · simp
    · intro i _ hi
      simp [hi]
  have hsane : ¬(sig.blockSize = 0 ∨ sig.blockSize.toNat > deltaBlockSizeMax ∨
      sig.fileSize.toNat > deltaMaxFileSize ∨ sig.fileSize = 0 ∨
      (sig.fileSize.toNat+sig.blockSize.toNat-1)/sig.blockSize.toNat ≠
        sig.blockCount.toNat) := by
    rw [blockCount_toNat, hceil]
    rintro (h | h | h | h | h)
    · exact absurd hpos (by simp [h])
    · omega
    · omega
    · exact absurd hold (by simp [h])
    · exact h rfl
  rw [hbytes, done_bind, deltaSignatureDeserialize, require_pos (by omega), done_bind, hfile,
    done_bind, hsize, done_bind, hnum, done_bind, require_pos hfits, done_bind,
    require_pos hsane, done_bind, require_pos (by omega), done_bind,
    require_pos (by unfold maxDeltaBlocks at hfits; unfold sizeMax; omega), done_bind,
    hblocks, done_bind]
  simp only [hsame, pure_done]

end FastSync.DeltaBlocks
