import FastSync.DeltaCompute
import Mathlib.Algebra.Order.BigOperators.Group.List

/-!
# Delta transfer end to end

The receiver signs its old file and sends the signature, the sender computes a
delta against what it received, and the receiver applies what it received. The
strong hash may be any function that tells the windows of the new file from
the blocks of the old one where the weak checksum does not.
-/

set_option autoImplicit false

namespace FastSync.DeltaTransfer
open CheckedMemory DeltaBlocks DeltaApply DeltaWire
open DeltaCompute

def receivedSignature (xxh32 : List UInt8 → UInt32 → UInt32) (old : List UInt8)
    (blockSize seed : UInt32) : Checked DeltaSignature := do
  let sig ← deltaSignatureCreateSeeded xxh32 old blockSize seed
  let frame ← deltaSignatureSerialize sig
  deltaSignatureDeserialize frame

def rebuilt (old : List UInt8) (delta : Delta) (blockSize : UInt32) : Checked (List UInt8) := do
  let frame ← deltaSerialize delta
  let delta ← deltaDeserialize frame
  deltaApply old delta blockSize

theorem receivedSignature_describes {xxh32 : List UInt8 → UInt32 → UInt32} {old : List UInt8}
    {blockSize seed : UInt32} (hold : 0 < old.length) (hmax : old.length ≤ deltaMaxFileSize)
    (hmin : deltaBlockSizeMin ≤ blockSize.toNat) (hblock : blockSize.toNat ≤ deltaBlockSizeMax) :
    ∃ sig, receivedSignature xxh32 old blockSize seed = .done sig ∧
      Describes xxh32 old blockSize seed sig := by
  obtain ⟨sig,hsig,hdesc⟩ := deltaSignatureCreateSeeded_describes xxh32 old blockSize seed hold hmax
    (lt_of_lt_of_le (by decide) hmin) hblock
  refine ⟨sig,?_,hdesc⟩
  rw [receivedSignature, hsig, done_bind]
  exact deltaSignature_roundtrip
    (describes_acceptable xxh32 old blockSize seed hdesc hold hmax hmin hblock)

theorem imageLength_le (old : List UInt8) (blockSize : UInt32) (instrs : List DeltaInstruction) :
    imageLength instrs ≤ 13*instrs.length+(instrs.flatMap (payload old blockSize)).length := by
  induction instrs with
  | nil => simp [imageLength]
  | cons instr instrs ih =>
    have hinstr : (putInstruction instr).length ≤ 13+(payload old blockSize instr).length := by
      cases instr with
      | blockMatch b o l => simp [putInstruction]
      | literal data => simp [putInstruction, payload]; omega
    unfold imageLength at ih ⊢
    simp only [List.flatMap_cons, List.length_append, List.length_cons]
    omega

section
variable {old new : List UInt8} {blockSize : UInt32} {delta : Delta}

theorem reconstructs_sized (hmax : new.length ≤ deltaMaxFileSize)
    (h : Reconstructs old new blockSize delta) : Sized delta := by
  refine ⟨h.count,h.recorded,?_⟩
  have hi := imageLength_le old blockSize delta.instructions
  have hc := h.count
  rw [h.payloads] at hi
  unfold deltaMaxFileSize at hmax
  unfold maxDeltaInstructions at hc
  unfold uint64Max
  omega

theorem rebuilt_new (hold : old.length ≤ deltaMaxFileSize) (hnew : 0 < new.length)
    (hmax : new.length ≤ deltaMaxFileSize) (hmin : deltaBlockSizeMin ≤ blockSize.toNat)
    (h : Reconstructs old new blockSize delta) : rebuilt old delta blockSize = .done new := by
  have hround := delta_roundtrip (reconstructs_sized hmax h)
  obtain ⟨frame,hf,hd⟩ := bind_eq_done.mp hround
  have hne : blockSize ≠ 0 := by
    rintro rfl
    exact absurd hmin (by decide)
  rw [rebuilt, hf, done_bind, hd, done_bind]
  exact deltaApply_done (le_trans hold (by decide)) h.new_size hnew hmax
    hne h.in_range h.payloads

end

theorem separates_single_block {xxh32 : List UInt8 → UInt32 → UInt32} {block : List UInt8}
    {blockSize seed : UInt32} (hlen : block.length = blockSize.toNat) : Separates xxh32 block block blockSize seed := by
  intro i j hi hj _ _
  have hi0 : i = 0 := by omega
  have hj0 : j = 0 := by
    have hlt := ceil_mul_lt hj
    rw [hlen] at hlt
    exact Nat.eq_zero_of_not_pos fun hj => absurd hlt (Nat.le_mul_of_pos_left _ hj).not_gt
  subst hi0 hj0
  rw [windowAt, blockAt, Nat.zero_mul]

theorem imageLength_bound (instrs : List DeltaInstruction) :
    imageLength instrs ≤ instrs.length*2^33 := by
  rw [imageLength, List.length_flatMap]
  refine le_of_le_of_eq (List.sum_le_card_nsmul _ (2^33) ?_) (by simp)
  rintro _ hlength
  obtain ⟨instr,-,rfl⟩ := List.mem_map.mp hlength
  cases instr with
  | blockMatch b o l => simp [putInstruction]
  | literal bytes =>
    have hb := bytes.2
    simp [putInstruction]
    omega

theorem computed_sized {xxh32 : List UInt8 → UInt32 → UInt32} {new : List UInt8}
    {sig : DeltaSignature} {blockSize seed : UInt32} {delta : Delta}
    (h : deltaComputeSeeded xxh32 new sig blockSize seed = .done delta) : Sized delta := by
  obtain ⟨_,-,h⟩ := bind_eq_done.mp h
  obtain ⟨index,-,h⟩ := bind_eq_done.mp h
  obtain ⟨st,-,h⟩ := bind_eq_done.mp h
  obtain ⟨instrs,-,h⟩ := bind_eq_done.mp h
  obtain ⟨size,hsize,h⟩ := bind_eq_done.mp h
  have hrecorded := sumSizes_recorded instrs.items 0
  rw [hsize] at hrecorded
  have hcount := le_trans instrs.items_le instrs.capacity_le
  have himage := imageLength_bound instrs.items
  cases h
  refine ⟨hcount,hrecorded,?_⟩
  unfold maxDeltaInstructions at hcount
  unfold uint64Max
  dsimp only
  omega

/-- Reading any bytes stays inside them and gives a delta whose frame they begin
with. Applying it to any old file is refused, or fills the announced buffer with
the payloads, each copied from inside the old file. Every step computes in 64
bits what it computes without a bound. The frame of a computed delta is read
back as that delta. -/
theorem hostile_delta_contained (data old : List UInt8) (blockSize : UInt32)
    (hdata : data.length ≤ sizeMax) (hold : old.length ≤ deltaMaxFileSize) :
    (Ensures (deltaDeserialize data) fun delta =>
      (∃ frame, deltaSerialize delta = .done frame ∧ frame <+: data) ∧
      (Ensures (deltaApply old delta blockSize) fun out =>
        out.length = delta.newFileSize.toNat ∧
          out = delta.instructions.flatMap (payload old blockSize) ∧
          ∀ instr ∈ delta.instructions, InRange old blockSize instr) ∧
      ∀ out instr, out.length ≤ delta.newFileSize.toNat →
        applyInstruction64 old blockSize delta.newFileSize out instr =
            applyInstruction old blockSize delta.newFileSize.toNat out instr ∧
          Ensures (applyInstruction old blockSize delta.newFileSize.toNat out instr) fun out' =>
            out'.length ≤ delta.newFileSize.toNat) ∧
    ∀ xxh32 new sig size seed delta, deltaComputeSeeded xxh32 new sig size seed = .done delta →
      (deltaSerialize delta >>= deltaDeserialize) = .done delta := by
  constructor
  · refine ensures_mono (deltaDeserialize_spans hdata) ?_
    rintro delta ⟨hsized,himage⟩
    have hsize : delta.newFileSize.toNat ≤ uint64Max := Nat.le_of_lt_succ delta.newFileSize.toNat_lt
    refine ⟨⟨_,deltaSerialize_image delta hsized,himage⟩,deltaApply_ensures,?_⟩
    intro out instr hout
    exact ⟨applyInstruction64_eq (le_trans hold (by decide)) (le_trans hout hsize),
      ensures_mono applyInstruction_ensures fun _ h => h.2.2⟩
  · intro xxh32 new sig size seed delta h
    exact delta_roundtrip (computed_sized h)

/-- A frame of one literal byte, with a stray byte behind it. -/
theorem stray_byte_ignored :
    deltaDeserialize [1,0,0,0,0,0,0,0,1,0,0,0,2,1,0,0,0,7,9] ≠ .reject ∧
    Ensures (deltaDeserialize [1,0,0,0,0,0,0,0,1,0,0,0,2,1,0,0,0,7,9]) fun delta =>
      ∃ frame, deltaSerialize delta = .done frame ∧
        frame <+: [1,0,0,0,0,0,0,0,1,0,0,0,2,1,0,0,0,7,9] :=
  ⟨by decide +kernel,ensures_mono
    (hostile_delta_contained [1,0,0,0,0,0,0,0,1,0,0,0,2,1,0,0,0,7,9] [] 1 (by decide)
      (by decide)).1 fun _ h => h.1⟩

end FastSync.DeltaTransfer
