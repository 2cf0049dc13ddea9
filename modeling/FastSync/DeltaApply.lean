import FastSync.DeltaBlocks

/-!
# Delta instructions and their application

An instruction copies a range of the old file or carries literal bytes. A
literal holds the bound that lets its length stand in a 32-bit field. The
output buffer of `delta_apply` has the announced size; a copy past its end is
a fault of the model.
-/

set_option autoImplicit false

namespace FastSync.DeltaApply
open CheckedMemory DeltaBlocks

def maxDeltaInstructions : ℕ := 1024*1024

inductive DeltaInstruction where
  | blockMatch (blockIndex blockOffset length : UInt32)
  | literal (data : {bytes : List UInt8 // bytes.length < 2^32})
deriving DecidableEq, Repr

structure Delta where
  newFileSize : UInt64
  instructions : List DeltaInstruction
  deltaSize : UInt64
  count_fits : instructions.length < 2^32
deriving DecidableEq, Repr

def Delta.instructionCount (delta : Delta) : UInt32 := UInt32.ofNat delta.instructions.length

@[simp] theorem instructionCount_toNat (delta : Delta) :
    delta.instructionCount.toNat = delta.instructions.length :=
  UInt32.toNat_ofNat_of_lt' delta.count_fits

def emit (newFileSize : ℕ) (out bytes : List UInt8) : Checked (List UInt8) :=
  if out.length+bytes.length ≤ newFileSize then .done (out++bytes) else .fault

def applyInstruction (old : List UInt8) (blockSize : UInt32) (newFileSize : ℕ)
    (out : List UInt8) : DeltaInstruction → Checked (List UInt8)
  | .blockMatch blockIndex blockOffset length => do
    let srcOffset := blockIndex.toNat*blockSize.toNat
    require (¬srcOffset > uint64Max-blockOffset.toNat)
    let srcOffset := srcOffset+blockOffset.toNat
    require (¬(srcOffset > old.length ∨ length.toNat > old.length-srcOffset ∨
      out.length > newFileSize ∨ length.toNat > newFileSize-out.length))
    let bytes ← slice old srcOffset length.toNat
    emit newFileSize out bytes
  | .literal data => do
    require (¬(out.length > newFileSize ∨ data.1.length > newFileSize-out.length))
    emit newFileSize out data.1

def applyLoop (old : List UInt8) (blockSize : UInt32) (newFileSize : ℕ) :
    List DeltaInstruction → List UInt8 → Checked (List UInt8)
  | [], out => .done out
  | instr::instrs, out => do
    let out ← applyInstruction old blockSize newFileSize out instr
    applyLoop old blockSize newFileSize instrs out

def deltaApply (old : List UInt8) (delta : Delta) (blockSize : UInt32) : Checked (List UInt8) := do
  let newFileSize := delta.newFileSize.toNat
  require (¬((newFileSize > 0 ∧ delta.instructions = []) ∨
    (delta.instructionCount.toNat > 0 ∧ blockSize = 0) ∨ newFileSize > deltaMaxFileSize ∨
    newFileSize > sizeMax))
  let out ← applyLoop old blockSize newFileSize delta.instructions []
  require (out.length = newFileSize)
  pure out

def payload (old : List UInt8) (blockSize : UInt32) : DeltaInstruction → List UInt8
  | .blockMatch blockIndex blockOffset length =>
    (old.drop (blockIndex.toNat*blockSize.toNat+blockOffset.toNat)).take length.toNat
  | .literal data => data.1

def InRange (old : List UInt8) (blockSize : UInt32) : DeltaInstruction → Prop
  | .blockMatch blockIndex blockOffset length =>
    blockIndex.toNat*blockSize.toNat+blockOffset.toNat+length.toNat ≤ old.length
  | .literal _ => True

theorem emit_done {newFileSize : ℕ} {out bytes : List UInt8}
    (h : out.length+bytes.length ≤ newFileSize) : emit newFileSize out bytes = .done (out++bytes) :=
  if_pos h

theorem payload_blockMatch_length {old : List UInt8} {blockSize b o l : UInt32}
    (h : InRange old blockSize (.blockMatch b o l)) :
    (payload old blockSize (.blockMatch b o l)).length = l.toNat := by
  unfold InRange at h
  rw [payload, List.length_take, List.length_drop]
  omega

section
variable (old : List UInt8) (blockSize : UInt32) (newFileSize : ℕ)

theorem applyInstruction_done {out : List UInt8} {instr : DeltaInstruction}
    (hold : old.length ≤ uint64Max) (hin : InRange old blockSize instr)
    (hfit : out.length+(payload old blockSize instr).length ≤ newFileSize) :
    applyInstruction old blockSize newFileSize out instr =
      .done (out++payload old blockSize instr) := by
  cases instr with
  | blockMatch b o l =>
    have hlen := payload_blockMatch_length hin
    rw [hlen] at hfit
    unfold InRange at hin
    rw [applyInstruction, require_pos (by omega), done_bind]
    dsimp only
    rw [require_pos (by omega), done_bind, slice_done (by omega), done_bind]
    exact emit_done (by rw [← hlen] at hfit; exact hfit)
  | literal data =>
    simp only [payload] at hfit
    rw [applyInstruction, require_pos (by omega), done_bind]
    exact emit_done hfit

theorem applyLoop_done (instrs : List DeltaInstruction) (out : List UInt8)
    (hold : old.length ≤ uint64Max) (hin : ∀ instr ∈ instrs, InRange old blockSize instr)
    (hfit : out.length+(instrs.flatMap (payload old blockSize)).length ≤ newFileSize) :
    applyLoop old blockSize newFileSize instrs out =
      .done (out++instrs.flatMap (payload old blockSize)) := by
  induction instrs generalizing out with
  | nil => simp [applyLoop]
  | cons instr instrs ih =>
    rw [List.flatMap_cons, List.length_append] at hfit
    rw [applyLoop, applyInstruction_done old blockSize newFileSize hold
      (hin instr (by simp)) (by omega), done_bind,
      ih _ (fun i hi => hin i (by simp [hi])) (by rw [List.length_append]; omega),
      List.flatMap_cons, List.append_assoc]

end

theorem deltaApply_done {old new : List UInt8} {blockSize : UInt32} {delta : Delta}
    (hold : old.length ≤ uint64Max) (hsize : delta.newFileSize.toNat = new.length)
    (hnew : 0 < new.length) (hmax : new.length ≤ deltaMaxFileSize) (hblock : blockSize ≠ 0)
    (hin : ∀ instr ∈ delta.instructions, InRange old blockSize instr)
    (hpayload : delta.instructions.flatMap (payload old blockSize) = new) :
    deltaApply old delta blockSize = .done new := by
  have hne : delta.instructions ≠ [] := by
    intro h
    rw [h] at hpayload
    exact absurd hnew (by simp [← hpayload])
  have hguard : ¬((new.length > 0 ∧ delta.instructions = []) ∨
      (delta.instructionCount.toNat > 0 ∧ blockSize = 0) ∨ new.length > deltaMaxFileSize ∨
      new.length > sizeMax) := by
    have : deltaMaxFileSize ≤ sizeMax := by decide
    simp only [hne, hblock, and_false, false_or]
    omega
  have hloop := applyLoop_done old blockSize new.length delta.instructions [] hold hin
    (by rw [hpayload]; simp)
  rw [hpayload, List.nil_append] at hloop
  rw [deltaApply, hsize]
  rw [require_pos hguard, done_bind, hloop, done_bind, require_pos rfl, done_bind, pure_done]

section Hostile
variable {old out : List UInt8} {blockSize : UInt32}

theorem applyInstruction_ensures {instr : DeltaInstruction} {n : ℕ} :
    Ensures (applyInstruction old blockSize n out instr) fun out' =>
      out' = out++payload old blockSize instr ∧ InRange old blockSize instr ∧ out'.length ≤ n := by
  cases instr with
  | blockMatch b o l =>
    refine ensures_require fun hsum => ensures_require fun hroom => ?_
    have hin : InRange old blockSize (.blockMatch b o l) := by
      unfold InRange
      omega
    have hlen := payload_blockMatch_length hin
    rw [slice_done hin]
    show Ensures (emit n out (payload old blockSize (.blockMatch b o l))) _
    have hfit : out.length+(payload old blockSize (.blockMatch b o l)).length ≤ n := by omega
    rw [emit_done hfit]
    exact ⟨rfl,hin,by rwa [List.length_append]⟩
  | literal bytes =>
    refine ensures_require fun hroom => ?_
    have hfit : out.length+bytes.1.length ≤ n := by omega
    rw [emit_done hfit]
    exact ⟨rfl,trivial,by rwa [List.length_append]⟩

theorem applyLoop_ensures {instrs : List DeltaInstruction} {n : ℕ} (hout : out.length ≤ n) :
    Ensures (applyLoop old blockSize n instrs out) fun out' =>
      out' = out++instrs.flatMap (payload old blockSize) ∧
        (∀ instr ∈ instrs, InRange old blockSize instr) ∧ out'.length ≤ n := by
  induction instrs generalizing out with
  | nil => simpa [applyLoop] using hout
  | cons instr instrs ih =>
    refine ensures_bind applyInstruction_ensures ?_
    rintro _ ⟨rfl,hin,hnext⟩
    refine ensures_mono (ih hnext) ?_
    rintro _ ⟨rfl,hrest,hlen⟩
    exact ⟨by simp,by simpa using ⟨hin,hrest⟩,hlen⟩

theorem deltaApply_ensures {delta : Delta} :
    Ensures (deltaApply old delta blockSize) fun out =>
      out.length = delta.newFileSize.toNat ∧
        out = delta.instructions.flatMap (payload old blockSize) ∧
        ∀ instr ∈ delta.instructions, InRange old blockSize instr := by
  refine ensures_require fun _ => ?_
  refine ensures_bind (applyLoop_ensures (Nat.zero_le _)) ?_
  rintro out ⟨hout,hin,-⟩
  exact ensures_require fun hlen => ⟨hlen,hout,hin⟩

/-- One instruction as `delta_apply` computes it, in unsigned 64-bit numbers. -/
def applyInstruction64 (old : List UInt8) (blockSize : UInt32) (newFileSize : UInt64)
    (out : List UInt8) (instr : DeltaInstruction) : Checked (List UInt8) := do
  let oldSize := UInt64.ofNat old.length
  let outPos := UInt64.ofNat out.length
  match instr with
  | .blockMatch blockIndex blockOffset length => do
    let srcOffset := blockIndex.toUInt64*blockSize.toUInt64
    require (¬srcOffset > UInt64.ofNat uint64Max-blockOffset.toUInt64)
    let srcOffset := srcOffset+blockOffset.toUInt64
    require (¬(srcOffset > oldSize ∨ length.toUInt64 > oldSize-srcOffset ∨
      outPos > newFileSize ∨ length.toUInt64 > newFileSize-outPos))
    let bytes ← slice old srcOffset.toNat length.toNat
    emit newFileSize.toNat out bytes
  | .literal data => do
    let length := UInt64.ofNat data.1.length
    require (¬(outPos > newFileSize ∨ length > newFileSize-outPos))
    emit newFileSize.toNat out data.1

theorem applyInstruction64_eq {instr : DeltaInstruction} {size : UInt64} (hold : old.length ≤ uint64Max)
    (hout : out.length ≤ uint64Max) : applyInstruction64 old blockSize size out instr =
      applyInstruction old blockSize size.toNat out instr := by
  have hsize := size.toNat_lt
  unfold uint64Max at hold hout
  cases instr with
  | blockMatch b o l =>
    have ho := o.toNat_lt
    have hlt : b.toNat*blockSize.toNat < 2^32*2^32 :=
      Nat.mul_lt_mul'' b.toNat_lt blockSize.toNat_lt
    have hmul : (b.toUInt64*blockSize.toUInt64).toNat = b.toNat*blockSize.toNat := by
      rw [UInt64.toNat_mul, UInt32.toNat_toUInt64, UInt32.toNat_toUInt64]
      exact Nat.mod_eq_of_lt hlt
    have hguard : ¬b.toUInt64*blockSize.toUInt64 > UInt64.ofNat uint64Max-o.toUInt64 ↔
        ¬b.toNat*blockSize.toNat > uint64Max-o.toNat := by
      simp only [GT.gt, UInt64.lt_iff_toNat_lt, UInt64.toNat_sub, UInt64.toNat_ofNat', hmul,
        UInt32.toNat_toUInt64, uint64Max]
      omega
    simp only [applyInstruction64, applyInstruction]
    rw [require_congr hguard]
    by_cases hsum : b.toNat*blockSize.toNat > uint64Max-o.toNat
    · rw [require_neg (not_not.mpr hsum)]
      rfl
    have hadd : (b.toUInt64*blockSize.toUInt64+o.toUInt64).toNat =
        b.toNat*blockSize.toNat+o.toNat := by
      rw [UInt64.toNat_add, hmul, UInt32.toNat_toUInt64]
      exact Nat.mod_eq_of_lt (by unfold uint64Max at hsum; omega)
    rw [require_pos hsum, done_bind, done_bind, hadd]
    congr 1
    apply require_congr
    simp only [GT.gt, UInt64.lt_iff_toNat_lt, UInt64.toNat_sub, UInt64.toNat_ofNat', hadd,
      UInt32.toNat_toUInt64]
    omega
  | literal bytes =>
    have hb := bytes.2
    simp only [applyInstruction64, applyInstruction]
    congr 1
    apply require_congr
    simp only [GT.gt, UInt64.lt_iff_toNat_lt, UInt64.toNat_sub, UInt64.toNat_ofNat']
    omega

end Hostile

end FastSync.DeltaApply
