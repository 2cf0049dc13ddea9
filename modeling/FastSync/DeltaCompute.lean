import FastSync.DeltaIndex
import FastSync.DeltaWire
import Mathlib.Logic.Relation

/-!
# The delta compute loop

`delta_compute_seeded` slides a window over the new file, one byte at a time
between matches. The growing instruction array carries its capacity bounds.
The loop invariant says that the instructions so far, followed by the pending
literal run, spell the consumed prefix of the new file, and that a rolling pair
kept for the next position is the pair of the window one byte before it.
-/

set_option autoImplicit false

namespace FastSync.DeltaCompute
open CheckedMemory DeltaChecksum DeltaBlocks DeltaIndex
open DeltaApply DeltaWire BucketChain

structure InstrArray where
  items : List DeltaInstruction
  capacity : ℕ
  items_le : items.length ≤ capacity
  capacity_pos : 0 < capacity
  capacity_le : capacity ≤ maxDeltaInstructions

def InstrArray.empty : InstrArray := ⟨[],64,by decide,by decide,by decide⟩

def ensureCapacity (a : InstrArray) :
    Checked {b : InstrArray // b.items = a.items ∧ b.items.length < b.capacity} :=
  if h : a.items.length < a.capacity then .done ⟨a,rfl,h⟩
  else if hc : a.capacity > maxDeltaInstructions/2 then .reject
  else .done ⟨⟨a.items,a.capacity*2,by have := a.items_le; omega,by have := a.capacity_pos; omega,
      by unfold maxDeltaInstructions at *; omega⟩,rfl,
      by have := a.items_le; have := a.capacity_pos; dsimp only; omega⟩

def InstrArray.push (a : InstrArray) (h : a.items.length < a.capacity)
    (instr : DeltaInstruction) : InstrArray :=
  ⟨a.items++[instr],a.capacity,by simpa using h,a.capacity_pos,a.capacity_le⟩

def appendInstr (a : InstrArray) (instr : DeltaInstruction) : Checked InstrArray := do
  let b ← ensureCapacity a
  pure (b.1.push b.2.2 instr)

def flushLiteral (a : InstrArray) (data : List UInt8) (start stop : ℕ) : Checked InstrArray :=
  if start ≥ stop then .done a
  else if h : stop-start > uint32Max ∨ a.items.length ≥ maxDeltaInstructions then .reject
  else do
    let b ← ensureCapacity a
    let literal ← sliceExact data start (stop-start)
    pure (b.1.push b.2.2 (.literal ⟨literal.1,by
      rw [literal.2]; unfold uint32Max at h; omega⟩))

structure ComputeState where
  instrs : InstrArray
  literalStart : ℕ
  hasLiteral : Bool
  i : ℕ
  sums : UInt32 × UInt32
  rollingValid : Bool

def windowLength (newSize i blockSize : ℕ) : ℕ :=
  if newSize-i < blockSize then newSize-i else blockSize

def windowSums (new : List UInt8) (blockSize : UInt32) (st : ComputeState) (windowLen : ℕ) :
    Checked ((UInt32 × UInt32) × Bool) :=
  if st.rollingValid = true ∧ windowLen = blockSize.toNat then
    if st.i = 0 then .fault else do
      let oldByte ← load new (st.i-1)
      let newByte ← load new (st.i+blockSize.toNat-1)
      pure (adlerRoll blockSize st.sums oldByte newByte, st.rollingValid)
  else do
    let window ← slice new st.i windowLen
    pure (adlerSums window, decide (windowLen = blockSize.toNat))

def flushPending (new : List UInt8) (st : ComputeState) (stop : ℕ) : Checked InstrArray :=
  if st.hasLiteral then flushLiteral st.instrs new st.literalStart stop else .done st.instrs

def matchStep (new : List UInt8) (st : ComputeState) (sums : UInt32 × UInt32) (windowLen : ℕ)
    (matchBlock : UInt32) : Checked ComputeState := do
  let instrs ← flushPending new st st.i
  let instrs ← appendInstr instrs (.blockMatch matchBlock 0 (UInt32.ofNat windowLen))
  pure ⟨instrs,st.literalStart,false,st.i+windowLen,sums,false⟩

def missStep (st : ComputeState) (sums : UInt32 × UInt32) (rollingValid : Bool) : ComputeState :=
  ⟨st.instrs,if st.hasLiteral then st.literalStart else st.i,true,st.i+1,sums,rollingValid⟩

def computeStep (xxh32 : List UInt8 → UInt32 → UInt32) (new : List UInt8) (sig : DeltaSignature)
    (index : Option BlockIndex) (mask blockSize seed : UInt32) (st : ComputeState) :
    Checked ComputeState := do
  let windowLen := windowLength new.length st.i blockSize.toNat
  let fullWindow := decide (windowLen = blockSize.toNat)
  let (sums, rollingValid) ← windowSums new blockSize st windowLen
  let window ← slice new st.i windowLen
  let matchBlock ← deltaFindMatch xxh32 window (adlerPack sums) fullWindow sig index mask seed
  if matchBlock ≠ deltaNoBlock then matchStep new st sums windowLen matchBlock
  else pure (missStep st sums rollingValid)

def computeLoop (xxh32 : List UInt8 → UInt32 → UInt32) (new : List UInt8) (sig : DeltaSignature)
    (index : Option BlockIndex) (mask blockSize seed : UInt32) :
    ℕ → ComputeState → Checked ComputeState
  | fuel, st =>
    if st.i < new.length then
      match fuel with
      | 0 => .fault
      | k+1 => do
        let st ← computeStep xxh32 new sig index mask blockSize seed st
        computeLoop xxh32 new sig index mask blockSize seed k st
    else .done st

def sumSizes : List DeltaInstruction → UInt64 → Checked UInt64
  | [], size => .done size
  | instr::instrs, size => do
    require (size.toNat ≠ uint64Max)
    let size := size+1
    require (¬size.toNat > uint64Max-(instructionSize instr).toNat)
    sumSizes instrs (size+instructionSize instr)

def startState : ComputeState := ⟨.empty,0,false,0,(1, 0),false⟩

def lookupIndex (sig : DeltaSignature) : Checked (Option BlockIndex) :=
  if sig.blockCount.toNat > 0 then deltaBuildIndex sig (deltaNextPow2 sig.blockCount)
  else .done none

def deltaComputeSeeded (xxh32 : List UInt8 → UInt32 → UInt32) (new : List UInt8)
    (sig : DeltaSignature) (blockSize seed : UInt32) : Checked Delta := do
  require (¬(new.length = 0 ∨ blockSize = 0 ∨ blockSize.toNat > deltaBlockSizeMax ∨
    sig.blockSize ≠ blockSize))
  let index ← lookupIndex sig
  let mask := if index.isSome then deltaNextPow2 sig.blockCount-1 else 0
  let st ← computeLoop xxh32 new sig index mask blockSize seed new.length startState
  let instrs ← flushPending new st new.length
  let size ← sumSizes instrs.items 0
  pure ⟨UInt64.ofNat new.length,instrs.items,size,by
    have := instrs.items_le; have := instrs.capacity_le
    unfold maxDeltaInstructions at *; omega⟩

def Spells (old : List UInt8) (blockSize : UInt32) (a : InstrArray) (bytes : List UInt8) : Prop :=
  (∀ instr ∈ a.items, InRange old blockSize instr) ∧
    a.items.flatMap (payload old blockSize) = bytes

theorem push_spells {old : List UInt8} {blockSize : UInt32} {a : InstrArray}
    (ha : a.items.length < a.capacity) (instr : DeltaInstruction) {bytes : List UInt8}
    (h : Spells old blockSize a bytes) (hin : InRange old blockSize instr) :
    Spells old blockSize (a.push ha instr) (bytes++payload old blockSize instr) := by
  constructor
  · intro x hx
    rcases List.mem_append.mp hx with hx | hx
    · exact h.1 x hx
    · rw [List.mem_singleton.mp hx]
      exact hin
  · simp [InstrArray.push, h.2]

theorem ensureCapacity_ensures {a : InstrArray} : Ensures (ensureCapacity a) fun _ => True := by
  unfold ensureCapacity
  split_ifs <;> trivial

theorem appendInstr_spells {old : List UInt8} {blockSize : UInt32} {a : InstrArray}
    {instr : DeltaInstruction} {bytes : List UInt8} (h : Spells old blockSize a bytes)
    (hin : InRange old blockSize instr) :
    Ensures (appendInstr a instr) fun b =>
      Spells old blockSize b (bytes++payload old blockSize instr) := by
  refine ensures_bind ensureCapacity_ensures ?_
  intro b _
  have hb : Spells old blockSize b.1 bytes := by
    rw [Spells, b.2.1]
    exact h
  exact push_spells b.2.2 instr hb hin

section
variable {old new : List UInt8} {blockSize : UInt32}

theorem flushLiteral_spells {a : InstrArray} {start stop : ℕ} (hstart : start ≤ stop)
    (hstop : stop ≤ new.length) (h : Spells old blockSize a (new.take start)) :
    Ensures (flushLiteral a new start stop) fun b => Spells old blockSize b (new.take stop) := by
  unfold flushLiteral
  by_cases hle : start ≥ stop
  · have : start = stop := by omega
    subst this
    rwa [if_pos hle]
  · rw [if_neg hle]
    split
    · trivial
    · refine ensures_bind ensureCapacity_ensures ?_
      intro b _
      have hb : Spells old blockSize b.1 (new.take start) := by
        rw [Spells, b.2.1]
        exact h
      rw [sliceExact_done (by omega), done_bind]
      have hp := push_spells b.2.2 (.literal ⟨(new.drop start).take (stop-start),
        by rw [List.length_take]; unfold uint32Max at *; omega⟩) hb trivial
      have htake : new.take start++(new.drop start).take (stop-start) = new.take stop := by
        rw [← List.take_add, Nat.add_sub_cancel' hstart]
      rw [payload, htake] at hp
      exact hp

theorem flushPending_spells {st : ComputeState} {stop : ℕ} (hstop : stop ≤ new.length)
    (hlit : st.hasLiteral = true → st.literalStart ≤ stop)
    (hrest : st.hasLiteral = false → st.i = stop)
    (h : Spells old blockSize st.instrs (new.take (if st.hasLiteral then st.literalStart else st.i))) :
    Ensures (flushPending new st stop) fun b => Spells old blockSize b (new.take stop) := by
  unfold flushPending
  cases hl : st.hasLiteral with
  | true =>
    rw [hl] at h
    exact flushLiteral_spells (hlit hl) hstop h
  | false =>
    rw [hl] at h
    rw [← hrest hl]
    exact h

end

def windowAt (new : List UInt8) (i len : ℕ) : List UInt8 := (new.drop i).take len

structure Consumed (old new : List UInt8) (blockSize : UInt32) (st : ComputeState) : Prop where
  bound : st.i ≤ new.length
  literal : st.hasLiteral = true → st.literalStart ≤ st.i
  spelled : Spells old blockSize st.instrs
    (new.take (if st.hasLiteral then st.literalStart else st.i))
  rolling : st.rollingValid = true → 0 < st.i ∧
    st.sums = adlerSums (windowAt new (st.i-1) blockSize.toNat)

theorem windowLength_le (n i b : ℕ) : windowLength n i b ≤ n-i ∧ windowLength n i b ≤ b := by
  unfold windowLength
  split <;> omega

section
variable {new : List UInt8} {k m : ℕ}

theorem windowAt_first (hk : k < new.length) :
    windowAt new k (m+1) = new[k]::windowAt new (k+1) m := by
  rw [windowAt, List.drop_eq_getElem_cons hk, List.take_succ_cons, windowAt]

theorem windowAt_last (hk : k+m < new.length) :
    windowAt new k (m+1) = windowAt new k m++[new[k+m]] := by
  rw [windowAt, List.take_add_one, List.getElem?_drop, List.getElem?_eq_getElem hk, windowAt]
  rfl

theorem windowAt_length (hk : k+m ≤ new.length) : (windowAt new k m).length = m := by
  rw [windowAt, List.length_take, List.length_drop]
  omega

end

theorem adlerRoll_next {new : List UInt8} {blockSize : UInt32} {k m : ℕ}
    (hm : blockSize.toNat = m+1) (hn : k+1+m < new.length) :
    adlerRoll blockSize (adlerSums (windowAt new k (m+1))) new[k] new[k+1+m] =
      adlerSums (windowAt new (k+1) (m+1)) := by
  rw [windowAt_first (by omega), windowAt_last hn]
  refine adlerRoll_window ?_
  rw [windowAt_length (by omega), hm]

/-- A rolling pair that is kept belongs to the window one byte before. -/
def Rolling (new : List UInt8) (blockSize : UInt32) (st : ComputeState) : Prop :=
  st.rollingValid = true → 0 < st.i ∧
    st.sums = adlerSums (windowAt new (st.i-1) blockSize.toNat)

theorem windowSums_exact {new : List UInt8} {blockSize : UInt32} {st : ComputeState}
    (hb : 0 < blockSize.toNat) (hi : st.i < new.length) (h : Rolling new blockSize st) :
    ∃ r, windowSums new blockSize st (windowLength new.length st.i blockSize.toNat) = .done r ∧
      r.1 = adlerSums (windowAt new st.i (windowLength new.length st.i blockSize.toNat)) ∧
      (r.2 = true → windowLength new.length st.i blockSize.toNat = blockSize.toNat) := by
  have hw := windowLength_le new.length st.i blockSize.toNat
  unfold windowSums
  split
  · rename_i hroll
    obtain ⟨hpos,hsums⟩ := h hroll.1
    obtain ⟨k,hk⟩ : ∃ k, st.i = k+1 := ⟨st.i-1,by omega⟩
    obtain ⟨m,hm⟩ : ∃ m, blockSize.toNat = m+1 := ⟨blockSize.toNat-1,by omega⟩
    have hn : k+1+m < new.length := by omega
    rw [if_neg (by omega), hroll.2, hsums, hk, hm]
    have hold : load new (k+1-1) = .done new[k] := load_done (by omega)
    have hnew : load new (k+1+(m+1)-1) = .done new[k+1+m] := load_done hn
    rw [hold, done_bind, hnew, done_bind, pure_done]
    exact ⟨_,rfl,adlerRoll_next hm hn,fun _ => rfl⟩
  · rw [slice_done (by omega), done_bind, pure_done]
    exact ⟨_,rfl,rfl,of_decide_eq_true⟩

def Separates (xxh32 : List UInt8 → UInt32 → UInt32) (old new : List UInt8)
    (blockSize seed : UInt32) : Prop :=
  ∀ i j, i+blockSize.toNat ≤ new.length →
    j < (old.length+blockSize.toNat-1)/blockSize.toNat →
    deltaAdler32 (windowAt new i blockSize.toNat) = deltaAdler32 (blockAt old blockSize.toNat j) →
    xxh32 (windowAt new i blockSize.toNat) seed = xxh32 (blockAt old blockSize.toNat j) seed →
    windowAt new i blockSize.toNat = blockAt old blockSize.toNat j

theorem lowestMatch_some {sig : DeltaSignature} {adler windowXxh : UInt32} {j : ℕ}
    (h : lowestMatch sig adler windowXxh = some j) :
    ∃ hj : j < sig.blocks.length,
      sig.blocks[j].adler32 = adler ∧ windowXxh = sig.blocks[j].xxhash := by
  obtain ⟨-,hj,ha⟩ := firstFrom_some _ h
  refine ⟨hj,?_⟩
  simpa [Agrees, hj] using ha

theorem matched_block {xxh32 : List UInt8 → UInt32 → UInt32} {old new : List UInt8}
    {blockSize seed : UInt32} {sig : DeltaSignature} {i j : ℕ} (hb : 0 < blockSize.toNat)
    (hsig : Describes xxh32 old blockSize seed sig) (hsep : Separates xxh32 old new blockSize seed)
    (hi : i+blockSize.toNat ≤ new.length)
    (h : lowestMatch sig (deltaAdler32 (windowAt new i blockSize.toNat))
      (xxh32 (windowAt new i blockSize.toNat) seed) = some j) :
    InRange old blockSize (.blockMatch (UInt32.ofNat j) 0 blockSize) ∧
      payload old blockSize (.blockMatch (UInt32.ofNat j) 0 blockSize) =
        windowAt new i blockSize.toNat := by
  obtain ⟨hj,hadler,hxxh⟩ := lowestMatch_some h
  have hjn : (UInt32.ofNat j).toNat = j :=
    UInt32.toNat_ofNat_of_lt' (lt_trans hj sig.count_fits)
  have hjc : j < (old.length+blockSize.toNat-1)/blockSize.toNat := by
    simpa [hsig.block_list] using hj
  have hblock : sig.blocks[j] = signedBlock xxh32 old blockSize seed j := by
    simp [hsig.block_list]
  rw [hblock] at hadler hxxh
  have hsame := hsep i j hi hjc hadler.symm hxxh
  have hlen : (blockAt old blockSize.toNat j).length = blockSize.toNat := by
    rw [← hsame, windowAt_length hi]
  rw [blockAt, List.length_take, List.length_drop] at hlen
  constructor
  · rw [InRange, hjn]
    simp only [UInt32.toNat_zero]
    omega
  · rw [payload, hjn, hsame, blockAt]
    simp

theorem deltaFindMatch_partial (xxh32 : List UInt8 → UInt32 → UInt32) (window : List UInt8)
    (adler : UInt32) (sig : DeltaSignature) (index : Option BlockIndex) (mask seed : UInt32) :
    deltaFindMatch xxh32 window adler false sig index mask seed = .done deltaNoBlock := by
  unfold deltaFindMatch
  rw [if_pos (.inl rfl)]

section
variable {old new : List UInt8} {blockSize : UInt32} {st : ComputeState} {sums : UInt32 × UInt32}

theorem missStep_consumed {rollingValid : Bool} (hi : st.i < new.length)
    (h : Consumed old new blockSize st)
    (hsums : rollingValid = true → sums = adlerSums (windowAt new st.i blockSize.toNat)) :
    Consumed old new blockSize (missStep st sums rollingValid) := by
  refine ⟨hi,fun _ => ?_,?_,fun hr => ⟨Nat.succ_pos _,hsums hr⟩⟩
  · simp only [missStep]
    cases hl : st.hasLiteral with
    | true => exact Nat.le_succ_of_le (h.literal hl)
    | false => exact Nat.le_succ _
  · exact h.spelled

theorem matchStep_consumed {matchBlock : UInt32} (hi : st.i+blockSize.toNat ≤ new.length)
    (h : Consumed old new blockSize st)
    (hin : InRange old blockSize (.blockMatch matchBlock 0 blockSize))
    (hp : payload old blockSize (.blockMatch matchBlock 0 blockSize) = windowAt new st.i blockSize.toNat) :
    Ensures (matchStep new st sums blockSize.toNat matchBlock) fun st' =>
      Consumed old new blockSize st' ∧ st'.i = st.i+blockSize.toNat := by
  refine ensures_bind (flushPending_spells h.bound h.literal
    (fun _ => rfl) h.spelled) ?_
  intro a ha
  rw [UInt32.ofNat_toNat]
  refine ensures_bind (appendInstr_spells ha hin) ?_
  intro b hb
  rw [hp, windowAt, ← List.take_add] at hb
  refine ⟨⟨hi,?_,hb,?_⟩,rfl⟩
  · intro hf
    exact absurd hf (by simp)
  · intro hf
    exact absurd hf (by simp)

end

section
variable {xxh32 : List UInt8 → UInt32 → UInt32} {old new : List UInt8} {sig : DeltaSignature}
  {index : Option BlockIndex} {mask blockSize seed : UInt32}

theorem computeStep_consumed {st : ComputeState} (hb : 0 < blockSize.toNat)
    (hsig : Describes xxh32 old blockSize seed sig) (hindex : IndexOf sig mask index)
    (hsep : Separates xxh32 old new blockSize seed) (hi : st.i < new.length)
    (h : Consumed old new blockSize st) :
    Ensures (computeStep xxh32 new sig index mask blockSize seed st) fun st' =>
      Consumed old new blockSize st' ∧ st.i < st'.i := by
  have hw := windowLength_le new.length st.i blockSize.toNat
  obtain ⟨⟨sums,rollingValid⟩,hr,hsums,hfull⟩ := windowSums_exact hb hi h.rolling
  dsimp only at hsums hfull
  rw [computeStep, hr, done_bind]
  dsimp only
  rw [slice_done (by omega), done_bind]
  change Ensures (deltaFindMatch xxh32 (windowAt new st.i
    (windowLength new.length st.i blockSize.toNat)) _ _ _ _ _ _ >>= _) _
  have hmiss : Consumed old new blockSize (missStep st sums rollingValid) ∧
      st.i < (missStep st sums rollingValid).i :=
    ⟨missStep_consumed hi h
      (fun hr => by rw [hsums, hfull hr]),Nat.lt_succ_self _⟩
  by_cases hwin : windowLength new.length st.i blockSize.toNat = blockSize.toNat
  · rw [hwin] at hw hsums ⊢
    rw [decide_eq_true rfl, deltaFindMatch_lowest hindex, done_bind,
      hsums, ← deltaAdler32]
    cases hm : lowestMatch sig (deltaAdler32 (windowAt new st.i blockSize.toNat))
        (xxh32 (windowAt new st.i blockSize.toNat) seed) with
    | none =>
      rw [code_none, if_neg (by simp), pure_done, ← hsums]
      exact hmiss
    | some j =>
      obtain ⟨hj,-⟩ := lowestMatch_some hm
      obtain ⟨hin,hp⟩ := matched_block hb hsig hsep
        (by omega) hm
      rw [if_pos (code_some_ne sig j hj), code_some]
      refine ensures_mono (matchStep_consumed (by omega) h hin hp) ?_
      rintro st' ⟨hst,hst'⟩
      exact ⟨hst,by omega⟩
  · rw [decide_eq_false hwin, deltaFindMatch_partial, done_bind, if_neg (by simp), pure_done]
    exact hmiss

theorem computeLoop_consumed (hb : 0 < blockSize.toNat)
    (hsig : Describes xxh32 old blockSize seed sig) (hindex : IndexOf sig mask index)
    (hsep : Separates xxh32 old new blockSize seed) {fuel : ℕ} (st : ComputeState)
    (hfuel : new.length-st.i ≤ fuel) (h : Consumed old new blockSize st) :
    Ensures (computeLoop xxh32 new sig index mask blockSize seed fuel st) fun st' =>
      Consumed old new blockSize st' ∧ st'.i = new.length := by
  induction fuel generalizing st with
  | zero =>
    have hi := h.bound
    rw [computeLoop, if_neg (by omega)]
    exact ⟨h,by omega⟩
  | succ fuel ih =>
    rw [computeLoop]
    by_cases hi : st.i < new.length
    · rw [if_pos hi]
      refine ensures_bind (computeStep_consumed hb
        hsig hindex hsep hi h) ?_
      rintro st' ⟨hst,hlt⟩
      exact ih st' (by omega) hst
    · have := h.bound
      rw [if_neg hi]
      exact ⟨h,by omega⟩

end

theorem sumSizes_recorded (instrs : List DeltaInstruction) (size : UInt64) :
    Ensures (sumSizes instrs size) fun r => r = instrs.foldl addSize size := by
  induction instrs generalizing size with
  | nil => rfl
  | cons instr instrs ih =>
    refine ensures_require fun _ => ?_
    exact ensures_require fun _ => ih (addSize size instr)

theorem startState_consumed {old new : List UInt8} {blockSize : UInt32} :
    Consumed old new blockSize startState := by
  refine ⟨Nat.zero_le _,?_,⟨?_,rfl⟩,?_⟩
  · intro h
    exact absurd h (by decide)
  · intro instr hinstr
    exact absurd hinstr (by simp [startState, InstrArray.empty])
  · intro h
    exact absurd h (by decide)

structure Reconstructs (old new : List UInt8) (blockSize : UInt32) (delta : Delta) : Prop where
  new_size : delta.newFileSize.toNat = new.length
  in_range : ∀ instr ∈ delta.instructions, InRange old blockSize instr
  payloads : delta.instructions.flatMap (payload old blockSize) = new
  recorded : delta.deltaSize = recordedSize delta.instructions
  count : delta.instructions.length ≤ maxDeltaInstructions

theorem lookupIndex_indexOf (sig : DeltaSignature) :
    ∃ index, lookupIndex sig = .done index ∧
      IndexOf sig (if index.isSome then deltaNextPow2 sig.blockCount-1 else 0) index := by
  unfold lookupIndex
  split_ifs
  · obtain ⟨index,hi,hx⟩ := deltaBuildIndex_indexOf sig
    refine ⟨index,hi,?_⟩
    cases index with
    | none => trivial
    | some index => exact hx
  · exact ⟨none,rfl,trivial⟩

/-- A delta returned for a signature of the old file spells the new file. The
hash enters through the separation hypothesis alone. -/
theorem deltaComputeSeeded_reconstructs {xxh32 : List UInt8 → UInt32 → UInt32}
    {old new : List UInt8} {sig : DeltaSignature} {blockSize seed : UInt32}
    (hsig : Describes xxh32 old blockSize seed sig)
    (hsep : Separates xxh32 old new blockSize seed) (hnew : new.length < 2^64) :
    Ensures (deltaComputeSeeded xxh32 new sig blockSize seed) (Reconstructs old new blockSize) := by
  refine ensures_require fun hguard => ?_
  have hb : 0 < blockSize.toNat := by
    rw [Nat.pos_iff_ne_zero]
    intro hz
    exact hguard (.inr (.inl (UInt32.toNat_inj.mp hz)))
  obtain ⟨index,hlookup,hindex⟩ := lookupIndex_indexOf sig
  rw [hlookup, done_bind]
  refine ensures_bind (computeLoop_consumed hb hsig
    hindex hsep startState (Nat.sub_le _ _) startState_consumed) ?_
  rintro st ⟨hst,hi⟩
  refine ensures_bind (flushPending_spells (le_refl _)
    (fun hl => hi ▸ hst.literal hl) (fun _ => hi) hst.spelled) ?_
  intro instrs hspell
  rw [List.take_length] at hspell
  refine ensures_bind (sumSizes_recorded instrs.items 0) ?_
  rintro size rfl
  exact ⟨UInt64.toNat_ofNat_of_lt' hnew,hspell.1,hspell.2,rfl,
    le_trans instrs.items_le instrs.capacity_le⟩

section Loop
variable {xxh32 : List UInt8 → UInt32 → UInt32} {new : List UInt8} {sig : DeltaSignature}
  {index : Option BlockIndex} {mask blockSize seed : UInt32}

theorem computeStep_rolling {st st' : ComputeState} (hb : 0 < blockSize.toNat)
    (hi : st.i < new.length) (h : Rolling new blockSize st)
    (hstep : computeStep xxh32 new sig index mask blockSize seed st = .done st') :
    Rolling new blockSize st' := by
  obtain ⟨r,hr,hsums,hfull⟩ := windowSums_exact hb hi h
  rw [computeStep, hr, done_bind] at hstep
  obtain ⟨window,-,hstep⟩ := bind_eq_done.mp hstep
  obtain ⟨block,-,hstep⟩ := bind_eq_done.mp hstep
  split_ifs at hstep
  · obtain ⟨instrs,-,hstep⟩ := bind_eq_done.mp hstep
    obtain ⟨instrs',-,hstep⟩ := bind_eq_done.mp hstep
    cases hstep
    exact fun hvalid => absurd hvalid (by simp)
  · cases hstep
    exact fun hvalid => ⟨Nat.succ_pos _,by rw [← hfull hvalid]; exact hsums⟩

def Turn (xxh32 : List UInt8 → UInt32 → UInt32) (new : List UInt8) (sig : DeltaSignature)
    (index : Option BlockIndex) (mask blockSize seed : UInt32) (st st' : ComputeState) : Prop :=
  st.i < new.length ∧ computeStep xxh32 new sig index mask blockSize seed st = .done st'

theorem turns_rolling {st : ComputeState} (hb : 0 < blockSize.toNat)
    (h : Relation.ReflTransGen (Turn xxh32 new sig index mask blockSize seed) startState st) :
    Rolling new blockSize st := by
  induction h with
  | refl => exact fun hvalid => absurd hvalid (by decide)
  | tail _ hturn ih => exact computeStep_rolling hb hturn.1 ih hturn.2

/-- No sum of the update leaves 32 bits and no subtraction goes below zero. -/
structure Unwrapped (blockSize : UInt32) (s : UInt32 × UInt32) (oldByte newByte : UInt8) :
    Prop where
  room : s.1.toNat+65521+255 < 2^32 ∧ s.2.toNat+65521+65521 < 2^32
  first : oldByte.toNat ≤ s.1.toNat+65521
  second : (rollWeight blockSize oldByte).toNat ≤ s.2.toNat+65521
  last : 1 ≤ s.2.toNat+65521-(rollWeight blockSize oldByte).toNat+
    (rollFirst s.1 oldByte newByte).toNat

theorem reduced_unwrapped {s : UInt32 × UInt32} (h : Reduced s) (oldByte newByte : UInt8) :
    Unwrapped blockSize s oldByte newByte := by
  obtain ⟨h1,h2⟩ := h
  have hbyte := oldByte.toNat_lt
  have hweight : (rollWeight blockSize oldByte).toNat < 65521 := by
    rw [rollWeight_toNat]
    exact Nat.mod_lt _ (by decide)
  constructor <;> omega

end Loop

end FastSync.DeltaCompute
