import FastSync.DeltaApply

/-!
# The delta frame

A delta travels as its target size, its instruction count and the instructions
themselves. The serializer allocates the size the delta records for itself;
an image of any other length is a fault of the model, since it would overrun
the buffer or leave part of it unwritten.
-/

set_option autoImplicit false

namespace FastSync.DeltaWire
open CheckedMemory LittleEndian DeltaApply

def deltaOpBlockMatch : UInt8 := 0x01
def deltaOpLiteral : UInt8 := 0x02

def instructionSize : DeltaInstruction → UInt64
  | .blockMatch _ _ _ => 4*3
  | .literal data => 4+UInt64.ofNat data.1.length

def addSize (size : UInt64) (instr : DeltaInstruction) : UInt64 := size+1+instructionSize instr

def literalLength (data : {bytes : List UInt8 // bytes.length < 2^32}) : UInt32 :=
  UInt32.ofNat data.1.length

def putInstruction : DeltaInstruction → List UInt8
  | .blockMatch blockIndex blockOffset length =>
    putU8 deltaOpBlockMatch++putU32 blockIndex++putU32 blockOffset++putU32 length
  | .literal data => putU8 deltaOpLiteral++putU32 (literalLength data)++data.1

def deltaSerialize (delta : Delta) : Checked (List UInt8) := do
  let headerSize := 8+4
  require (¬(delta.deltaSize.toNat > uint64Max-headerSize ∨
    headerSize+delta.deltaSize.toNat > sizeMax))
  let total := headerSize+delta.deltaSize.toNat
  let image := putU64 delta.newFileSize++putU32 delta.instructionCount++
    delta.instructions.flatMap putInstruction
  if image.length = total then pure image else .fault

def getBlockMatch (data : List UInt8) (pos : ℕ) : Checked (DeltaInstruction × ℕ) := do
  require (¬data.length-pos < 4*3)
  let blockIndex ← getU32 data pos
  let blockOffset ← getU32 data (pos+4)
  let length ← getU32 data (pos+4+4)
  pure (.blockMatch blockIndex blockOffset length, pos+4+4+4)

def getLiteral (data : List UInt8) (pos : ℕ) : Checked (DeltaInstruction × ℕ) := do
  require (¬data.length-pos < 4)
  let length ← getU32 data pos
  let pos := pos+4
  require (¬length.toNat > data.length-pos)
  let bytes ← sliceExact data pos length.toNat
  pure (.literal ⟨bytes.1,by rw [bytes.2]; exact length.toNat_lt⟩, pos+length.toNat)

def getInstruction (data : List UInt8) (pos : ℕ) : Checked (DeltaInstruction × ℕ) := do
  require (¬pos ≥ data.length)
  let type ← getU8 data pos
  let pos := pos+1
  if type = deltaOpBlockMatch then getBlockMatch data pos
  else if type = deltaOpLiteral then getLiteral data pos
  else .reject

def getInstructions (data : List UInt8) :
    (n : ℕ) → ℕ → UInt64 → Checked ({xs : List DeltaInstruction // xs.length = n} × UInt64)
  | 0, _, size => .done (⟨[],rfl⟩, size)
  | n+1, pos, size => do
    let (instr, pos) ← getInstruction data pos
    let (instrs, size) ← getInstructions data n pos (addSize size instr)
    pure (⟨instr::instrs.1,by simp [instrs.2]⟩, size)

def deltaDeserialize (data : List UInt8) : Checked Delta := do
  require (8+4 ≤ data.length)
  let newFileSize ← getU64 data 0
  let instructionCount ← getU32 data 8
  require (instructionCount.toNat ≤ maxDeltaInstructions)
  let (instrs, size) ← getInstructions data instructionCount.toNat 12 0
  pure ⟨newFileSize,instrs.1,size,by rw [instrs.2]; exact instructionCount.toNat_lt⟩

def imageLength (instrs : List DeltaInstruction) : ℕ := (instrs.flatMap putInstruction).length

def recordedSize (instrs : List DeltaInstruction) : UInt64 := instrs.foldl addSize 0

structure Sized (delta : Delta) : Prop where
  count : delta.instructions.length ≤ maxDeltaInstructions
  recorded : delta.deltaSize = recordedSize delta.instructions
  image : 12+imageLength delta.instructions ≤ uint64Max

theorem literalLength_toNat (data : {bytes : List UInt8 // bytes.length < 2^32}) :
    (literalLength data).toNat = data.1.length := UInt32.toNat_ofNat_of_lt' data.2

theorem putInstruction_length (instr : DeltaInstruction) :
    (putInstruction instr).length = 1+(instructionSize instr).toNat := by
  cases instr with
  | blockMatch b o l => rfl
  | literal data =>
    simp only [putInstruction,instructionSize,List.length_append,putU8_length,putU32_length,
      UInt64.toNat_add,UInt64.toNat_ofNat',UInt64.reduceToNat]
    omega

section
variable (instrs : List DeltaInstruction)

theorem foldl_addSize_toNat (size : UInt64) (h : size.toNat+imageLength instrs < 2^64) :
    (instrs.foldl addSize size).toNat = size.toNat+imageLength instrs := by
  induction instrs generalizing size with
  | nil => rfl
  | cons instr instrs ih =>
    have hsplit : imageLength (instr::instrs) =
        1+(instructionSize instr).toNat+imageLength instrs := by
      rw [imageLength,List.flatMap_cons,List.length_append,putInstruction_length,imageLength]
    have hstep : (addSize size instr).toNat = size.toNat+(1+(instructionSize instr).toNat) := by
      simp only [addSize,UInt64.toNat_add,UInt64.reduceToNat]
      omega
    rw [List.foldl_cons,ih _ (by omega),hstep]
    omega

theorem recordedSize_toNat (h : imageLength instrs < 2^64) :
    (recordedSize instrs).toNat = imageLength instrs := by
  rw [recordedSize,foldl_addSize_toNat instrs 0 (by simpa using h)]
  simp

theorem getU32_at (data pre post : List UInt8) (v : UInt32) (pos : ℕ)
    (hdata : data = pre++putU32 v++post) (hpos : pos = pre.length) : getU32 data pos = .done v := by
  rw [hdata,hpos]
  exact getU32_put pre post v

section
variable (pre post : List UInt8)

theorem getBlockMatch_put (b o l : UInt32) :
    getBlockMatch (pre++(putU32 b++putU32 o++putU32 l)++post) pre.length =
      .done (.blockMatch b o l, pre.length+12) := by
  have hb := getU32_at (pre++(putU32 b++putU32 o++putU32 l)++post) pre
    (putU32 o++putU32 l++post) b pre.length (by simp) rfl
  have ho := getU32_at (pre++(putU32 b++putU32 o++putU32 l)++post) (pre++putU32 b)
    (putU32 l++post) o (pre.length+4) (by simp) (by simp)
  have hl := getU32_at (pre++(putU32 b++putU32 o++putU32 l)++post) (pre++putU32 b++putU32 o)
    post l (pre.length+4+4) (by simp) (by simp)
  rw [getBlockMatch,require_pos (by simp; omega),done_bind,hb,done_bind,ho,done_bind,hl,
    done_bind,pure_done]

theorem getLiteral_put (data : {bytes : List UInt8 // bytes.length < 2^32}) :
    getLiteral (pre++(putU32 (literalLength data)++data.1)++post) pre.length =
      .done (.literal data, pre.length+4+data.1.length) := by
  have hl := getU32_at (pre++(putU32 (literalLength data)++data.1)++post) pre
    (data.1++post) (literalLength data) pre.length (by simp) rfl
  have hn := literalLength_toNat data
  have hd : ((pre++(putU32 (literalLength data)++data.1)++post).drop (pre.length+4)).take
      (literalLength data).toNat = data.1 := by
    have hs : pre++(putU32 (literalLength data)++data.1)++post =
        (pre++putU32 (literalLength data))++(data.1++post) := by simp
    rw [hs,List.drop_left' (by simp),List.take_left' hn.symm]
  rw [getLiteral,require_pos (by simp),done_bind,hl,done_bind]
  dsimp only
  rw [require_pos (by simp; omega),done_bind,sliceExact_done (by simp; omega),done_bind,
    pure_done]
  simp only [hd]
  simp [hn]

theorem getInstruction_put (instr : DeltaInstruction) :
    getInstruction (pre++putInstruction instr++post) pre.length =
      .done (instr, pre.length+(putInstruction instr).length) := by
  cases instr with
  | blockMatch b o l =>
    have htype := getU8_put pre (putU32 b++putU32 o++putU32 l++post) deltaOpBlockMatch
    have hrest := getBlockMatch_put (pre++putU8 deltaOpBlockMatch) post b o l
    simp only [List.append_assoc,List.length_append,putU8_length] at htype hrest
    rw [getInstruction]
    simp only [putInstruction,List.append_assoc]
    rw [require_pos (by simp),done_bind,htype,done_bind,if_pos rfl,hrest]
    simp
  | literal data =>
    have htype := getU8_put pre (putU32 (literalLength data)++data.1++post) deltaOpLiteral
    have hrest := getLiteral_put (pre++putU8 deltaOpLiteral) post data
    simp only [List.append_assoc,List.length_append,putU8_length] at htype hrest
    rw [getInstruction]
    simp only [putInstruction,List.append_assoc]
    rw [require_pos (by simp),done_bind,htype,done_bind,if_neg (by decide),
      if_pos rfl,hrest]
    simp
    omega

end

theorem getInstructions_put (n : ℕ) (hn : instrs.length = n) (pre post : List UInt8) (size : UInt64) :
    getInstructions (pre++instrs.flatMap putInstruction++post) n pre.length size =
      .done (⟨instrs,hn⟩, instrs.foldl addSize size) := by
  induction instrs generalizing n pre size with
  | nil =>
    subst hn
    rfl
  | cons instr instrs ih =>
    subst hn
    have hhead := getInstruction_put pre (instrs.flatMap putInstruction++post) instr
    have htail := ih _ rfl (pre++putInstruction instr) (addSize size instr)
    simp only [List.append_assoc,List.length_append] at hhead htail
    change getInstructions _ (instrs.length+1) _ _ = _
    rw [getInstructions,List.flatMap_cons]
    simp [hhead,done_bind,htail,pure_done]

end

def header (delta : Delta) : List UInt8 := putU64 delta.newFileSize++putU32 delta.instructionCount

theorem header_length (delta : Delta) : (header delta).length = 12 := by simp [header]

theorem deltaSerialize_image (delta : Delta) (h : Sized delta) :
    deltaSerialize delta = .done (header delta++delta.instructions.flatMap putInstruction) := by
  have himage := h.image
  have hsize : delta.deltaSize.toNat = imageLength delta.instructions := by
    rw [h.recorded,recordedSize_toNat _ (by unfold uint64Max at himage; omega)]
  simp only [deltaSerialize]
  rw [require_pos (by unfold uint64Max at *; unfold sizeMax; omega),done_bind,if_pos]
  · rfl
  · rw [List.length_append,hsize,imageLength,← header,header_length]

theorem delta_roundtrip {delta : Delta} (h : Sized delta) :
    (deltaSerialize delta >>= deltaDeserialize) = .done delta := by
  set body := delta.instructions.flatMap putInstruction with hbody
  have hlen := header_length delta
  have hfile : getU64 (header delta++body) 0 = .done delta.newFileSize := by
    simpa [header] using getU64_put [] (putU32 delta.instructionCount++body) delta.newFileSize
  have hcount : getU32 (header delta++body) 8 = .done delta.instructionCount :=
    getU32_at _ (putU64 delta.newFileSize) body _ _ (by simp [header]) (by simp)
  have hinstrs := getInstructions_put delta.instructions delta.instructionCount.toNat
    (instructionCount_toNat delta).symm (header delta) [] 0
  rw [List.append_nil,hlen] at hinstrs
  rw [deltaSerialize_image delta h,done_bind,deltaDeserialize,
    require_pos (by rw [List.length_append]; omega),
    done_bind,hfile,done_bind,hcount,done_bind,
    require_pos (by rw [instructionCount_toNat]; exact h.count),done_bind,hinstrs,done_bind]
  have hrecorded : delta.instructions.foldl addSize 0 = delta.deltaSize := h.recorded.symm
  simp [pure_done,hrecorded]

section Frame
variable {data xs ys : List UInt8} {i j k pos : ℕ}

/-- The bytes `xs` stand between two positions of the buffer. -/
structure Spans (data : List UInt8) (i j : ℕ) (xs : List UInt8) : Prop where
  stop : j = i+xs.length
  inside : j ≤ data.length
  bytes : data.take j = data.take i++xs

theorem spans_append (h : Spans data i j xs) (h' : Spans data j k ys) :
    Spans data i k (xs++ys) where
  stop := by rw [h'.stop,h.stop,List.length_append,Nat.add_assoc]
  inside := h'.inside
  bytes := by rw [h'.bytes,h.bytes,List.append_assoc]

theorem spans_slice (n : ℕ) (h : pos+n ≤ data.length) :
    Spans data pos (pos+n) ((data.drop pos).take n) where
  stop := by simp; omega
  inside := h
  bytes := List.take_add

theorem getU8_spans (h : pos < data.length) :
    Ensures (getU8 data pos) fun v => Spans data pos (pos+1) (putU8 v) := by
  rw [getU8,load_done h]
  exact ⟨rfl,h,by simp [putU8]⟩

theorem getU32_spans (h : pos+4 ≤ data.length) :
    Ensures (getU32 data pos) fun v => Spans data pos (pos+4) (putU32 v) := by
  rw [getU32,slice_done h]
  show Spans data pos (pos+4) (putU32 (UInt32.ofNat _))
  rw [putU32_decode (by simp; omega)]
  exact spans_slice 4 h

theorem getU64_spans (h : pos+8 ≤ data.length) :
    Ensures (getU64 data pos) fun v => Spans data pos (pos+8) (putU64 v) := by
  rw [getU64,slice_done h]
  show Spans data pos (pos+8) (putU64 (UInt64.ofNat _))
  rw [putU64_decode (by simp; omega)]
  exact spans_slice 8 h

theorem getBlockMatch_spans (h : Spans data i pos (putU8 deltaOpBlockMatch)) :
    Ensures (getBlockMatch data pos) fun r => Spans data i r.2 (putInstruction r.1) := by
  have hpos := h.inside
  refine ensures_require fun hroom => ?_
  refine ensures_bind (getU32_spans (by omega)) fun b hb => ?_
  refine ensures_bind (getU32_spans (by omega)) fun o ho => ?_
  refine ensures_bind (getU32_spans (by omega)) fun l hl => ?_
  exact spans_append (spans_append (spans_append h hb) ho) hl

theorem getLiteral_spans (h : Spans data i pos (putU8 deltaOpLiteral)) :
    Ensures (getLiteral data pos) fun r => Spans data i r.2 (putInstruction r.1) := by
  have hpos := h.inside
  refine ensures_require fun hroom => ?_
  refine ensures_bind (getU32_spans (by omega)) fun n hn => ?_
  refine ensures_require fun hfit => ?_
  have hbytes := @spans_slice data (pos+4) n.toNat (by omega)
  rw [sliceExact_done hbytes.inside]
  have hlength : literalLength ⟨(data.drop (pos+4)).take n.toNat,
      by have := n.toNat_lt; simp; omega⟩ = n := by
    rw [literalLength,← Nat.add_left_cancel hbytes.stop,UInt32.ofNat_toNat]
  rw [← hlength] at hn
  exact spans_append (spans_append h hn) hbytes

theorem getInstruction_spans :
    Ensures (getInstruction data pos) fun r => Spans data pos r.2 (putInstruction r.1) := by
  refine ensures_require fun hroom => ?_
  refine ensures_bind (getU8_spans (by omega)) fun type htype => ?_
  dsimp only
  split_ifs with hmatch hliteral
  · exact getBlockMatch_spans (hmatch ▸ htype)
  · exact getLiteral_spans (hliteral ▸ htype)
  · trivial

theorem getInstructions_spans {n : ℕ} (size : UInt64) (h : Spans data i pos xs) :
    Ensures (getInstructions data n pos size) fun r =>
      (∃ stop, Spans data i stop (xs++r.1.1.flatMap putInstruction)) ∧
        r.2 = r.1.1.foldl addSize size := by
  induction n generalizing pos xs size with
  | zero => exact ⟨⟨pos,by simpa using h⟩,rfl⟩
  | succ n ih =>
    refine ensures_bind getInstruction_spans ?_
    rintro ⟨instr,next⟩ hinstr
    refine ensures_bind (ih (addSize size instr) (spans_append h hinstr)) ?_
    rintro ⟨instrs,size⟩ ⟨⟨stop,hstop⟩,hsize⟩
    exact ⟨⟨stop,by simpa using hstop⟩,hsize⟩

theorem deltaDeserialize_spans (hdata : data.length ≤ sizeMax) :
    Ensures (deltaDeserialize data) fun delta =>
      Sized delta ∧ header delta++delta.instructions.flatMap putInstruction <+: data := by
  refine ensures_require fun hroom => ?_
  refine ensures_bind (@getU64_spans data 0 (by omega)) fun size hsize => ?_
  refine ensures_bind (@getU32_spans data 8 (by omega)) fun count hcount => ?_
  refine ensures_require fun hmax => ?_
  refine ensures_bind (getInstructions_spans 0 (spans_append hsize hcount)) ?_
  rintro ⟨⟨instrs,hlen⟩,sum⟩ ⟨⟨stop,hstop⟩,hsum⟩
  have hcounted : UInt32.ofNat instrs.length = count := by rw [hlen,UInt32.ofNat_toNat]
  have hend := hstop.stop
  have hinside := hstop.inside
  simp only [List.length_append,putU64_length,putU32_length] at hend
  refine ⟨⟨le_of_eq_of_le hlen hmax,hsum,?_⟩,?_⟩
  · show 12+(instrs.flatMap putInstruction).length ≤ uint64Max
    unfold sizeMax at hdata
    unfold uint64Max
    omega
  · rw [header,Delta.instructionCount,hcounted]
    have hbytes := hstop.bytes
    rw [List.take_zero,List.nil_append] at hbytes
    rw [← hbytes]
    exact List.take_prefix stop data

end Frame

end FastSync.DeltaWire
