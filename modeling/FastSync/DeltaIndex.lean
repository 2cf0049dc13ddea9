import FastSync.BucketChain
import FastSync.DeltaBlocks

/-!
# The block index and the match lookup

`delta_build_index` chains the blocks of a signature by their mixed weak
checksum; `delta_find_match` walks one chain, or scans all blocks when no index
could be built. A link that was never written is kept apart from the sentinel,
so reading one is an access fault of the model.
-/

set_option autoImplicit false

namespace FastSync.DeltaIndex
open CheckedMemory DeltaBlocks BucketChain

def deltaNoBlock : UInt32 := 0xFFFFFFFF

def deltaAdlerMix (h : UInt32) : UInt32 :=
  let h := h ^^^ (h >>> 16)
  let h := h*0x7feb352d
  let h := h ^^^ (h >>> 15)
  let h := h*0x846ca68b
  h ^^^ (h >>> 16)

def deltaNextPow2 (v : UInt32) : UInt32 :=
  let v := v-1
  let v := v ||| (v >>> 1)
  let v := v ||| (v >>> 2)
  let v := v ||| (v >>> 4)
  let v := v ||| (v >>> 8)
  let v := v ||| (v >>> 16)
  v+1

structure BlockIndex where
  heads : List UInt32
  tails : List UInt32
  next : List (Option UInt32)
deriving DecidableEq, Repr

def bucket (mask : UInt32) (adler : UInt32) : ℕ := (deltaAdlerMix adler &&& mask).toNat

def indexStep (sig : DeltaSignature) (mask : UInt32) (index : BlockIndex) (j : ℕ) :
    Checked BlockIndex := do
  let block ← load sig.blocks j
  let b := bucket mask block.adler32
  let head ← load index.heads b
  let linked ← if head = deltaNoBlock then do
      let heads ← store index.heads b (UInt32.ofNat j)
      pure (heads, index.next)
    else do
      let tail ← load index.tails b
      let next ← store index.next tail.toNat (some (UInt32.ofNat j))
      pure (index.heads, next)
  let tails ← store index.tails b (UInt32.ofNat j)
  let next ← store linked.2 j (some deltaNoBlock)
  pure ⟨linked.1,tails,next⟩

def indexLoop (sig : DeltaSignature) (bucketCount : UInt32) : ℕ → Checked BlockIndex
  | 0 => .done ⟨List.replicate bucketCount.toNat deltaNoBlock,
      List.replicate bucketCount.toNat deltaNoBlock,List.replicate sig.blocks.length none⟩
  | j+1 => do
    let index ← indexLoop sig bucketCount j
    indexStep sig (bucketCount-1) index j

def deltaBuildIndex (sig : DeltaSignature) (bucketCount : UInt32) :
    Checked (Option BlockIndex) :=
  if sig.blockCount = 0 ∨ bucketCount = 0 then .done none
  else if 2*bucketCount.toNat+sig.blockCount.toNat > sizeMax/4 then .done none
  else do
    let index ← indexLoop sig bucketCount sig.blockCount.toNat
    pure (some index)

def loadLink (next : List (Option UInt32)) (j : ℕ) : Checked UInt32 := do
  match ← load next j with
  | some v => pure v
  | none => .fault

def chainWalk (sig : DeltaSignature) (next : List (Option UInt32)) (adler windowXxh : UInt32) :
    ℕ → UInt32 → Checked UInt32
  | fuel, j =>
    if j = deltaNoBlock then .done deltaNoBlock
    else match fuel with
      | 0 => .fault
      | k+1 => do
        let block ← load sig.blocks j.toNat
        if block.adler32 = adler ∧ windowXxh = block.xxhash then pure j
        else do
          let j ← loadLink next j.toNat
          chainWalk sig next adler windowXxh k j

def linearScan (adler windowXxh : UInt32) : List DeltaBlockSig → ℕ → UInt32
  | [], _ => deltaNoBlock
  | block::blocks, j =>
    if block.adler32 = adler ∧ windowXxh = block.xxhash then UInt32.ofNat j
    else linearScan adler windowXxh blocks (j+1)

def deltaFindMatch (xxh32 : List UInt8 → UInt32 → UInt32) (window : List UInt8) (adler : UInt32)
    (fullWindow : Bool) (sig : DeltaSignature) (index : Option BlockIndex) (mask seed : UInt32) :
    Checked UInt32 :=
  if fullWindow = false ∨ sig.blockCount = 0 then .done deltaNoBlock
  else match index with
    | some index => do
      let head ← load index.heads (bucket mask adler)
      chainWalk sig index.next adler (xxh32 window seed) sig.blockCount.toNat head
    | none => .done (linearScan adler (xxh32 window seed) sig.blocks 0)

def blockKey (sig : DeltaSignature) (mask : UInt32) (j : ℕ) : ℕ :=
  bucket mask (sig.blocks.getD j ⟨0,0⟩).adler32

def code : Option ℕ → UInt32
  | none => deltaNoBlock
  | some j => UInt32.ofNat j

@[simp] theorem code_none : code none = deltaNoBlock := rfl

@[simp] theorem code_some (j : ℕ) : code (some j) = UInt32.ofNat j := rfl

structure Represents (sig : DeltaSignature) (bucketCount : UInt32) (index : BlockIndex)
    (c : Chains) (k : ℕ) : Prop where
  heads_length : index.heads.length = bucketCount.toNat
  tails_length : index.tails.length = bucketCount.toNat
  next_length : index.next.length = sig.blocks.length
  heads : Holds index.heads bucketCount.toNat (code ∘ c.heads)
  tails : Holds index.tails bucketCount.toNat (code ∘ c.tails)
  next : Holds index.next k (some ∘ code ∘ c.next)

section
variable (sig : DeltaSignature) (j : ℕ) (h : j < sig.blocks.length)
include h

theorem code_some_toNat : (code (some j)).toNat = j :=
  UInt32.toNat_ofNat_of_lt' (lt_trans h sig.count_fits)

theorem code_some_ne : code (some j) ≠ deltaNoBlock := by
  intro he
  have hj := code_some_toNat sig j h
  have hc := sig.count_fits
  rw [he] at hj
  have hd : deltaNoBlock.toNat = 2^32-1 := rfl
  omega

end

theorem bucket_lt (bucketCount adler : UInt32) (h : bucketCount ≠ 0) :
    bucket (bucketCount-1) adler < bucketCount.toNat := by
  have hle : (deltaAdlerMix adler &&& (bucketCount-1)).toNat ≤ (bucketCount-1).toNat := by
    exact Nat.and_le_right
  have hpos : 0 < bucketCount.toNat := by
    rw [Nat.pos_iff_ne_zero]
    intro hz
    exact h (UInt32.toNat_inj.mp hz)
  have hone : (1 : UInt32) ≤ bucketCount := by
    exact hpos
  have hsub : (bucketCount-1).toNat = bucketCount.toNat-1 := UInt32.toNat_sub_of_le _ _ hone
  unfold bucket
  omega

theorem build_heads_none_iff (key : ℕ → ℕ) (n b : ℕ) :
    (build key n).heads b = none ↔ (build key n).tails b = none := by
  rw [build_heads,build_tails,firstFrom_none,lastBelow_none]
  exact ⟨fun h j hj => h j (Nat.zero_le j) hj,fun h j _ hj => h j hj⟩

section
variable (sig : DeltaSignature)

theorem blockKey_eq {mask : UInt32} {j : ℕ} (h : j < sig.blocks.length) :
    blockKey sig mask j = bucket mask sig.blocks[j].adler32 := by
  simp [blockKey,h]

section
variable {mask : UInt32} (index : BlockIndex) (j b : ℕ)

theorem indexStep_first (hj : j < sig.blocks.length) (hb : blockKey sig mask j = b)
    (hhead : load index.heads b = .done deltaNoBlock) (hheads : b < index.heads.length)
    (htails : b < index.tails.length) (hnext : j < index.next.length) :
    indexStep sig mask index j = .done ⟨index.heads.set b (UInt32.ofNat j),
      index.tails.set b (UInt32.ofNat j),index.next.set j (some deltaNoBlock)⟩ := by
  rw [blockKey_eq sig hj] at hb
  rw [indexStep,load_done hj,done_bind]
  dsimp only
  rw [hb,hhead,done_bind,if_pos rfl,store_done hheads,done_bind,pure_done,done_bind,
    store_done htails,done_bind,store_done hnext,done_bind,pure_done]

theorem indexStep_linked {head tail : UInt32} (hj : j < sig.blocks.length)
    (hb : blockKey sig mask j = b) (hhead : load index.heads b = .done head)
    (hne : head ≠ deltaNoBlock) (htail : load index.tails b = .done tail)
    (htails : b < index.tails.length) (htnext : tail.toNat < index.next.length)
    (hnext : j < index.next.length) :
    indexStep sig mask index j = .done ⟨index.heads,index.tails.set b (UInt32.ofNat j),
      (index.next.set tail.toNat (some (UInt32.ofNat j))).set j (some deltaNoBlock)⟩ := by
  rw [blockKey_eq sig hj] at hb
  have hset : j < (index.next.set tail.toNat (some (UInt32.ofNat j))).length := by
    rwa [List.length_set]
  rw [indexStep,load_done hj,done_bind]
  dsimp only
  rw [hb,hhead,done_bind,if_neg hne,htail,done_bind,store_done htnext,done_bind,
    pure_done,done_bind,store_done htails,done_bind,store_done hset,done_bind,
    pure_done]

end

section
variable {bucketCount : UInt32} (hb : bucketCount ≠ 0)
include hb

theorem indexStep_represents {index : BlockIndex} {k : ℕ} (hk : k < sig.blocks.length)
    (h : Represents sig bucketCount index (build (blockKey sig (bucketCount-1)) k) k) :
    ∃ index', indexStep sig (bucketCount-1) index k = .done index' ∧
      Represents sig bucketCount index' (build (blockKey sig (bucketCount-1)) (k+1)) (k+1) := by
  obtain ⟨hhl,htl,hnl,hheads,htails,hnext⟩ := h
  set key := blockKey sig (bucketCount-1) with hkey
  have hbl : key k < bucketCount.toNat := bucket_lt bucketCount _ hb
  have hkn : k < index.next.length := hnl.symm ▸ hk
  have htails' := holds_set htails (code (some k)) (htl.symm ▸ hbl)
  rw [← Function.comp_update] at htails'
  cases hh : (build key k).heads (key k) with
  | none =>
    have ht : (build key k).tails (key k) = none := (build_heads_none_iff key k _).mp hh
    have hhead : load index.heads (key k) = .done deltaNoBlock := by
      rw [load_holds hheads hbl,Function.comp_apply,hh]
      rfl
    have hheads' := holds_set hheads (code (some k)) (hhl.symm ▸ hbl)
    have hnext' := holds_extend hnext (some (code none)) hkn
    rw [← Function.comp_update] at hheads'
    rw [← Function.comp_update,← Function.comp_update] at hnext'
    refine ⟨_,indexStep_first sig index k (key k) hk rfl hhead (hhl.symm ▸ hbl) (htl.symm ▸ hbl) hkn,?_⟩
    refine ⟨by simpa using hhl,by simpa using htl,by simpa using hnl,?_,htails',?_⟩
    · simpa only [build,extend,hh,if_true,code_some] using hheads'
    · simpa only [build,extend,linked,ht,code_some,code_none] using hnext'
  | some i =>
    have hne : (build key k).tails (key k) ≠ none := by
      rw [Ne,← build_heads_none_iff,hh]
      simp
    obtain ⟨t,ht⟩ := Option.ne_none_iff_exists'.mp hne
    have hik : i < k := (firstFrom_some _ ((build_heads key k _).symm.trans hh)).2.1
    have htk : t < k := (lastBelow_some _ ((build_tails key k _).symm.trans ht)).1
    have hhead : load index.heads (key k) = .done (code (some i)) := by
      rw [load_holds hheads hbl,Function.comp_apply,hh]
    have htail : load index.tails (key k) = .done (code (some t)) := by
      rw [load_holds htails hbl,Function.comp_apply,ht]
    have htc : (code (some t)).toNat = t := code_some_toNat sig t (lt_trans htk hk)
    have hlink := holds_set hnext (some (code (some k))) (lt_trans htk hkn)
    have hnext' := holds_extend hlink (some (code none)) (by rwa [List.length_set])
    rw [← Function.comp_update,← Function.comp_update,← Function.comp_update,
      ← Function.comp_update] at hnext'
    refine ⟨_,indexStep_linked sig index k (key k) hk rfl hhead
      (code_some_ne sig i (lt_trans hik hk)) htail (htl.symm ▸ hbl)
      (by rw [htc]; exact lt_trans htk hkn) hkn,?_⟩
    refine ⟨by simpa using hhl,by simpa using htl,by simpa using hnl,?_,htails',?_⟩
    · simpa [build,extend,hh] using hheads
    · rw [htc]
      simpa only [build,extend,linked,ht,code_some,code_none] using hnext'

theorem indexLoop_represents {k : ℕ} (hk : k ≤ sig.blocks.length) :
    ∃ index, indexLoop sig bucketCount k = .done index ∧
      Represents sig bucketCount index (build (blockKey sig (bucketCount-1)) k) k := by
  induction k with
  | zero =>
    refine ⟨_,rfl,by simp,by simp,by simp,?_,?_,?_⟩
    · intro b hb
      simp [build,code,hb]
    · intro b hb
      simp [build,code,hb]
    · intro j hj
      omega
  | succ k ih =>
    obtain ⟨index,hi,hr⟩ := ih (by omega)
    obtain ⟨index',hi',hr'⟩ := indexStep_represents sig hb hk hr
    refine ⟨index',?_,hr'⟩
    rw [indexLoop,hi,done_bind,hi']

end

def Agrees (sig : DeltaSignature) (adler windowXxh : UInt32) (j : ℕ) : Prop :=
  (sig.blocks.getD j ⟨0,0⟩).adler32 = adler ∧ windowXxh = (sig.blocks.getD j ⟨0,0⟩).xxhash

instance (sig : DeltaSignature) (adler windowXxh : UInt32) :
    DecidablePred (Agrees sig adler windowXxh) :=
  fun _ => inferInstanceAs (Decidable (_ ∧ _))

def lowestMatch (sig : DeltaSignature) (adler windowXxh : UInt32) : Option ℕ :=
  firstFrom (Agrees sig adler windowXxh) 0 sig.blocks.length

theorem chainWalk_walk {next : List (Option UInt32)} {c : Chains} {adler windowXxh : UInt32}
    (hnext : Holds next sig.blocks.length (some ∘ code ∘ c.next))
    (hlt : ∀ j i, c.next j = some i → j < sig.blocks.length → i < sig.blocks.length) {fuel : ℕ}
    (o r : Option ℕ) (ho : ∀ j, o = some j → j < sig.blocks.length)
    (hw : walk c.next (Agrees sig adler windowXxh) fuel o = some r) :
    chainWalk sig next adler windowXxh fuel (code o) = .done (code r) := by
  induction fuel generalizing o with
  | zero =>
    cases o with
    | none =>
      rw [walk,Option.some.injEq] at hw
      subst hw
      rw [chainWalk,if_pos code_none,code_none]
    | some j => simp [walk] at hw
  | succ fuel ih =>
    cases o with
    | none =>
      rw [walk,Option.some.injEq] at hw
      subst hw
      rw [chainWalk,if_pos code_none,code_none]
    | some j =>
      have hj := ho j rfl
      have hblock : sig.blocks.getD j ⟨0,0⟩ = sig.blocks[j] := by simp [hj]
      rw [chainWalk,if_neg (code_some_ne sig j hj)]
      rw [code_some_toNat sig j hj,load_done hj,done_bind]
      rw [walk] at hw
      by_cases ha : Agrees sig adler windowXxh j
      · rw [if_pos ha,Option.some.injEq] at hw
        subst hw
        rw [Agrees,hblock] at ha
        rw [if_pos ha,pure_done]
      · rw [if_neg ha] at hw
        rw [Agrees,hblock] at ha
        have hlink : loadLink next j = .done (code (c.next j)) := by
          rw [loadLink,load_holds hnext hj,done_bind]
          rfl
        rw [if_neg ha,hlink,done_bind]
        exact ih (c.next j) (fun i hi => hlt j i hi hj) hw

theorem linearScan_firstFrom {adler windowXxh : UInt32} {blocks : List DeltaBlockSig} (j : ℕ)
    (hj : sig.blocks.drop j = blocks) :
    linearScan adler windowXxh blocks j =
      code (firstFrom (Agrees sig adler windowXxh) j sig.blocks.length) := by
  induction blocks generalizing j with
  | nil =>
    rw [firstFrom_stop _ (List.drop_eq_nil_iff.mp hj),linearScan,code_none]
  | cons block blocks ih =>
    have hlt : j < sig.blocks.length := by
      by_contra hge
      rw [List.drop_eq_nil_of_le (by omega)] at hj
      exact absurd hj (by simp)
    rw [List.drop_eq_getElem_cons hlt,List.cons.injEq] at hj
    have hblock : sig.blocks.getD j ⟨0,0⟩ = block := by simp [hlt,hj.1]
    rw [firstFrom_step _ hlt,linearScan,ih (j+1) hj.2]
    simp only [Agrees,hblock]
    split <;> rfl

def IndexOf (sig : DeltaSignature) (mask : UInt32) : Option BlockIndex → Prop
  | none => True
  | some index => ∃ bucketCount : UInt32, bucketCount ≠ 0 ∧ mask = bucketCount-1 ∧
      Represents sig bucketCount index (build (blockKey sig mask) sig.blocks.length)
        sig.blocks.length

theorem deltaBuildIndex_indexOf {bucketCount : UInt32} :
    ∃ index, deltaBuildIndex sig bucketCount = .done index ∧ IndexOf sig (bucketCount-1) index := by
  unfold deltaBuildIndex
  split_ifs with hz
  · exact ⟨none,rfl,trivial⟩
  · exact ⟨none,rfl,trivial⟩
  · have hb : bucketCount ≠ 0 := fun h => hz (.inr h)
    obtain ⟨index,hi,hr⟩ := indexLoop_represents sig hb (le_refl sig.blocks.length)
    rw [blockCount_toNat,hi]
    exact ⟨some index,rfl,bucketCount,hb,rfl,hr⟩

end

/-- Through the index or without it, the lookup returns the lowest block that
agrees with the window on both checksums, and follows no link out of bounds. -/
theorem deltaFindMatch_lowest {xxh32 : List UInt8 → UInt32 → UInt32} {window : List UInt8}
    {adler : UInt32} {sig : DeltaSignature} {index : Option BlockIndex} {mask seed : UInt32}
    (h : IndexOf sig mask index) :
    deltaFindMatch xxh32 window adler true sig index mask seed =
      .done (code (lowestMatch sig adler (xxh32 window seed))) := by
  unfold deltaFindMatch
  by_cases hz : sig.blockCount = 0
  · have hlen : sig.blocks.length = 0 := by rw [← blockCount_toNat,hz]; rfl
    rw [if_pos (.inr hz),lowestMatch,firstFrom_stop _ (by omega),code_none]
  · rw [if_neg (by simpa using hz)]
    cases index with
    | none => exact congrArg Checked.done (linearScan_firstFrom sig 0 rfl)
    | some index =>
      obtain ⟨bucketCount,hb,hmask,hr⟩ := h
      have hkey : ∀ j, Agrees sig adler (xxh32 window seed) j →
          blockKey sig mask j = bucket mask adler := by
        intro j hj
        rw [blockKey,hj.1]
      have hhead := load_holds hr.heads (hmask ▸ bucket_lt bucketCount adler hb)
      rw [Function.comp_apply,build_heads] at hhead
      dsimp only
      rw [hhead,done_bind,blockCount_toNat]
      refine chainWalk_walk sig hr.next ?_ _ _ ?_
        (walk_firstFrom (blockKey sig mask) _ _ _ 0 hkey (by omega))
      · intro j i hji hj
        rw [build_next _ hj] at hji
        exact (firstFrom_some _ hji).2.1
      · intro j hj
        exact (firstFrom_some _ hj).2.1

end FastSync.DeltaIndex
