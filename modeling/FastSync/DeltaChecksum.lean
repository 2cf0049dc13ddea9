import FastSync.SlidingSum
import Mathlib.Data.ZMod.Basic

/-!
# The weak checksum of the delta engine

`delta_adler32` folds a block into two sums modulo 65521. The compute loop
rolls the same pair by one byte instead of reading the window again. Both are
written on 32-bit words exactly as the code writes them, wrapping subtraction
included.
-/

set_option autoImplicit false

namespace FastSync.DeltaChecksum
open SlidingSum

def deltaAdler32Modulus : UInt32 := 65521

def adlerStep (s : UInt32 × UInt32) (b : UInt8) : UInt32 × UInt32 :=
  let s1 := (s.1+b.toUInt32) % deltaAdler32Modulus
  (s1, (s.2+s1) % deltaAdler32Modulus)

def adlerSums (data : List UInt8) : UInt32 × UInt32 := data.foldl adlerStep (1, 0)

def adlerPack (s : UInt32 × UInt32) : UInt32 := (s.2 <<< 16) ||| s.1

def deltaAdler32 (data : List UInt8) : UInt32 := adlerPack (adlerSums data)

def rollFirst (s1 : UInt32) (oldByte newByte : UInt8) : UInt32 :=
  (s1+deltaAdler32Modulus-oldByte.toUInt32+newByte.toUInt32) % deltaAdler32Modulus

def rollWeight (blockSize : UInt32) (oldByte : UInt8) : UInt32 :=
  (blockSize.toUInt64*oldByte.toUInt64 % deltaAdler32Modulus.toUInt64).toUInt32

def adlerRoll (blockSize : UInt32) (s : UInt32 × UInt32) (oldByte newByte : UInt8) :
    UInt32 × UInt32 :=
  let s1 := rollFirst s.1 oldByte newByte
  (s1, (s.2+deltaAdler32Modulus-rollWeight blockSize oldByte+s1-1) % deltaAdler32Modulus)

def Reduced (s : UInt32 × UInt32) : Prop := s.1.toNat < 65521 ∧ s.2.toNat < 65521

def residues (s : UInt32 × UInt32) : ZMod 65521 × ZMod 65521 := (s.1.toNat, s.2.toNat)

def byteResidues (data : List UInt8) : List (ZMod 65521) := data.map fun b => (b.toNat : ZMod 65521)

theorem residue_injective {a b : UInt32} (ha : a.toNat < 65521) (hb : b.toNat < 65521)
    (h : (a.toNat : ZMod 65521) = b.toNat) : a = b := by
  rw [ZMod.natCast_eq_natCast_iff', Nat.mod_eq_of_lt ha, Nat.mod_eq_of_lt hb] at h
  exact UInt32.toNat_inj.mp h

theorem residues_injective {s t : UInt32 × UInt32} (hs : Reduced s) (ht : Reduced t)
    (h : residues s = residues t) : s = t := by
  obtain ⟨h1,h2⟩ := Prod.mk.inj h
  exact Prod.ext (residue_injective hs.1 ht.1 h1) (residue_injective hs.2 ht.2 h2)

section
variable (s : UInt32 × UInt32) (b : UInt8) (h : Reduced s)
include h

theorem adlerStep_first : (adlerStep s b).1.toNat = (s.1.toNat+b.toNat) % 65521 := by
  have hb := b.toNat_lt
  have h1 := h.1
  simp only [adlerStep, deltaAdler32Modulus, UInt32.toNat_mod, UInt32.toNat_add,
    UInt8.toNat_toUInt32, UInt32.reduceToNat]
  omega

theorem adlerStep_second :
    (adlerStep s b).2.toNat = (s.2.toNat+(s.1.toNat+b.toNat) % 65521) % 65521 := by
  have h2 := h.2
  have hf := adlerStep_first s b h
  change (s.2+(adlerStep s b).1).toNat % 65521 = _
  rw [UInt32.toNat_add, hf]
  omega

theorem adlerStep_reduced : Reduced (adlerStep s b) := by
  constructor
  · rw [adlerStep_first s b h]
    exact Nat.mod_lt _ (by decide)
  · rw [adlerStep_second s b h]
    exact Nat.mod_lt _ (by decide)

theorem adlerStep_residues :
    residues (adlerStep s b) =
      ((residues s).1+b.toNat, (residues s).2+((residues s).1+b.toNat)) := by
  simp [residues, adlerStep_first s b h, adlerStep_second s b h]

end

theorem adlerFold_residues (data : List UInt8) (s : UInt32 × UInt32) (h : Reduced s) :
    Reduced (data.foldl adlerStep s) ∧
      residues (data.foldl adlerStep s) = accumulate (residues s) (byteResidues data) := by
  induction data generalizing s with
  | nil => exact ⟨h,rfl⟩
  | cons b data ih =>
    obtain ⟨hr,hv⟩ := ih _ (adlerStep_reduced s b h)
    refine ⟨hr,?_⟩
    rw [List.foldl_cons, hv, adlerStep_residues s b h]
    rfl

theorem start_reduced : Reduced (1, 0) := ⟨by decide,by decide⟩

theorem adlerSums_reduced {data : List UInt8} : Reduced (adlerSums data) :=
  (adlerFold_residues data (1, 0) start_reduced).1

theorem adlerSums_residues (data : List UInt8) :
    residues (adlerSums data) = accumulate (1, 0) (byteResidues data) := by
  have h := (adlerFold_residues data (1, 0) start_reduced).2
  simpa [residues, adlerSums] using h

theorem rollFirst_toNat (s1 : UInt32) (oldByte newByte : UInt8) (h : s1.toNat < 65521) :
    (rollFirst s1 oldByte newByte).toNat =
      (s1.toNat+65521-oldByte.toNat+newByte.toNat) % 65521 := by
  have ho := oldByte.toNat_lt
  have hn := newByte.toNat_lt
  simp only [rollFirst, deltaAdler32Modulus, UInt32.toNat_mod, UInt32.toNat_add,
    UInt32.toNat_sub, UInt8.toNat_toUInt32, UInt32.reduceToNat]
  omega

theorem rollWeight_toNat (blockSize : UInt32) (oldByte : UInt8) :
    (rollWeight blockSize oldByte).toNat = blockSize.toNat*oldByte.toNat % 65521 := by
  have hp : blockSize.toNat*oldByte.toNat < 2^64 :=
    calc blockSize.toNat*oldByte.toNat < 2^32*2^8 :=
          Nat.mul_lt_mul'' blockSize.toNat_lt oldByte.toNat_lt
      _ < 2^64 := by decide
  simp only [rollWeight, deltaAdler32Modulus, UInt64.toNat_toUInt32, UInt64.toNat_mod,
    UInt64.toNat_mul, UInt32.toNat_toUInt64, UInt8.toNat_toUInt64, UInt32.reduceToNat,
    Nat.mod_eq_of_lt hp]
  omega

section
variable {blockSize : UInt32} {s : UInt32 × UInt32} {oldByte newByte : UInt8} (h : Reduced s)
include h

theorem adlerRoll_second :
    (adlerRoll blockSize s oldByte newByte).2.toNat =
      (s.2.toNat+65521-blockSize.toNat*oldByte.toNat % 65521+
        (rollFirst s.1 oldByte newByte).toNat-1) % 65521 := by
  have h2 := h.2
  have hw := rollWeight_toNat blockSize oldByte
  have hw' : blockSize.toNat*oldByte.toNat % 65521 < 65521 := Nat.mod_lt _ (by decide)
  have hf : (rollFirst s.1 oldByte newByte).toNat < 65521 := by
    rw [rollFirst_toNat s.1 oldByte newByte h.1]
    exact Nat.mod_lt _ (by decide)
  simp only [adlerRoll, deltaAdler32Modulus, UInt32.toNat_mod, UInt32.toNat_add,
    UInt32.toNat_sub, UInt32.reduceToNat, hw]
  omega

theorem adlerRoll_reduced : Reduced (adlerRoll blockSize s oldByte newByte) := by
  constructor
  · change (rollFirst s.1 oldByte newByte).toNat < 65521
    rw [rollFirst_toNat s.1 oldByte newByte h.1]
    exact Nat.mod_lt _ (by decide)
  · rw [adlerRoll_second h]
    exact Nat.mod_lt _ (by decide)

end

theorem rollFirst_residue {s : UInt32 × UInt32} {oldByte newByte : UInt8} (h : Reduced s) :
    ((rollFirst s.1 oldByte newByte).toNat : ZMod 65521) =
      (residues s).1-oldByte.toNat+newByte.toNat := by
  have ho : oldByte.toNat ≤ s.1.toNat+65521 := by
    have := oldByte.toNat_lt
    omega
  rw [rollFirst_toNat s.1 oldByte newByte h.1, ZMod.natCast_mod, Nat.cast_add, Nat.cast_sub ho,
    Nat.cast_add, ZMod.natCast_self]
  simp [residues]

theorem adlerRoll_residues {blockSize : UInt32} {s : UInt32 × UInt32} {oldByte newByte : UInt8}
    (h : Reduced s) :
    residues (adlerRoll blockSize s oldByte newByte) =
      ((residues s).1-oldByte.toNat+newByte.toNat,
       (residues s).2-blockSize.toNat • (oldByte.toNat : ZMod 65521)+
         ((residues s).1-oldByte.toNat+newByte.toNat)-1) := by
  have hr : blockSize.toNat*oldByte.toNat % 65521 < 65521 := Nat.mod_lt _ (by decide)
  have hs : blockSize.toNat*oldByte.toNat % 65521 ≤ s.2.toNat+65521 := by omega
  have hp : 1 ≤ s.2.toNat+65521-blockSize.toNat*oldByte.toNat % 65521+
      (rollFirst s.1 oldByte newByte).toNat := by omega
  refine Prod.ext (rollFirst_residue h) ?_
  change ((adlerRoll blockSize s oldByte newByte).2.toNat : ZMod 65521) = _
  rw [adlerRoll_second h, ZMod.natCast_mod, Nat.cast_sub hp,
    Nat.cast_add, Nat.cast_sub hs, Nat.cast_add, ZMod.natCast_self, ZMod.natCast_mod,
    Nat.cast_mul, rollFirst_residue h]
  simp [residues]

/-- Rolling the pair of a full window by one byte gives the pair of the next
window. The subtractions of the update are on 32-bit words. -/
theorem adlerRoll_window {blockSize : UInt32} {x y : UInt8} {w : List UInt8}
    (h : blockSize.toNat = w.length+1) :
    adlerRoll blockSize (adlerSums (x::w)) x y = adlerSums (w++[y]) := by
  refine residues_injective (adlerRoll_reduced adlerSums_reduced)
    adlerSums_reduced ?_
  rw [adlerRoll_residues adlerSums_reduced, adlerSums_residues, adlerSums_residues]
  have hslide := accumulate_slide (x.toNat : ZMod 65521) (y.toNat) (byteResidues w) (1, 0)
  have hl : (byteResidues w).length+1 = blockSize.toNat := by simp [byteResidues, h]
  rw [hl] at hslide
  have hsnoc : byteResidues (w++[y]) = byteResidues w++[(y.toNat : ZMod 65521)] := by
    simp [byteResidues]
  rw [hsnoc, hslide]
  rfl

end FastSync.DeltaChecksum
