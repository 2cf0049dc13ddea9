import FastSync.CheckedMemory
import Mathlib.Data.Nat.Basic
import Mathlib.Tactic.Ring

/-!
# Little-endian integers in byte buffers

A fixed-width unsigned integer is stored with its least significant byte first.
Values that fit the width survive a store followed by a load at the same place.
-/

set_option autoImplicit false

namespace FastSync.LittleEndian
open CheckedMemory

def encode : ℕ → ℕ → List UInt8
  | 0, _ => []
  | w+1, n => UInt8.ofNat (n % 256) :: encode w (n/256)

def decode : List UInt8 → ℕ
  | [] => 0
  | b::bs => b.toNat+256*decode bs

@[simp] theorem encode_length {w : ℕ} (n : ℕ) : (encode w n).length = w := by
  induction w generalizing n with
  | zero => rfl
  | succ w ih => simp [encode, ih]

theorem decode_encode (w n : ℕ) (h : n < 256^w) : decode (encode w n) = n := by
  induction w generalizing n with
  | zero =>
    have hn : n = 0 := by simpa using h
    simp [encode, decode, hn]
  | succ w ih =>
    have hq : n/256 < 256^w := by
      rw [Nat.div_lt_iff_lt_mul (by decide), ← pow_succ]
      exact h
    simp only [encode, decode, ih _ hq, UInt8.toNat_ofNat']
    omega

theorem decode_lt (bs : List UInt8) : decode bs < 256^bs.length := by
  induction bs with
  | nil => simp [decode]
  | cons b bs ih =>
    have hb := b.toNat_lt
    rw [decode, List.length_cons, pow_succ]
    omega

theorem encode_decode (bs : List UInt8) : encode bs.length (decode bs) = bs := by
  induction bs with
  | nil => rfl
  | cons b bs ih =>
    have hb := b.toNat_lt
    have hlow : (b.toNat+256*decode bs) % 256 = b.toNat := by omega
    have hhigh : (b.toNat+256*decode bs)/256 = decode bs := by omega
    simp [encode, decode, hlow, hhigh, ih]

def putU8 (v : UInt8) : List UInt8 := [v]

def putU32 (v : UInt32) : List UInt8 := encode 4 v.toNat

def putU64 (v : UInt64) : List UInt8 := encode 8 v.toNat

def getU8 (buf : List UInt8) (pos : ℕ) : Checked UInt8 := load buf pos

def getU32 (buf : List UInt8) (pos : ℕ) : Checked UInt32 := do
  let bs ← slice buf pos 4
  pure (UInt32.ofNat (decode bs))

def getU64 (buf : List UInt8) (pos : ℕ) : Checked UInt64 := do
  let bs ← slice buf pos 8
  pure (UInt64.ofNat (decode bs))

@[simp] theorem putU8_length (v : UInt8) : (putU8 v).length = 1 := rfl

@[simp] theorem putU32_length {v : UInt32} : (putU32 v).length = 4 := encode_length _

@[simp] theorem putU64_length {v : UInt64} : (putU64 v).length = 8 := encode_length _

theorem putU32_decode {bs : List UInt8} (h : bs.length = 4) :
    putU32 (UInt32.ofNat (decode bs)) = bs := by
  have hlt := decode_lt bs
  rw [h] at hlt
  rw [putU32, UInt32.toNat_ofNat_of_lt' hlt, ← h, encode_decode]

theorem putU64_decode {bs : List UInt8} (h : bs.length = 8) :
    putU64 (UInt64.ofNat (decode bs)) = bs := by
  have hlt := decode_lt bs
  rw [h] at hlt
  rw [putU64, UInt64.toNat_ofNat_of_lt' hlt, ← h, encode_decode]

section
variable (pre post : List UInt8)

theorem getU8_put (v : UInt8) : getU8 (pre++putU8 v++post) pre.length = .done v := by
  simp [getU8, putU8, load]

theorem getU32_put (v : UInt32) : getU32 (pre++putU32 v++post) pre.length = .done v := by
  have hs := slice_mid pre (putU32 v) post
  rw [putU32_length] at hs
  have hd : decode (putU32 v) = v.toNat := decode_encode 4 _ v.toNat_lt
  rw [getU32, hs, done_bind, hd]
  simp

theorem getU64_put (v : UInt64) : getU64 (pre++putU64 v++post) pre.length = .done v := by
  have hs := slice_mid pre (putU64 v) post
  rw [putU64_length] at hs
  have hd : decode (putU64 v) = v.toNat := decode_encode 8 _ v.toNat_lt
  rw [getU64, hs, done_bind, hd]
  simp

end

end FastSync.LittleEndian
