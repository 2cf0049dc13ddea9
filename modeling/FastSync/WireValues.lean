import FastSync.ByteReader

/-!
# Integers and strings of the protocol

An integer is sent in four bytes, a string as its length in eight bytes and the
bytes. The receiver bounds a string by the protocol's limit, by what the session
may allocate at once and by what all strings of a configuration may take.
-/

set_option autoImplicit false

namespace FastSync.WireValues
open LittleEndian ByteReader

/-- The ceiling of one allocation, 0 for none, and the bytes that the strings of
the configuration take so far. -/
structure Session where
  maxAlloc : ℕ
  used : ℕ
deriving DecidableEq, Repr

def maxStringSize : ℕ := 64*1024

def maxConfigStringBytes : ℕ := 1024*1024

section Int

def IntRange (n : ℤ) : Prop := -2^31 ≤ n ∧ n < 2^31

def sendInt (n : ℤ) : List UInt8 := encode 4 (n%2^32).toNat

def receiveInt : Reader Session ℤ := do
  let v ← word 4
  pure (if v < 2^31 then (v:ℤ) else (v:ℤ)-2^32)

theorem reads_int {n : ℤ} (h : IntRange n) (s : Session) : Reads receiveInt s (sendInt n) n s := by
  have hword : Reads (word 4) s (sendInt n) (n%2^32).toNat s := by
    apply reads_word
    omega
  have hmap : Reads receiveInt s (sendInt n) (if (n%2^32).toNat < 2^31 then
      (((n%2^32).toNat:ℕ):ℤ) else (((n%2^32).toNat:ℕ):ℤ)-2^32) s := reads_map hword
  have hvalue : (if (n%2^32).toNat < 2^31 then (((n%2^32).toNat:ℕ):ℤ)
      else (((n%2^32).toNat:ℕ):ℤ)-2^32) = n := by
    obtain ⟨hlow,hhigh⟩ := h
    split_ifs <;> omega
  rwa [hvalue] at hmap

def sendBool (b : Bool) : List UInt8 := sendInt (if b then 1 else 0)

def receiveWireBool : Reader Session Bool := do
  let v ← receiveInt
  check (v = 0 ∨ v = 1)
  pure (decide (v ≠ 0))

theorem reads_bool (b : Bool) (s : Session) : Reads receiveWireBool s (sendBool b) b s := by
  intro rest
  have hrange : IntRange (if b then 1 else 0) := by
    cases b <;> exact ⟨by decide,by decide⟩
  cases b <;> rfl

end Int

section Str
variable {data : List UInt8}

def sendStr (data : List UInt8) : List UInt8 := encode 8 data.length++data

def allocationAllowed (size : ℕ) (s : Session) : Option Session :=
  if s.maxAlloc = 0 ∨ size ≤ s.maxAlloc then some s else none

def receiveStr : Reader Session (List UInt8) := do
  let size ← word 8
  check (size ≤ maxStringSize)
  update (allocationAllowed (size+1))
  let data ← take size
  check (0 ∉ data)
  pure data

def configStringBudgetCharge (bytes : ℕ) (s : Session) : Option Session :=
  if bytes > maxConfigStringBytes ∨ s.used > maxConfigStringBytes-bytes then none
  else some {s with used := s.used+bytes}

def configReceiveStr : Reader Session (List UInt8) := do
  let value ← receiveStr
  update (configStringBudgetCharge (value.length+1))
  pure value

def Fits (s : Session) (len : ℕ) : Prop :=
  len ≤ maxStringSize ∧ (s.maxAlloc = 0 ∨ len+1 ≤ s.maxAlloc) ∧
    s.used+len+1 ≤ maxConfigStringBytes

def charged (s : Session) (len : ℕ) : Session := {s with used := s.used+len+1}

section
variable (h0 : 0 ∉ data) (hlen : data.length < 2^64) (s : Session)
include h0 hlen

theorem decides_receiveStr :
    Decides receiveStr s (sendStr data)
      (data.length ≤ maxStringSize ∧ (s.maxAlloc = 0 ∨ data.length+1 ≤ s.maxAlloc)) data s := by
  have hbody : Decides (take data.length >>= fun data => (do check (0 ∉ data); pure data)) s data
      True data s := by
    have htake := decides_read (f := fun data => (do check (0 ∉ data); pure data))
      (reads_take data s) (decides_check (p := 0 ∉ data) fun _ => decides_pure data s)
    rw [List.append_nil] at htake
    exact decides_congr ⟨fun _ => trivial,fun _ => ⟨h0,trivial⟩⟩ htake
  have halloc : Decides (update (allocationAllowed (data.length+1)) >>= fun _ => do
      let data ← take data.length
      check (0 ∉ data)
      pure data) s data (s.maxAlloc = 0 ∨ data.length+1 ≤ s.maxAlloc) data s := by
    have hkeep : ∀ t, allocationAllowed (data.length+1) s = some t → t = s := by
      intro t ht
      unfold allocationAllowed at ht
      split_ifs at ht
      exact (Option.some.inj ht).symm
    refine decides_congr ?_ (decides_update hkeep hbody)
    unfold allocationAllowed
    split_ifs with h
    · exact ⟨fun _ => h,fun _ => ⟨rfl,trivial⟩⟩
    · exact ⟨fun hsome => absurd hsome.1 (by simp),fun hfit => absurd hfit h⟩
  have hsize : Reads (word 8) s (encode 8 data.length) data.length s := reads_word hlen s
  exact decides_read hsize (decides_check fun _ => halloc)

theorem decides_str :
    Decides configReceiveStr s (sendStr data) (Fits s data.length) data
      (charged s data.length) := by
  have hcharge : ∀ t, configStringBudgetCharge (data.length+1) s = some t →
      t = charged s data.length := by
    intro t ht
    unfold configStringBudgetCharge at ht
    split_ifs at ht
    exact (Option.some.inj ht).symm
  have hafter : Decides configReceiveStr s (sendStr data++[])
      ((data.length ≤ maxStringSize ∧ (s.maxAlloc = 0 ∨ data.length+1 ≤ s.maxAlloc)) ∧
        (configStringBudgetCharge (data.length+1) s).isSome = true ∧ True) data
      (charged s data.length) :=
    decides_bind (decides_receiveStr h0 hlen s) fun _ =>
      decides_update hcharge (decides_pure data (charged s data.length))
  rw [List.append_nil] at hafter
  refine decides_congr ?_ hafter
  unfold Fits configStringBudgetCharge
  split_ifs with h
  · simp only [Option.isSome_none, Bool.false_eq_true, false_and, and_false, false_iff]
    omega
  · have hroom : s.used+data.length+1 ≤ maxConfigStringBytes := by omega
    simp [hroom]

end

end Str

end FastSync.WireValues
