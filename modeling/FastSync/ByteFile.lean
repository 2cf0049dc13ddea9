import Mathlib.Data.List.Basic

/-!
# Files as lists

A file is the list of its cells. Writing past the end and growing the file fill
the gap with a fixed cell.
-/

set_option autoImplicit false

namespace FastSync.ByteFile

variable {α : Type*} (blank : α)

def writeAt (file : List α) (offset : ℕ) (data : List α) : List α :=
  file.take offset++List.replicate (offset-file.length) blank++data++
    file.drop (offset+data.length)

def resize (n : ℕ) (file : List α) : List α :=
  file.take n++List.replicate (n-file.length) blank

def extend (n : ℕ) (file : List α) : List α := file++List.replicate (n-file.length) blank

@[simp] theorem length_resize (n : ℕ) (file : List α) : (resize blank n file).length = n := by
  simp only [resize, List.length_append, List.length_take, List.length_replicate]
  omega

theorem writeAt_split (done rest data : List α) :
    writeAt blank (done++rest) done.length data = (done++data)++rest.drop data.length := by
  simp [writeAt, List.drop_append]

theorem resize_self (file : List α) : resize blank file.length file = file := by
  simp [resize]

theorem resize_append (file rest : List α) : resize blank file.length (file++rest) = file := by
  simp [resize]

theorem resize_nil (n : ℕ) : resize blank n [] = List.replicate n blank := by
  simp [resize]

theorem resize_extend (n : ℕ) (file : List α) :
    resize blank n (extend blank n file) = resize blank n file := by
  unfold resize extend
  by_cases h : n ≤ file.length
  · simp [h]
  · have hlen : (file++List.replicate (n-file.length) blank).length = n := by
      simp only [List.length_append, List.length_replicate]
      omega
    rw [List.take_of_length_le (by omega), hlen, Nat.sub_self, List.replicate_zero, List.append_nil,
      List.take_of_length_le (by omega)]

end FastSync.ByteFile
