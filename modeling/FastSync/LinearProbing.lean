import Mathlib.Data.List.Basic
import Mathlib.Data.Nat.Find
import Mathlib.Order.Basic

/-!
# Open addressing with linear probing

A table is a list of slots. A key belongs to a home slot; it stands there or at
the first place after it, round the table, that was free when it came. As long
as one slot is free, a probe for a key ends at its slot or, when the key is
absent, at the free slot where it would go.
-/

set_option autoImplicit false

namespace FastSync.LinearProbing

variable {κ : Type}

/-- The first slot, in the order of `next`, that is free or holds the key. -/
def probe [DecidableEq κ] (next : ℕ → ℕ) (slots : List (Option κ)) (key : κ) : ℕ → ℕ → Option ℕ
  | 0, _ => none
  | fuel+1, index =>
    match slots[index]? with
    | none => none
    | some none => some index
    | some (some k) => if k = key then some index else probe next slots key fuel (next index)

def slotAfter (n h d : ℕ) : ℕ := (h+d)%n

/-- The slots before the `d`-th one after `h` hold other keys. -/
def Passed (slots : List (Option κ)) (key : κ) (h d : ℕ) : Prop :=
  ∀ e < d, ∃ k, k ≠ key ∧ slots[slotAfter slots.length h e]? = some (some k)

/-- Every key is reached from its home slot without passing a free one. -/
def Placed (home : κ → ℕ) (slots : List (Option κ)) : Prop :=
  ∀ (i : ℕ) (k : κ), slots[i]? = some (some k) →
    ∃ d, i = slotAfter slots.length (home k) d ∧ Passed slots k (home k) d

def occupied (slots : List (Option κ)) : ℕ := slots.countP Option.isSome

section Probe
variable [DecidableEq κ] {next : ℕ → ℕ} {slots : List (Option κ)} {key : κ}

theorem slotAfter_lt {n : ℕ} (hn : 0 < n) (h d : ℕ) : slotAfter n h d < n := Nat.mod_lt _ hn

theorem slotAfter_next {n : ℕ} (h d : ℕ) : (slotAfter n h d+1)%n = slotAfter n h (d+1) := by
  unfold slotAfter
  rw [Nat.mod_add_mod, Nat.add_assoc]

theorem probe_passed (hnext : ∀ i < slots.length, next i = (i+1)%slots.length)
    (hpos : 0 < slots.length) (h : ℕ) (d e fuel : ℕ) (hd : Passed slots key h (e+d))
    (hfuel : d < fuel)
    (hend : slots[slotAfter slots.length h (e+d)]? = some none ∨
      slots[slotAfter slots.length h (e+d)]? = some (some key)) :
    probe next slots key fuel (slotAfter slots.length h e) =
      some (slotAfter slots.length h (e+d)) := by
  induction d generalizing e fuel with
  | zero =>
    obtain ⟨fuel,rfl⟩ := Nat.exists_eq_add_of_lt hfuel
    rw [Nat.add_zero] at hend ⊢
    rcases hend with hend | hend <;> simp [probe, hend]
  | succ d ih =>
    obtain ⟨fuel,rfl⟩ := Nat.exists_eq_add_of_lt hfuel
    obtain ⟨k,hk,hslot⟩ := hd e (by omega)
    have hed : e+1+d = e+(d+1) := by omega
    have hstep := ih (e+1) (d+1+fuel) (hed ▸ hd) (by omega) (hed ▸ hend)
    rw [hed] at hstep
    simp only [probe, hslot, if_neg hk, hnext _ (slotAfter_lt hpos h e), slotAfter_next]
    exact hstep

theorem slotAfter_meets {n f : ℕ} (hf : f < n) {h : ℕ} : ∃ d < n, slotAfter n h d = f := by
  refine ⟨(f+(n-h%n))%n,Nat.mod_lt _ (by omega),?_⟩
  have hh : h%n < n := Nat.mod_lt _ (by omega)
  unfold slotAfter
  rw [Nat.add_mod_mod, ← Nat.mod_add_mod]
  have : h%n+(f+(n-h%n)) = f+n := by omega
  rw [this, Nat.add_mod_right, Nat.mod_eq_of_lt hf]

theorem probe_ends {home : κ → ℕ} (hnext : ∀ i < slots.length, next i = (i+1)%slots.length)
    (hplaced : Placed home slots) (hfree : none ∈ slots) (key : κ) :
    ∃ i d, probe next slots key slots.length (home key%slots.length) = some i ∧
      i = slotAfter slots.length (home key) d ∧ Passed slots key (home key) d ∧
      (slots[i]? = some none ∧ some key ∉ slots ∨ slots[i]? = some (some key)) := by
  obtain ⟨f,hf,hfslot⟩ := List.mem_iff_getElem.mp hfree
  obtain ⟨df,hdf,hmeet⟩ := slotAfter_meets hf
  have hex : ∃ d, slots[slotAfter slots.length (home key) d]? = some none ∨
      slots[slotAfter slots.length (home key) d]? = some (some key) := by
    refine ⟨df,.inl ?_⟩
    rw [hmeet, List.getElem?_eq_getElem hf, hfslot]
  have hend := Nat.find_spec hex
  have hle : Nat.find hex ≤ df := Nat.find_min' hex (.inl (by
    rw [hmeet, List.getElem?_eq_getElem hf, hfslot]))
  have hpassed : Passed slots key (home key) (Nat.find hex) := by
    intro e he
    have hmin := Nat.find_min hex he
    have hlt := slotAfter_lt (by omega : 0 < slots.length) (home key) e
    rw [List.getElem?_eq_getElem hlt] at hmin
    cases hk : slots[slotAfter slots.length (home key) e] with
    | none => simp [hk] at hmin
    | some k =>
      refine ⟨k,?_,by rw [List.getElem?_eq_getElem hlt, hk]⟩
      rintro rfl
      simp [hk] at hmin
  refine ⟨_,Nat.find hex,?_,rfl,hpassed,?_⟩
  · have := probe_passed hnext (by omega) (home key) (Nat.find hex) 0 slots.length
      (by rwa [Nat.zero_add]) (by omega) (by rwa [Nat.zero_add])
    rwa [Nat.zero_add] at this
  rcases hend with hend | hend
  · refine .inl ⟨hend,fun hmem => ?_⟩
    obtain ⟨i,hi,hslot⟩ := List.mem_iff_getElem.mp hmem
    obtain ⟨d,hd,hway⟩ := hplaced i key (by rw [List.getElem?_eq_getElem hi, hslot])
    have hkey : slots[slotAfter slots.length (home key) d]? = some (some key) := by
      rw [← hd, List.getElem?_eq_getElem hi, hslot]
    rcases Nat.lt_trichotomy d (Nat.find hex) with hlt | heq | hgt
    · exact Nat.find_min hex hlt (.inr hkey)
    · rw [heq, hend] at hkey
      cases hkey
    · obtain ⟨k,_,hk⟩ := hway _ hgt
      rw [hend] at hk
      cases hk
  · exact .inr hend

end Probe

section Put
variable {slots : List (Option κ)} {home : κ → ℕ}

theorem placed_empty {n : ℕ} : Placed home (List.replicate n none) := by
  intro i k h
  by_cases hi : i < n <;> simp [hi] at h

theorem passed_put {k key : κ} {h d i : ℕ} (hne : key ≠ k) (hi : i < slots.length)
    (hp : Passed slots k h d) : Passed (slots.set i (some key)) k h d := by
  intro e he
  obtain ⟨k',hk',hslot⟩ := hp e he
  rw [List.length_set]
  by_cases hie : i = slotAfter slots.length h e
  · rw [← hie, List.getElem?_set_self hi]
    exact ⟨key,hne,rfl⟩
  · rw [List.getElem?_set_ne hie]
    exact ⟨k',hk',hslot⟩

theorem placed_put {key : κ} {i d : ℕ} (hplaced : Placed home slots)
    (hslot : slots[i]? = some none) (hd : i = slotAfter slots.length (home key) d)
    (hp : Passed slots key (home key) d) (habsent : some key ∉ slots) :
    Placed home (slots.set i (some key)) := by
  have hi := (List.getElem?_eq_some_iff.mp hslot).1
  intro j k hj
  by_cases hij : i = j
  · subst hij
    rw [List.getElem?_set_self hi, Option.some.injEq, Option.some.injEq] at hj
    subst hj
    refine ⟨d,by rw [List.length_set, ← hd],fun e he => ?_⟩
    obtain ⟨k,hk,hke⟩ := hp e he
    have hne : i ≠ slotAfter slots.length (home key) e := by
      intro h
      rw [← h, hslot] at hke
      cases hke
    exact ⟨k,hk,by rw [List.length_set, List.getElem?_set_ne hne, hke]⟩
  · rw [List.getElem?_set_ne hij] at hj
    obtain ⟨d',hd',hp'⟩ := hplaced j k hj
    refine ⟨d',by rw [List.length_set, ← hd'],passed_put ?_ hi hp'⟩
    rintro rfl
    exact habsent (List.mem_of_getElem? hj)

section
variable {key : κ} {i : ℕ} (hslot : slots[i]? = some none)
include hslot

theorem mem_put (k : κ) : some k ∈ slots.set i (some key) ↔ k = key ∨ some k ∈ slots := by
  have hi := (List.getElem?_eq_some_iff.mp hslot).1
  constructor
  · intro h
    rcases List.mem_or_eq_of_mem_set h with h | h
    · exact .inr h
    · exact .inl (Option.some.inj h)
  · rintro (rfl | h)
    · exact List.mem_set hi _
    · obtain ⟨j,hj,hjk⟩ := List.mem_iff_getElem.mp h
      have hij : i ≠ j := by
        rintro rfl
        rw [List.getElem?_eq_getElem hi, hjk] at hslot
        cases hslot
      refine List.mem_iff_getElem?.mpr ⟨j,?_⟩
      rw [List.getElem?_set_ne hij, List.getElem?_eq_getElem hj, hjk]

theorem occupied_put : occupied (slots.set i (some key)) = occupied slots+1 := by
  obtain ⟨hi,hnone⟩ := List.getElem?_eq_some_iff.mp hslot
  unfold occupied
  rw [List.countP_set hi, hnone]
  simp

end

theorem occupied_empty {n : ℕ} : occupied (List.replicate n (none : Option κ)) = 0 := by
  simp [occupied]

theorem free_of_occupied (h : occupied slots < slots.length) : none ∈ slots := by
  by_contra hfull
  have hall : occupied slots = slots.length := by
    rw [occupied, List.countP_eq_length]
    intro s hs
    cases s with
    | none => exact absurd hs hfull
    | some k => rfl
  omega

end Put

end FastSync.LinearProbing
