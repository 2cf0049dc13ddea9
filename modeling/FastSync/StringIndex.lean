import FastSync.CheckedMemory
import FastSync.DeletePaths
import FastSync.LinearProbing
import Mathlib.Data.List.Sort

/-!
# The path index

An index over a list of strings holds them twice: in a hash set for exact
queries, and in a sorted array, where a binary search for the path followed by a
slash answers whether some string lies below it. The hash function is any
function of the bytes.
-/

set_option autoImplicit false

namespace FastSync.StringIndex
open DeletePaths (Bytes slash)
open CheckedMemory (sizeMax)
open LinearProbing

def strHashSetMinCapacity : ℕ := 16

structure StrHashSet where
  slots : List (Option Bytes)
  capacity : ℕ
  size : ℕ
deriving DecidableEq, Repr

section HashSet
variable (hash : Bytes → ℕ)

/-- The slot at which the loop of a put or a find stops, if it stops. -/
def strHashSetProbe (set : StrHashSet) (key : Bytes) : Option ℕ :=
  probe (fun index => (index+1)&&&(set.capacity-1)) set.slots key set.capacity
    (hash key&&&(set.capacity-1))

def strHashSetPut (set : StrHashSet) (key : Bytes) : Option (StrHashSet × Bool) :=
  match strHashSetProbe hash set key with
  | none => none
  | some index =>
    match set.slots[index]? with
    | some none =>
      some ({set with slots := set.slots.set index (some key), size := set.size+1},true)
    | _ => some (set,false)

def strHashSetPutEach : List (Option Bytes) → StrHashSet → Option StrHashSet
  | [], set => some set
  | none::slots, set => strHashSetPutEach slots set
  | some key::slots, set =>
    match strHashSetPut hash set key with
    | none => none
    | some (set,_) => strHashSetPutEach slots set

def strHashSetResize (set : StrHashSet) (newCapacity : ℕ) : Option StrHashSet :=
  strHashSetPutEach hash set.slots ⟨List.replicate newCapacity none,newCapacity,0⟩

def strHashSetGrow (set : StrHashSet) : Option StrHashSet :=
  if set.capacity ≠ 0 ∧ (set.size+1)*4 ≤ set.capacity*3 then some set
  else strHashSetResize hash set
    (if set.capacity ≠ 0 then set.capacity*2 else strHashSetMinCapacity)

/-- The doubling stops before the word size is passed, so 64 rounds are enough. -/
def initCapacity (hint : ℕ) : ℕ → ℕ → ℕ
  | 0, capacity => capacity
  | rounds+1, capacity =>
    if capacity < (hint+1)*2 ∧ capacity ≤ sizeMax/2 then initCapacity hint rounds (capacity*2)
    else capacity

def strHashSetInit (hint : ℕ) : StrHashSet :=
  let capacity := initCapacity hint 64 strHashSetMinCapacity
  ⟨List.replicate capacity none,capacity,0⟩

def strHashSetInsertRef (set : StrHashSet) (key : Bytes) : Option StrHashSet :=
  match strHashSetGrow hash set with
  | none => none
  | some set =>
    match strHashSetPut hash set key with
    | none => none
    | some (set,_) => some set

def strHashSetLookupN (set : StrHashSet) (key : Bytes) (len : ℕ) : Option Bool :=
  if set.capacity = 0 then some false
  else match strHashSetProbe hash set (key.take len) with
    | none => none
    | some index => some (decide (set.slots[index]? = some (some (key.take len))))

def strHashSetLookup (set : StrHashSet) (key : Bytes) : Option Bool :=
  strHashSetLookupN hash set key key.length

end HashSet

section SortedArray

/-- The terminating NUL sorts before every byte of a string. -/
def strcmp : Bytes → Bytes → Ordering
  | [], [] => .eq
  | [], _::_ => .lt
  | _::_, [] => .gt
  | a::as, b::bs => if a < b then .lt else if b < a then .gt else strcmp as bs

def strncmp : Bytes → Bytes → ℕ → Ordering
  | _, _, 0 => .eq
  | [], [], _ => .eq
  | [], _::_, _ => .lt
  | _::_, [], _ => .gt
  | a::as, b::bs, n+1 => if a < b then .lt else if b < a then .gt else strncmp as bs n

structure StrSortedArray where
  items : List Bytes
deriving DecidableEq, Repr

def strSortedArrayBuild (items : List Bytes) : Option StrSortedArray :=
  if items.length > sizeMax/8 then none
  else some ⟨items.insertionSort fun a b => strcmp a b ≠ .gt⟩

/-- How an entry compares with the key followed by a slash. -/
def strSortedArrayComparePrefix (entry key : Bytes) : Ordering :=
  match strncmp entry key key.length with
  | .eq =>
    match entry[key.length]? with
    | none => .lt
    | some next => if next < slash then .lt else if slash < next then .gt else .eq
  | cmp => cmp

def lowerBound (below : ℕ → Bool) (lo hi : ℕ) : ℕ :=
  if lo < hi then
    let mid := lo+(hi-lo)/2
    if below mid then lowerBound below (mid+1) hi else lowerBound below lo mid
  else lo
termination_by hi-lo

def strSortedArrayHasChildPrefix (array : StrSortedArray) (key : Bytes) : Bool :=
  if array.items.length = 0 ∨ key = [] then false
  else
    let below := fun i =>
      decide (strSortedArrayComparePrefix (array.items.getD i []) key = .lt)
    match array.items[lowerBound below 0 array.items.length]? with
    | none => false
    | some entry =>
      decide (strncmp entry key key.length = .eq ∧ entry[key.length]? = some slash)

end SortedArray

structure PathIndex where
  exact : StrHashSet
  sorted : StrSortedArray
deriving DecidableEq, Repr

section Index
variable (hash : Bytes → ℕ)

def insertEach : List Bytes → StrHashSet → Option StrHashSet
  | [], set => some set
  | e::entries, set =>
    match strHashSetInsertRef hash set e with
    | none => none
    | some set => insertEach entries set

def pathIndexBuild (entries : List Bytes) : Option PathIndex :=
  match strSortedArrayBuild entries with
  | none => none
  | some sorted =>
    match insertEach hash entries (strHashSetInit entries.length) with
    | none => none
    | some exact => some ⟨exact,sorted⟩

def pathIndexContains (index : PathIndex) (path : Bytes) : Option Bool :=
  strHashSetLookup hash index.exact path

def pathIndexContainsN (index : PathIndex) (path : Bytes) (len : ℕ) : Option Bool :=
  strHashSetLookupN hash index.exact path len

def pathIndexHasDescendant (index : PathIndex) (path : Bytes) : Bool :=
  strSortedArrayHasChildPrefix index.sorted path

end Index

section Sound
variable {hash : Bytes → ℕ}

variable (hash) in
/-- The keys are where a probe looks for them and a slot is free. -/
structure Sound (set : StrHashSet) : Prop where
  length : set.slots.length = set.capacity
  power : ∃ k, set.capacity = 2^k
  count : set.size = occupied set.slots
  placed : Placed hash set.slots
  room : set.size < set.capacity

variable {capacity : ℕ}

theorem mask_mod (h : ∃ k, capacity = 2^k) (n : ℕ) : n&&&(capacity-1) = n%capacity := by
  obtain ⟨k,rfl⟩ := h
  exact Nat.and_two_pow_sub_one_eq_mod n k

variable {set : StrHashSet}

section
variable (h : Sound hash set) (key : Bytes)
include h

theorem probe_sound :
    ∃ i d, strHashSetProbe hash set key = some i ∧
      i = slotAfter set.slots.length (hash key) d ∧ Passed set.slots key (hash key) d ∧
      (set.slots[i]? = some none ∧ some key ∉ set.slots ∨ set.slots[i]? = some (some key)) := by
  have hfree : none ∈ set.slots := by
    apply free_of_occupied
    rw [← h.count,h.length]
    exact h.room
  have hnext : ∀ i < set.slots.length,
      (fun index => (index+1)&&&(set.capacity-1)) i = (i+1)%set.slots.length := by
    intro i _
    simp [mask_mod h.power,h.length]
  have hends := probe_ends hnext h.placed hfree key
  rw [strHashSetProbe,mask_mod h.power (hash key),← h.length]
  rw [← h.length] at hends
  exact hends

theorem lookupN_sound (len : ℕ) :
    strHashSetLookupN hash set key len = some (decide (some (key.take len) ∈ set.slots)) := by
  obtain ⟨i,d,hprobe,_,_,hend⟩ := probe_sound h (key.take len)
  have hcap : set.capacity ≠ 0 := by
    have := h.room
    omega
  rw [strHashSetLookupN,if_neg hcap,hprobe]
  rcases hend with ⟨hslot,habsent⟩ | hslot
  · simp [hslot,habsent]
  · simp [hslot,List.mem_of_getElem? hslot]

theorem lookup_sound : strHashSetLookup hash set key = some (decide (some key ∈ set.slots)) := by
  rw [strHashSetLookup,lookupN_sound h,List.take_length]

end

theorem put_sound (h : Sound hash set) (hroom : set.size+1 < set.capacity)
    (key : Bytes) : ∃ set' new, strHashSetPut hash set key = some (set',new) ∧ Sound hash set' ∧
      set'.capacity = set.capacity ∧ set'.size ≤ set.size+1 ∧
      ∀ k, some k ∈ set'.slots ↔ k = key ∨ some k ∈ set.slots := by
  obtain ⟨i,d,hprobe,hd,hpassed,hend⟩ := probe_sound h key
  rw [strHashSetPut,hprobe]
  rcases hend with ⟨hslot,habsent⟩ | hslot
  · refine ⟨{set with slots := set.slots.set i (some key), size := set.size+1},true,
      by simp [hslot],?_,rfl,Nat.le_refl _,mem_put hslot⟩
    constructor
    · rw [List.length_set,h.length]
    · exact h.power
    · rw [occupied_put hslot,h.count]
    · exact placed_put h.placed hslot hd hpassed habsent
    · exact hroom
  · refine ⟨set,false,by simp [hslot],h,rfl,Nat.le_succ _,fun k => ?_⟩
    constructor
    · exact .inr
    · rintro (rfl | hk)
      · exact List.mem_of_getElem? hslot
      · exact hk

theorem putEach_sound (slots : List (Option Bytes)) (h : Sound hash set)
    (hroom : set.size+occupied slots < set.capacity) :
    ∃ set', strHashSetPutEach hash slots set = some set' ∧ Sound hash set' ∧
      set'.capacity = set.capacity ∧ set'.size ≤ set.size+occupied slots ∧
      ∀ k, some k ∈ set'.slots ↔ some k ∈ slots ∨ some k ∈ set.slots := by
  induction slots generalizing set with
  | nil => exact ⟨set,rfl,h,rfl,Nat.le_refl _,fun k => by simp⟩
  | cons s slots ih =>
    cases s with
    | none =>
      obtain ⟨set',hput,hsound,hcap,hsize,hmem⟩ := ih h hroom
      exact ⟨set',hput,hsound,hcap,hsize,fun k => by simp [hmem k]⟩
    | some key =>
      rw [show occupied (some key::slots) = occupied slots+1 by simp [occupied]] at hroom ⊢
      obtain ⟨set1,new,hput,hsound,hcap,hsize,hmem⟩ := put_sound h (by omega) key
      obtain ⟨set2,hput2,hsound2,hcap2,hsize2,hmem2⟩ := ih hsound (by omega)
      refine ⟨set2,by rw [strHashSetPutEach,hput]; exact hput2,hsound2,by omega,by omega,?_⟩
      intro k
      rw [hmem2,hmem,List.mem_cons,Option.some.injEq]
      tauto

theorem sound_empty (h : ∃ k, capacity = 2^k) :
    Sound hash ⟨List.replicate capacity none,capacity,0⟩ := by
  constructor
  · exact List.length_replicate
  · exact h
  · exact occupied_empty.symm
  · exact placed_empty
  · obtain ⟨k,rfl⟩ := h
    exact Nat.two_pow_pos k

theorem grow_sound (h : Sound hash set) :
    ∃ set', strHashSetGrow hash set = some set' ∧ Sound hash set' ∧
      set'.size+1 < set'.capacity ∧ ∀ k, some k ∈ set'.slots ↔ some k ∈ set.slots := by
  have hroom := h.room
  unfold strHashSetGrow
  by_cases hload : set.capacity ≠ 0 ∧ (set.size+1)*4 ≤ set.capacity*3
  · rw [if_pos hload]
    exact ⟨set,rfl,h,by omega,fun k => Iff.rfl⟩
  · have hcap : set.capacity ≠ 0 := by omega
    have hpower : ∃ k, set.capacity*2 = 2^k := by
      obtain ⟨k,hk⟩ := h.power
      exact ⟨k+1,by rw [hk,pow_succ]⟩
    have hsize := h.count
    have hempty : Sound hash ⟨List.replicate (set.capacity*2) none,set.capacity*2,0⟩ :=
      sound_empty hpower
    obtain ⟨set',hput,hsound,hcap',hsize',hmem⟩ :=
      putEach_sound set.slots hempty (by simp only; omega)
    simp only at hcap' hsize'
    rw [if_neg hload,if_pos hcap,strHashSetResize]
    refine ⟨set',hput,hsound,by omega,fun k => ?_⟩
    rw [hmem]
    simp

theorem insertRef_sound (h : Sound hash set) (key : Bytes) :
    ∃ set', strHashSetInsertRef hash set key = some set' ∧ Sound hash set' ∧
      ∀ k, some k ∈ set'.slots ↔ k = key ∨ some k ∈ set.slots := by
  obtain ⟨set1,hgrow,hsound,hroom,hmem⟩ := grow_sound h
  obtain ⟨set2,new,hput,hsound2,_,_,hmem2⟩ := put_sound hsound hroom key
  refine ⟨set2,by simp [strHashSetInsertRef,hgrow,hput],hsound2,fun k => ?_⟩
  rw [hmem2,hmem]

theorem insertEach_sound (entries : List Bytes) (h : Sound hash set) :
    ∃ set', insertEach hash entries set = some set' ∧ Sound hash set' ∧
      ∀ k, some k ∈ set'.slots ↔ k ∈ entries ∨ some k ∈ set.slots := by
  induction entries generalizing set with
  | nil => exact ⟨set,rfl,h,fun k => by simp⟩
  | cons e entries ih =>
    obtain ⟨set1,hins,hsound,hmem⟩ := insertRef_sound h e
    obtain ⟨set2,hins2,hsound2,hmem2⟩ := ih hsound
    refine ⟨set2,by simp [insertEach,hins,hins2],hsound2,fun k => ?_⟩
    rw [hmem2,hmem,List.mem_cons]
    tauto

theorem initCapacity_power {hint rounds : ℕ} (h : ∃ k, capacity = 2^k) :
    ∃ k, initCapacity hint rounds capacity = 2^k := by
  induction rounds generalizing capacity with
  | zero => exact h
  | succ rounds ih =>
    rw [initCapacity]
    by_cases hc : capacity < (hint+1)*2 ∧ capacity ≤ sizeMax/2
    · rw [if_pos hc]
      obtain ⟨k,hk⟩ := h
      exact ih ⟨k+1,by rw [hk,pow_succ]⟩
    · rw [if_neg hc]
      exact h

theorem init_sound (hint : ℕ) : Sound hash (strHashSetInit hint) :=
  sound_empty (initCapacity_power ⟨4,rfl⟩)

end Sound

section Order

theorem strcmp_swap (a b : Bytes) : strcmp a b = .gt ↔ strcmp b a = .lt := by
  induction a generalizing b with
  | nil => cases b <;> simp [strcmp]
  | cons x a ih =>
    cases b with
    | nil => simp [strcmp]
    | cons y b =>
      by_cases hxy : x < y
      · simp [strcmp,hxy,UInt8.lt_asymm hxy]
      · by_cases hyx : y < x
        · simp [strcmp,hxy,hyx]
        · simp [strcmp,hxy,hyx,ih]

theorem strcmp_lt_of_le_of_lt {a b c : Bytes} (hab : strcmp a b ≠ .gt) (hbc : strcmp b c = .lt) :
    strcmp a c = .lt := by
  induction a generalizing b c with
  | nil =>
    cases c with
    | nil => cases b <;> simp [strcmp] at hbc
    | cons z c => rfl
  | cons x a ih =>
    cases b with
    | nil => simp [strcmp] at hab
    | cons y b =>
      cases c with
      | nil => simp [strcmp] at hbc
      | cons z c =>
        simp only [strcmp,UInt8.lt_iff_toNat_lt] at hab hbc ⊢
        by_cases hxz : x.toNat < z.toNat
        · simp [hxz]
        · have hxy : ¬x.toNat < y.toNat := by
            intro h
            rw [if_neg (by omega)] at hbc
            simp [show z.toNat < y.toNat by omega] at hbc
          have hyx : ¬y.toNat < x.toNat := fun h => by simp [hxy,h] at hab
          have hzx : ¬z.toNat < x.toNat := fun h => by
            simp [show ¬y.toNat < z.toNat by omega,show z.toNat < y.toNat by omega] at hbc
          simp only [hxy,hyx,if_false] at hab
          simp only [show ¬y.toNat < z.toNat by omega,show ¬z.toNat < y.toNat by omega,
            if_false] at hbc
          simp only [hxz,hzx,if_false]
          exact ih hab hbc

theorem strcmp_total (a b : Bytes) : strcmp a b ≠ .gt ∨ strcmp b a ≠ .gt := by
  by_cases h : strcmp a b = .gt
  · right
    rw [(strcmp_swap a b).mp h]
    decide
  · exact .inl h

theorem strcmp_trans {a b c : Bytes} (hab : strcmp a b ≠ .gt) (hbc : strcmp b c ≠ .gt) :
    strcmp a c ≠ .gt := by
  intro h
  have hca := (strcmp_swap a c).mp h
  have hba := strcmp_lt_of_le_of_lt hbc hca
  exact hab ((strcmp_swap a b).mpr hba)

theorem sorted_pairwise (items : List Bytes) :
    (items.insertionSort fun a b => strcmp a b ≠ .gt).Pairwise fun a b => strcmp a b ≠ .gt := by
  have htotal : Std.Total fun a b : Bytes => strcmp a b ≠ .gt := ⟨strcmp_total⟩
  have htrans : IsTrans Bytes fun a b => strcmp a b ≠ .gt := ⟨fun _ _ _ => strcmp_trans⟩
  exact List.pairwise_insertionSort _ items

theorem strncmp_eq (entry key : Bytes) : strncmp entry key key.length = .eq ↔ key <+: entry := by
  induction key generalizing entry with
  | nil => simp [strncmp]
  | cons b key ih =>
    cases entry with
    | nil => simp [strncmp]
    | cons a entry =>
      rw [List.length_cons,strncmp,List.cons_prefix_cons,← ih]
      by_cases hab : a < b
      · simp [hab,UInt8.ne_of_lt hab |>.symm]
      · by_cases hba : b < a
        · simp [hab,hba,UInt8.ne_of_lt hba]
        · have heq : b = a := by
            rw [UInt8.lt_iff_toNat_lt] at hab hba
            exact UInt8.toNat_inj.mp (by omega)
          simp [heq]

/-- The comparison with the virtual key is the one with the key and a slash. -/
theorem comparePrefix_lt (entry key : Bytes) :
    strSortedArrayComparePrefix entry key = .lt ↔ strcmp entry (key++[slash]) = .lt := by
  induction key generalizing entry with
  | nil =>
    cases entry with
    | nil => simp [strSortedArrayComparePrefix,strncmp,strcmp]
    | cons a entry =>
      by_cases ha : a < slash
      · simp [strSortedArrayComparePrefix,strncmp,strcmp,ha]
      · by_cases hs : slash < a
        · simp [strSortedArrayComparePrefix,strncmp,strcmp,ha,hs]
        · cases entry <;> simp [strSortedArrayComparePrefix,strncmp,strcmp,ha,hs]
  | cons b key ih =>
    cases entry with
    | nil => simp [strSortedArrayComparePrefix,strncmp,strcmp]
    | cons a entry =>
      by_cases hab : a < b
      · simp [strSortedArrayComparePrefix,strncmp,strcmp,hab]
      · by_cases hba : b < a
        · simp [strSortedArrayComparePrefix,strncmp,strcmp,hab,hba]
        · have hih := ih entry
          simpa [strSortedArrayComparePrefix,strncmp,strcmp,hab,hba] using hih

theorem strcmp_extends {q x : Bytes} (h : q <+: x) : strcmp x q ≠ .lt := by
  induction q generalizing x with
  | nil => cases x <;> simp [strcmp]
  | cons b q ih =>
    obtain ⟨t,rfl⟩ := h
    simpa [strcmp] using ih (List.prefix_append q t)

/-- What sorts between a string and one of its extensions extends it too. -/
theorem prefix_between {q m x : Bytes} (hx : q <+: x) (hlow : strcmp m q ≠ .lt)
    (hhigh : strcmp m x ≠ .gt) : q <+: m := by
  induction q generalizing m x with
  | nil => exact List.nil_prefix
  | cons b q ih =>
    obtain ⟨t,rfl⟩ := hx
    cases m with
    | nil => simp [strcmp] at hlow
    | cons c m =>
      by_cases hcb : c < b
      · simp [strcmp,hcb] at hlow
      · by_cases hbc : b < c
        · simp [strcmp,hcb,hbc] at hhigh
        · have heq : b = c := by
            rw [UInt8.lt_iff_toNat_lt] at hcb hbc
            exact UInt8.toNat_inj.mp (by omega)
          simp only [List.cons_append,strcmp,hcb,hbc,if_false] at hlow hhigh
          rw [heq,List.cons_prefix_cons]
          exact ⟨rfl,ih (List.prefix_append q t) hlow hhigh⟩

end Order

section Search

/-- For a test that fails from some place on, the search ends at the first
place where it fails. -/
theorem lowerBound_splits {below : ℕ → Bool} {n lo hi : ℕ} (hle : lo ≤ hi) (hn : hi ≤ n)
    (hmono : ∀ i j, i ≤ j → j < n → below j = true → below i = true)
    (hlo : ∀ i < lo, below i = true) :
    lowerBound below lo hi ≤ hi ∧ (∀ i < lowerBound below lo hi, below i = true) ∧
      (lowerBound below lo hi < hi → below (lowerBound below lo hi) = false) := by
  fun_induction lowerBound below lo hi with
  | case1 lo hi hlt mid hbelow ih =>
    exact ih (by omega) hn fun i hi => hmono i mid (by omega) (by omega) hbelow
  | case2 lo hi hlt mid hbelow ih =>
    obtain ⟨h1,h2,h3⟩ := ih (by omega) (by omega) hlo
    refine ⟨by omega,h2,fun _ => ?_⟩
    by_cases hm : lowerBound below lo mid < mid
    · exact h3 hm
    · rw [show lowerBound below lo mid = mid by omega]
      simpa using hbelow
  | case3 lo hi hlt => exact ⟨hle,hlo,fun h => absurd h hlt⟩

theorem child_prefix_iff {entry key : Bytes} :
    strncmp entry key key.length = .eq ∧ entry[key.length]? = some slash ↔
      key++[slash] <+: entry := by
  rw [strncmp_eq]
  constructor
  · rintro ⟨⟨t,ht⟩,hnext⟩
    rw [← ht,List.getElem?_append_right (Nat.le_refl _),Nat.sub_self] at hnext
    obtain ⟨u,rfl⟩ := List.head?_eq_some_iff.mp (List.head?_eq_getElem?.trans hnext)
    exact ⟨u,by rw [← ht]; simp⟩
  · rintro ⟨t,ht⟩
    rw [← ht,List.append_assoc]
    refine ⟨List.prefix_append _ _,?_⟩
    rw [List.getElem?_append_right (Nat.le_refl _),Nat.sub_self]
    rfl

theorem hasChildPrefix_iff {items : List Bytes} (key : Bytes)
    (hsorted : items.Pairwise fun a b => strcmp a b ≠ .gt) :
    strSortedArrayHasChildPrefix ⟨items⟩ key = true ↔
      key ≠ [] ∧ ∃ e ∈ items, key++[slash] <+: e := by
  unfold strSortedArrayHasChildPrefix
  by_cases hempty : items.length = 0 ∨ key = []
  · rw [if_pos hempty]
    rcases hempty with h | h
    · simp [List.length_eq_zero_iff.mp h]
    · simp [h]
  rw [if_neg hempty]
  rw [not_or] at hempty
  have hbelow : ∀ i (hi : i < items.length),
      decide (strSortedArrayComparePrefix (items.getD i []) key = .lt) = true ↔
        strcmp items[i] (key++[slash]) = .lt := by
    intro i hi
    rw [decide_eq_true_iff,comparePrefix_lt,List.getD_eq_getElem?_getD,
      List.getElem?_eq_getElem hi,Option.getD_some]
  have hle : ∀ i j (hi : i < items.length) (hj : j < items.length), i ≤ j →
      strcmp items[i] items[j] ≠ .gt := by
    intro i j hi hj hij
    by_cases h : i = j
    · subst h
      exact (strcmp_total _ _).elim id id
    · exact List.pairwise_iff_getElem.mp hsorted i j hi hj (by omega)
  obtain ⟨_,hpast,hhere⟩ := lowerBound_splits (Nat.zero_le _) (Nat.le_refl _)
    (fun i j hij hj h => (hbelow i (by omega)).mpr
      (strcmp_lt_of_le_of_lt (hle i j (by omega) hj hij) ((hbelow j hj).mp h)))
    fun i hi => absurd hi (Nat.not_lt_zero i)
  simp only
  generalize lowerBound (fun i => decide (strSortedArrayComparePrefix (items.getD i []) key = .lt))
    0 items.length = r at hpast hhere
  constructor
  · intro h
    cases hr : items[r]? with
    | none => simp [hr] at h
    | some entry =>
      simp only [hr,decide_eq_true_eq] at h
      exact ⟨hempty.2,entry,List.mem_of_getElem? hr,child_prefix_iff.mp h⟩
  · rintro ⟨_,e,he,hextends⟩
    obtain ⟨j,hj,rfl⟩ := List.mem_iff_getElem.mp he
    have hrj : r ≤ j := by
      by_contra hlt
      exact strcmp_extends hextends ((hbelow j hj).mp (hpast j (by omega)))
    have hr : r < items.length := by omega
    have hlow : strcmp items[r] (key++[slash]) ≠ .lt := by
      rw [← hbelow r hr |>.ne]
      simpa using hhere hr
    rw [List.getElem?_eq_getElem hr]
    exact decide_eq_true (child_prefix_iff.mpr
      (prefix_between hextends hlow (hle r j hr hj hrj)))

end Search

section Exact
variable {hash : Bytes → ℕ} {entries : List Bytes} {index : PathIndex}

/-- A list that is not too long for the word size can be indexed. -/
theorem pathIndexBuild_some (h : entries.length ≤ sizeMax/8) :
    ∃ index, pathIndexBuild hash entries = some index := by
  have hinit : Sound hash (strHashSetInit entries.length) := init_sound entries.length
  obtain ⟨set,hset,_⟩ := insertEach_sound entries hinit
  simp only [pathIndexBuild,strSortedArrayBuild,if_neg (Nat.not_lt.mpr h),hset]
  exact ⟨_,rfl⟩

section
variable (h : pathIndexBuild hash entries = some index)
include h

theorem pathIndexBuild_parts :
    index.sorted.items = entries.insertionSort (fun a b => strcmp a b ≠ .gt) ∧
      Sound hash index.exact ∧ ∀ k, some k ∈ index.exact.slots ↔ k ∈ entries := by
  have hinit : Sound hash (strHashSetInit entries.length) := init_sound entries.length
  obtain ⟨set,hset,hsound,hmem⟩ := insertEach_sound entries hinit
  unfold pathIndexBuild strSortedArrayBuild at h
  by_cases hlen : entries.length > sizeMax/8
  · simp [hlen] at h
  · simp only [hlen,if_false,hset,Option.some.injEq] at h
    rw [← h]
    refine ⟨rfl,hsound,fun k => ?_⟩
    rw [hmem]
    simp [strHashSetInit]

theorem pathIndexContains_exact {path : Bytes} :
    pathIndexContains hash index path = some (decide (path ∈ entries)) := by
  obtain ⟨_,hsound,hmem⟩ := pathIndexBuild_parts h
  rw [pathIndexContains,lookup_sound hsound]
  simp [hmem]

theorem pathIndexContainsN_exact {path : Bytes} {len : ℕ} :
    pathIndexContainsN hash index path len = some (decide (path.take len ∈ entries)) := by
  obtain ⟨_,hsound,hmem⟩ := pathIndexBuild_parts h
  rw [pathIndexContainsN,lookupN_sound hsound]
  simp [hmem]

theorem pathIndexHasDescendant_exact (path : Bytes) :
    pathIndexHasDescendant index path = true ↔ path ≠ [] ∧ ∃ e ∈ entries, path++[slash] <+: e := by
  have hitems := (pathIndexBuild_parts h).1
  have hspec := hasChildPrefix_iff path (sorted_pairwise entries)
  rw [← hitems] at hspec
  rw [pathIndexHasDescendant,hspec]
  simp [hitems]

/-- The delete engine's index, taken as the set of its strings, is this one. -/
theorem pathIndex_refines (path : Bytes) :
    pathIndexContains hash index path = some (DeletePaths.pathIndexContains ⟨entries⟩ path) ∧
      pathIndexHasDescendant index path = DeletePaths.pathIndexHasDescendant ⟨entries⟩ path := by
  refine ⟨pathIndexContains_exact h,?_⟩
  rw [Bool.eq_iff_iff,pathIndexHasDescendant_exact h]
  simp [DeletePaths.pathIndexHasDescendant,List.isPrefixOf_iff_prefix]

end

theorem pathIndex_refines_single : ∃ index, pathIndexBuild List.length [[97]] = some index ∧
    pathIndexContains List.length index [97] = some true := by
  obtain ⟨index,h⟩ := @pathIndexBuild_some List.length [[97]] (by decide)
  exact ⟨index,h,(pathIndex_refines h [97]).1.trans (by decide)⟩

end Exact

end FastSync.StringIndex
