import Mathlib.Data.List.Range
import Mathlib.Data.Nat.ModEq
import Mathlib.Logic.Function.Basic

/-!
# The ring buffer behind the work queues

The items lie in `size` slots from `front` on, taken modulo the capacity. A full
queue is copied into one of twice the capacity before an item is added. The value
carries its own bounds, so that a slot is read or written only inside the buffer,
and `toList` is the sequence it stands for.
-/

set_option autoImplicit false

namespace FastSync.RingQueue

def intMax : ℕ := 2^31-1

structure Queue (α : Type) where
  items : ℕ → Option α
  capacity : ℕ
  front : ℕ
  rear : ℕ
  size : ℕ
  capacity_pos : 0 < capacity
  capacity_le : capacity ≤ intMax
  front_lt : front < capacity
  size_le : size ≤ capacity
  rear_eq : rear = (front+size)%capacity
  occupied : ∀ i, i < size → (items ((front+i)%capacity)).isSome

variable {α : Type}

/-- The slot of the item that has `i` before it. -/
def slot (q : Queue α) (i : ℕ) : ℕ := (q.front+i)%q.capacity

def toList (q : Queue α) : List α := (List.range q.size).filterMap fun i => q.items (slot q i)

section
variable (q : Queue α)

theorem slot_inj {i j : ℕ} (hi : i < q.capacity) (hj : j < q.capacity) (h : slot q i = slot q j) :
    i = j := by
  have hmod : i ≡ j [MOD q.capacity] := Nat.ModEq.add_left_cancel' q.front h
  rw [Nat.ModEq, Nat.mod_eq_of_lt hi, Nat.mod_eq_of_lt hj] at hmod
  exact hmod

theorem length_toList : (toList q).length = q.size := by
  have hall : ∀ n, n ≤ q.size →
      ((List.range n).filterMap fun i => q.items (slot q i)).length = n := by
    intro n hn
    induction n with
    | zero => rfl
    | succ n ih =>
      obtain ⟨item,hitem⟩ := Option.isSome_iff_exists.mp (q.occupied n (by omega))
      have hslot : q.items (slot q n) = some item := hitem
      simp [List.range_succ, List.filterMap_append, hslot, ih (by omega)]
  exact hall q.size (Nat.le_refl _)

/-! ## The operations -/

def queueCreate (capacity : ℕ) (hpos : 0 < capacity) (hle : capacity ≤ intMax) : Queue α where
  items _ := none
  capacity := capacity
  front := 0
  rear := 0
  size := 0
  capacity_pos := hpos
  capacity_le := hle
  front_lt := hpos
  size_le := Nat.zero_le _
  rear_eq := (Nat.zero_mod capacity).symm
  occupied := by
    intro i hi
    omega

def queueIsEmpty (q : Queue α) : Bool := q.size = 0

def queueIsFull (q : Queue α) : Bool := q.size = q.capacity

/-- A new buffer with the items moved to its start. The capacity is positive, so the
doubled one is never below two. -/
def doubled (q : Queue α) (hle : q.capacity ≤ intMax/2) : Queue α where
  items i := if i < q.size then q.items (slot q i) else none
  capacity := q.capacity*2
  front := 0
  rear := q.size
  size := q.size
  capacity_pos := by
    have h := q.capacity_pos
    omega
  capacity_le := by omega
  front_lt := by
    have h := q.capacity_pos
    omega
  size_le := by
    have h := q.size_le
    omega
  rear_eq := by
    have hpos := q.capacity_pos
    have hsize := q.size_le
    rw [Nat.zero_add, Nat.mod_eq_of_lt (by omega)]
  occupied := by
    intro i hi
    have hsize := q.size_le
    rw [Nat.zero_add, Nat.mod_eq_of_lt (by omega), if_pos hi]
    exact q.occupied i hi

/-- `allocated` says whether the new buffer could be had. -/
def queueDoubleCapacity (allocated : Bool) (q : Queue α) : Option (Queue α) :=
  if hle : q.capacity ≤ intMax/2 then if allocated then some (doubled q hle) else none
  else none

def put (q : Queue α) (item : α) (hroom : q.size < q.capacity) : Queue α :=
  { q with
    items := Function.update q.items q.rear (some item)
    rear := (q.rear+1)%q.capacity
    size := q.size+1
    size_le := hroom
    rear_eq := by rw [q.rear_eq, Nat.mod_add_mod, Nat.add_assoc]
    occupied := by
      intro i hi
      by_cases hlast : (q.front+i)%q.capacity = q.rear
      · rw [hlast, Function.update_self]
        rfl
      · rw [Function.update_of_ne hlast]
        apply q.occupied i
        by_contra hge
        have hi' : i = q.size := by omega
        exact hlast (by rw [q.rear_eq, hi']) }

def queueEnqueue (allocated : Bool) (q : Queue α) (item : α) : Option (Queue α) :=
  if hroom : q.size < q.capacity then some (put q item hroom)
  else
    match queueDoubleCapacity allocated q with
    | none => none
    -- a doubled queue has room
    | some q' => if hroom : q'.size < q'.capacity then some (put q' item hroom) else none

def dropFront (q : Queue α) : Queue α :=
  if hsome : 0 < q.size then
    { q with
      items := Function.update q.items q.front none
      front := (q.front+1)%q.capacity
      size := q.size-1
      front_lt := Nat.mod_lt _ q.capacity_pos
      size_le := Nat.le_trans (Nat.sub_le _ _) q.size_le
      rear_eq := by
        rw [q.rear_eq, Nat.mod_add_mod]
        congr 1
        omega
      occupied := by
        intro i hi
        have hne : slot q (i+1) ≠ q.front := by
          intro heq
          have hsize := q.size_le
          have hzero : slot q 0 = q.front := Nat.mod_eq_of_lt q.front_lt
          have := slot_inj q (by omega) q.capacity_pos (heq.trans hzero.symm)
          omega
        have hslot : ((q.front+1)%q.capacity+i)%q.capacity = slot q (i+1) := by
          rw [Nat.mod_add_mod, slot, Nat.add_assoc, Nat.add_comm 1 i]
        rw [hslot, Function.update_of_ne hne]
        exact q.occupied (i+1) (by omega) }
  else q

/-- Nothing is taken from an empty queue. -/
def queueDequeue (q : Queue α) : Option (α × Queue α) :=
  if q.size = 0 then none else (q.items q.front).map fun item => (item,dropFront q)

/-! ## The queue is its list -/

theorem toList_queueCreate {capacity : ℕ} (hpos : 0 < capacity) (hle : capacity ≤ intMax) :
    toList (queueCreate capacity hpos hle : Queue α) = [] := rfl

theorem queueIsEmpty_iff : queueIsEmpty q = true ↔ toList q = [] := by
  rw [← List.length_eq_zero_iff, length_toList]
  exact decide_eq_true_iff

theorem queueIsFull_iff : queueIsFull q = true ↔ (toList q).length = q.capacity := by
  rw [length_toList]
  exact decide_eq_true_iff

theorem toList_doubled (hle : q.capacity ≤ intMax/2) : toList (doubled q hle) = toList q := by
  apply List.filterMap_congr
  intro i hi
  have hi' : i < q.size := List.mem_range.mp hi
  have hsize := q.size_le
  have hslot : slot (doubled q hle) i = i := by
    show (0+i)%(q.capacity*2) = i
    rw [Nat.zero_add, Nat.mod_eq_of_lt (by omega)]
  rw [hslot]
  exact if_pos hi'

theorem toList_put {item : α} (hroom : q.size < q.capacity) :
    toList (put q item hroom) = toList q++[item] := by
  have hlast : (put q item hroom).items (slot q q.size) = some item := by
    show Function.update q.items q.rear (some item) (slot q q.size) = some item
    rw [q.rear_eq]
    exact Function.update_self _ _ _
  have hrest : ∀ i ∈ List.range q.size,
      (put q item hroom).items (slot q i) = q.items (slot q i) := by
    intro i hi
    have hi' : i < q.size := List.mem_range.mp hi
    apply Function.update_of_ne
    intro heq
    have hsame : slot q i = slot q q.size := by rw [heq, q.rear_eq]; rfl
    have := slot_inj q (by omega) hroom hsame
    omega
  show (List.range (q.size+1)).filterMap (fun i => (put q item hroom).items (slot q i)) = _
  rw [List.range_succ, List.filterMap_append, List.filterMap_congr hrest]
  simp [hlast, toList]

end

variable {q : Queue α} {item : α}

theorem queueEnqueue_some {allocated : Bool} {q' : Queue α}
    (h : queueEnqueue allocated q item = some q') :
    toList q' = toList q++[item] ∧ (queueIsFull q = false → q'.capacity = q.capacity) := by
  unfold queueEnqueue at h
  split_ifs at h with hroom
  · cases h
    exact ⟨toList_put q hroom,fun _ => rfl⟩
  · have hfull : queueIsFull q = true := by
      have hsize := q.size_le
      exact decide_eq_true (by omega)
    unfold queueDoubleCapacity at h
    split_ifs at h with hle hgot
    · simp only at h
      split_ifs at h with hmore
      cases h
      rw [toList_put, toList_doubled]
      exact ⟨rfl,fun hfree => by rw [hfull] at hfree; cases hfree⟩

theorem queueEnqueue_isSome (allocated : Bool) (item : α)
    (h : queueIsFull q = false) : (queueEnqueue allocated q item).isSome := by
  have hne : q.size ≠ q.capacity := of_decide_eq_false h
  have hsize := q.size_le
  unfold queueEnqueue
  rw [dif_pos (by omega)]
  rfl

theorem toList_dropFront {q : Queue α} (hsome : 0 < q.size)
    (hitem : q.items q.front = some item) : toList q = item::toList (dropFront q) := by
  have hzero : slot q 0 = q.front := Nat.mod_eq_of_lt q.front_lt
  have hsucc : q.size = q.size-1+1 := by omega
  have hrest : ∀ i ∈ List.range (q.size-1),
      q.items (slot q (i+1)) = (dropFront q).items (slot (dropFront q) i) := by
    intro i hi
    have hi' : i < q.size-1 := List.mem_range.mp hi
    have hsize := q.size_le
    have hslot : slot (dropFront q) i = slot q (i+1) := by
      rw [dropFront, dif_pos hsome]
      show ((q.front+1)%q.capacity+i)%q.capacity = slot q (i+1)
      rw [Nat.mod_add_mod, slot, Nat.add_assoc, Nat.add_comm 1 i]
    rw [hslot, dropFront, dif_pos hsome]
    symm
    apply Function.update_of_ne
    intro heq
    have := slot_inj q (by omega) q.capacity_pos (heq.trans hzero.symm)
    omega
  have hsize : (dropFront q).size = q.size-1 := by
    rw [dropFront, dif_pos hsome]
  rw [toList, toList, hsize, hsucc, List.range_succ_eq_map, List.filterMap_cons, List.filterMap_map]
  simp only [hzero, hitem, Nat.add_sub_cancel]
  congr 1
  exact List.filterMap_congr hrest

theorem queueDequeue_none (h : queueDequeue q = none) : toList q = [] := by
  unfold queueDequeue at h
  split_ifs at h with hzero
  · exact (queueIsEmpty_iff q).mp (decide_eq_true hzero)
  · have hocc := q.occupied 0 (by omega)
    rw [Nat.add_zero, Nat.mod_eq_of_lt q.front_lt] at hocc
    rw [Option.map_eq_none_iff.mp h] at hocc
    cases hocc

theorem queueDequeue_some {q' : Queue α} (h : queueDequeue q = some (item,q')) :
    toList q = item::toList q' ∧ q'.capacity = q.capacity := by
  unfold queueDequeue at h
  split_ifs at h with hzero
  obtain ⟨item',hitem,hpair⟩ := Option.map_eq_some_iff.mp h
  cases hpair
  have hsome : 0 < q.size := by omega
  apply And.intro (toList_dropFront hsome hitem)
  rw [dropFront, dif_pos hsome]

end FastSync.RingQueue
