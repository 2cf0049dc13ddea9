import FastSync.Threads
import FastSync.ReceiverQueue

/-!
# The memory budget of a connection

Threads receive payloads, copy them out of chunks and destroy them. Each charge is
first reserved from its session by a compare-exchange on the session's total; it is
then either given to an object or given back when the receive fails, and it is
returned when the object is destroyed. Every compare-exchange is a turn of its own
and may fail for no reason.
-/

set_option autoImplicit false

namespace FastSync.MemoryBudget
open Threads
open ChunkCodec (maxConnectionMemory maxDataPayloadSize allocationSize)
open ReceiverQueue (protocolReserveMemory protocolReleaseMemory)

/-- A session set up for a connection, or the legacy session, which a change of
descriptors resets. -/
inductive SessionId where
  | legacy
  | connection (n : ℕ)
deriving DecidableEq, Repr

structure Data where
  size : ℕ
  protocolCharge : ℕ
  owner : Option SessionId
deriving DecidableEq, Repr

structure Memory where
  total : SessionId → ℕ
  live : List Data

inductive Purpose where
  | receive (size : ℕ)
  | copy (data : Data)
deriving DecidableEq, Repr

/-- Where a thread stands. `allocated` is what it last saw of the total. -/
inductive Thread where
  | idle
  | reserving (session : SessionId) (charge allocated : ℕ) (purpose : Purpose)
  | reserved (session : SessionId) (charge : ℕ) (purpose : Purpose)
  | returning (session : SessionId) (charge allocated : ℕ)
  | destroying (data : Data) (session : SessionId) (allocated : ℕ)
deriving DecidableEq, Repr

/-- How a receive goes on once its memory is reserved. -/
inductive Filling where
  | filled
  | allocFailed
  | receiveFailed
  | createFailed
deriving DecidableEq, Repr

inductive Action where
  | receiveSize (session : SessionId) (maximum size : ℕ)
  | create (size : ℕ) (session : Option SessionId) (charge : ℕ)
  | exchange (spurious : Bool)
  | finish (filling : Filling)
  | destroy (index : ℕ) (bound : SessionId)
  | setFds
deriving DecidableEq, Repr

def Memory.setTotal (m : Memory) (session : SessionId) (total : ℕ) : Memory :=
  { m with total := Function.update m.total session total }

/-- `data_charge_session` on an object just created. -/
def dataChargeSession (m : Memory) (data : Data) (session : Option SessionId) (charge : ℕ) :
    Memory × Thread :=
  match session with
  | none => ({ m with live := data::m.live },.idle)
  | some s =>
    if charge = 0 then ({ m with live := data::m.live },.idle)
    else (m,.reserving s charge (m.total s) (.copy data))

/-- `data_destroy`: a charge without an owner falls to the session that is bound. -/
def dataDestroy (m : Memory) (data : Data) (bound : SessionId) : Memory × Thread :=
  if data.protocolCharge ≠ 0 then
    (m,.destroying data (data.owner.getD bound) (m.total (data.owner.getD bound)))
  else (m,.idle)

def act : Action → Memory → Thread → Option (Memory × Thread)
  | .receiveSize session maximum size, m, .idle =>
    if size > maxDataPayloadSize ∨ size > maximum then some (m,.idle)
    else some (m,.reserving session (allocationSize size) (m.total session) (.receive size))
  | .create size session charge, m, .idle => some (dataChargeSession m ⟨size,0,none⟩ session charge)
  | .exchange spurious, m, .reserving session charge allocated purpose =>
    match protocolReserveMemory allocated charge with
    | none => some (m,.idle)
    | some next =>
      if m.total session = allocated ∧ spurious = false then
        some (m.setTotal session next,.reserved session charge purpose)
      else some (m,.reserving session charge (m.total session) purpose)
  | .exchange spurious, m, .returning session charge allocated =>
    if m.total session = allocated ∧ spurious = false then
      some (m.setTotal session (protocolReleaseMemory allocated charge),.idle)
    else some (m,.returning session charge (m.total session))
  | .exchange spurious, m, .destroying data session allocated =>
    if m.total session = allocated ∧ spurious = false then
      some (m.setTotal session (protocolReleaseMemory allocated data.protocolCharge),.idle)
    else some (m,.destroying data session (m.total session))
  | .finish .filled, m, .reserved session charge (.receive size) =>
    some ({ m with live := ⟨size,charge,some session⟩::m.live },.idle)
  | .finish _, m, .reserved session charge (.receive _) =>
    some (m,.returning session charge (m.total session))
  | .finish _, m, .reserved session charge (.copy data) =>
    some ({ m with
      live := { data with
        protocolCharge := charge
        owner := some session }::m.live },.idle)
  | .destroy index bound, m, .idle =>
    match m.live[index]? with
    | none => none
    | some data => some (dataDestroy { m with live := m.live.eraseIdx index } data bound)
  | .setFds, m, .idle => some (m.setTotal .legacy 0,.idle)
  | _, _, _ => none

/-- Sessions just set up, with threads that have done nothing. -/
def start (threads : ℕ) : World Memory Thread :=
  ⟨⟨fun _ => 0,[]⟩,List.replicate threads .idle⟩

def chargeOf (session : SessionId) (data : Data) : ℕ :=
  if data.owner = some session then data.protocolCharge else 0

def charges (session : SessionId) (live : List Data) : ℕ := (live.map (chargeOf session)).sum

/-- The objects a thread is about to free, whose charge is not yet returned. -/
def inHand : Thread → List Data
  | .destroying data _ _ => [data]
  | _ => []

def liveData (w : World Memory Thread) : List Data := w.shared.live++w.threads.flatMap inHand

/-- What a thread has reserved and not yet handed to an object or given back. -/
def reservation (session : SessionId) : Thread → ℕ
  | .reserved s charge _ => if s = session then charge else 0
  | .returning s charge _ => if s = session then charge else 0
  | _ => 0

/-- A thread that is about to return a charge to the session. -/
def releasing (session : SessionId) : Thread → ℕ
  | .returning s charge _ => if s = session then charge else 0
  | .destroying data s _ => if s = session then data.protocolCharge else 0
  | _ => 0

def holding (session : SessionId) (t : Thread) : ℕ := reservation session t+charges session (inHand t)

/-- An object with a charge has an owner; what is being destroyed is destroyed for it. -/
def Owned (data : Data) : Prop := data.protocolCharge ≠ 0 → data.owner ≠ none

def ForOwner : Thread → Prop
  | .destroying data session _ => data.owner = some session
  | _ => True

structure Balanced (w : World Memory Thread) : Prop where
  total : ∀ n, w.shared.total (.connection n) =
    charges (.connection n) w.shared.live+weight (holding (.connection n)) w.threads
  bound : ∀ n, w.shared.total (.connection n) ≤ maxConnectionMemory
  owned : ∀ data ∈ w.shared.live, Owned data
  threads : ∀ t ∈ w.threads, ForOwner t

variable {t : Thread}

section Turns
variable {m : Memory} {session : SessionId}

theorem setTotal_self (m : Memory) (session : SessionId) (total : ℕ) :
    (m.setTotal session total).total session = total := Function.update_self _ _ _

theorem setTotal_other {m : Memory} {session other : SessionId} (h : other ≠ session) (total : ℕ) :
    (m.setTotal other total).total session = m.total session :=
  Function.update_of_ne (Ne.symm h) _ _

theorem charges_cons (session : SessionId) (data : Data) (live : List Data) :
    charges session (data::live) = chargeOf session data+charges session live := by
  simp [charges]

variable {data : Data}

theorem charges_eraseIdx {session : SessionId} {live : List Data} {index : ℕ}
    (h : live[index]? = some data) :
    charges session live = chargeOf session data+charges session (live.eraseIdx index) := by
  induction live generalizing index with
  | nil => simp at h
  | cons x live ih =>
    cases index with
    | zero =>
      simp only [List.getElem?_cons_zero, Option.some.injEq] at h
      rw [charges_cons, h, List.eraseIdx_cons_zero]
    | succ index =>
      rw [charges_cons, ih h, List.eraseIdx_cons_succ, charges_cons]
      omega

variable {allocated charge : ℕ}

theorem reserve_eq {next : ℕ} (h : protocolReserveMemory allocated charge = some next) :
    next = allocated+charge ∧ allocated+charge ≤ maxConnectionMemory := by
  unfold protocolReserveMemory at h
  split_ifs at h with hover
  cases h
  exact ⟨rfl,by omega⟩

/-- What one thread's turn leaves, whatever the others hold. -/
structure Accounts (m : Memory) (t : Thread) (next : Memory × Thread) : Prop where
  kept : ∀ n rest, m.total (.connection n) =
      charges (.connection n) m.live+(holding (.connection n) t+rest) →
    m.total (.connection n) ≤ maxConnectionMemory →
    next.1.total (.connection n) = charges (.connection n) next.1.live+
        (holding (.connection n) next.2+rest) ∧
      next.1.total (.connection n) ≤ maxConnectionMemory
  owned : (∀ data ∈ m.live, Owned data) → ∀ data ∈ next.1.live, Owned data
  thread : ForOwner next.2

theorem accounts_same {t' : Thread} (hheld : ∀ session, holding session t' = holding session t)
    (ht' : ForOwner t') : Accounts m t (m,t') := by
  refine ⟨fun n rest htotal hbound => ?_,fun h => h,ht'⟩
  rw [hheld]
  exact ⟨htotal,hbound⟩

variable {s : SessionId}

theorem accounts_reserve {next : ℕ} {purpose : Purpose}
    (hnext : protocolReserveMemory allocated charge = some next) (hseen : m.total s = allocated) :
    Accounts m (.reserving s charge allocated purpose)
      (m.setTotal s next,.reserved s charge purpose) := by
  obtain ⟨rfl,hroom⟩ := reserve_eq hnext
  refine ⟨fun n rest htotal hbound => ?_,fun h => h,trivial⟩
  by_cases hs : s = .connection n
  · subst hs
    rw [setTotal_self]
    simp only [holding, reservation, inHand, if_true] at htotal ⊢
    simp only [Memory.setTotal]
    omega
  · rw [setTotal_other hs]
    simp only [holding, reservation, inHand, if_neg hs] at htotal ⊢
    exact ⟨htotal,hbound⟩

theorem accounts_return
    (hheld : ∀ session, holding session t = if s = session then charge else 0)
    (hseen : m.total s = allocated) :
    Accounts m t (m.setTotal s (protocolReleaseMemory allocated charge),.idle) := by
  refine ⟨fun n rest htotal hbound => ?_,fun h => h,trivial⟩
  rw [hheld] at htotal
  rw [ReceiverQueue.release_eq]
  by_cases hs : s = .connection n
  · subst hs
    rw [setTotal_self]
    simp only [if_true] at htotal
    simp only [Memory.setTotal, holding, reservation, inHand, charges, List.map_nil,
      List.sum_nil] at htotal ⊢
    omega
  · rw [setTotal_other hs]
    simp only [if_neg hs] at htotal
    exact ⟨htotal,hbound⟩

theorem accounts_object (howned : Owned data)
    (h : ∀ session, holding session t = chargeOf session data) :
    Accounts m t ({ m with live := data::m.live },.idle) := by
  refine ⟨fun n rest htotal hbound => ⟨?_,hbound⟩,fun hall d hd => ?_,trivial⟩
  · rw [h] at htotal
    rw [charges_cons]
    simp only [holding, reservation, inHand, charges, List.map_nil, List.sum_nil] at htotal ⊢
    omega
  · rcases List.mem_cons.mp hd with rfl | hd
    · exact howned
    · exact hall d hd

theorem accounts_charged {size : ℕ}
    (h : ∀ session, holding session t = if s = session then charge else 0) :
    Accounts m t ({ m with live := ⟨size,charge,some s⟩::m.live },.idle) := by
  apply accounts_object
  · intro _ hnone
    cases hnone
  · intro session
    simp [h, chargeOf]

theorem charges_inHand (session : SessionId) (data : Data) :
    charges session [data] = chargeOf session data := by
  simp [charges]

/-- An object on its way out keeps its charge in the total until it is returned. -/
theorem accounts_destroy {index : ℕ} {bound : SessionId}
    (hdata : m.live[index]? = some data) (howned : Owned data) :
    Accounts m .idle (dataDestroy { m with live := m.live.eraseIdx index } data bound) := by
  have hrest : (∀ d ∈ m.live, Owned d) → ∀ d ∈ m.live.eraseIdx index, Owned d :=
    fun hall d hd => hall d (List.mem_of_mem_eraseIdx hd)
  unfold dataDestroy
  split_ifs with hcharge
  · obtain ⟨s,hs⟩ := Option.ne_none_iff_exists'.mp (howned hcharge)
    refine ⟨fun n rest htotal hbound => ⟨?_,hbound⟩,hrest,by simp [ForOwner, hs]⟩
    rw [charges_eraseIdx hdata] at htotal
    simp only [holding, reservation, inHand, charges_inHand] at htotal ⊢
    simp only [charges, List.map_nil, List.sum_nil] at htotal ⊢
    omega
  · refine ⟨fun n rest htotal hbound => ⟨?_,hbound⟩,hrest,trivial⟩
    have hzero : chargeOf (.connection n) data = 0 := by
      unfold chargeOf
      split_ifs
      · exact not_not.mp hcharge
      · rfl
    rw [charges_eraseIdx hdata] at htotal
    simp only [holding, reservation, inHand] at htotal ⊢
    omega

theorem holding_destroying
    (howner : data.owner = some s) (session : SessionId) :
    holding session (.destroying data s allocated) =
      if s = session then data.protocolCharge else 0 := by
  simp [holding, reservation, inHand, charges_inHand, chargeOf, howner]

theorem accounts_setFds : Accounts m .idle (m.setTotal .legacy 0,.idle) := by
  refine ⟨fun n rest htotal hbound => ?_,fun h => h,trivial⟩
  exact ⟨htotal,hbound⟩

theorem act_accounts {a : Action} {next : Memory × Thread}
    (howned : ∀ data ∈ m.live, Owned data) (ht : ForOwner t) (h : act a m t = some next) :
    Accounts m t next := by
  have hfresh : ∀ size, Owned ⟨size,0,none⟩ := fun _ hne => absurd rfl hne
  unfold act at h
  split at h
  · -- the size of a payload has arrived
    split_ifs at h <;> cases h <;> exact accounts_same (fun _ => rfl) trivial
  · -- an object is created and perhaps charged
    cases h
    unfold dataChargeSession
    split
    · exact accounts_object (hfresh _) (fun _ => rfl)
    · split_ifs
      · exact accounts_object (hfresh _) (fun _ => rfl)
      · exact accounts_same (fun _ => rfl) trivial
  · -- a reservation is tried
    split at h
    · cases h
      exact accounts_same (fun _ => rfl) trivial
    · rename_i hnext
      split_ifs at h with hseen
      · cases h
        exact accounts_reserve hnext hseen.1
      · cases h
        exact accounts_same (fun _ => rfl) trivial
  · -- a failed receive gives its reservation back
    split_ifs at h with hseen
    · cases h
      exact accounts_return (fun _ => rfl) hseen.1
    · cases h
      exact accounts_same (fun _ => rfl) trivial
  · -- an object returns its charge
    split_ifs at h with hseen
    · cases h
      exact accounts_return (holding_destroying ht) hseen.1
    · cases h
      exact accounts_same (fun _ => rfl) ht
  · cases h
    exact accounts_charged (fun _ => rfl)
  · cases h
    exact accounts_same (fun _ => rfl) trivial
  · cases h
    exact accounts_charged (fun _ => rfl)
  · split at h
    · cases h
    · rename_i hdata
      cases h
      exact accounts_destroy hdata (howned _ (List.mem_of_getElem? hdata))
  · cases h
    exact accounts_setFds
  · cases h

end Turns

theorem balanced_turn {w w' : World Memory Thread} {i : ℕ} {a : Action} (hb : Balanced w)
    (h : turn act w i a = some w') : Balanced w' := by
  have hact : ∀ t next, t ∈ w.threads → act a w.shared t = some next → Accounts w.shared t next :=
    fun t next ht ha => act_accounts hb.owned (hb.threads t ht) ha
  have hthreads := all_turn hb.threads h (fun t next ht ha => (hact t next ht ha).thread)
  obtain ⟨t,next,ht,ha,rfl⟩ := turn_some h
  have haccounts := hact t next (List.mem_of_getElem? ht) ha
  have hsum : ∀ n, next.1.total (.connection n) = charges (.connection n) next.1.live+
      weight (holding (.connection n)) (w.threads.set i next.2) ∧
      next.1.total (.connection n) ≤ maxConnectionMemory := by
    intro n
    obtain ⟨rest,hrest,hset⟩ := weight_set ht
    have htotal := hb.total n
    rw [hrest] at htotal
    rw [hset next.2]
    exact haccounts.kept n rest htotal (hb.bound n)
  exact ⟨fun n => (hsum n).1,fun n => (hsum n).2,haccounts.owned hb.owned,hthreads⟩

theorem balanced_start {threads : ℕ} : Balanced (start threads) := by
  have hidle : ∀ t ∈ (start threads).threads, t = .idle :=
    fun t ht => List.eq_of_mem_replicate ht
  refine ⟨fun n => ?_,fun n => Nat.zero_le _,(by intro d hd; cases hd),?_⟩
  · rw [weight_eq_zero (fun t ht => by rw [hidle t ht]; rfl)]
    rfl
  · intro t ht
    rw [hidle t ht]
    trivial

theorem charges_append (session : SessionId) (xs ys : List Data) :
    charges session (xs++ys) = charges session xs+charges session ys := by
  simp [charges]

/-- What the threads hold is their reservations and the objects in their hands. -/
theorem weight_holding (session : SessionId) (threads : List Thread) :
    weight (holding session) threads =
      weight (reservation session) threads+charges session (threads.flatMap inHand) := by
  induction threads with
  | nil => rfl
  | cons t threads ih =>
    unfold weight at ih ⊢
    rw [List.map_cons, List.sum_cons, ih, List.map_cons, List.sum_cons, List.flatMap_cons,
      charges_append]
    unfold holding
    omega

theorem releasing_le_holding {session : SessionId} (ht : ForOwner t) :
    releasing session t ≤ holding session t := by
  cases t with
  | destroying data s allocated =>
    rw [holding_destroying ht]
    exact Nat.le_refl _
  | returning s charge allocated =>
    exact Nat.le_add_right _ _
  | _ => exact Nat.zero_le _

/-- The budget of a connection on every interleaving. With no reservation under
way the session's total is what its live objects are charged with; it is never
above the limit; what a thread is about to return is covered by the total, so the
subtraction never stops at zero; and the total is zero when no object is left. -/
theorem connection_budget (threads n : ℕ) (schedule : List (ℕ × Action))
    (w : World Memory Thread) (h : run act schedule (start threads) = some w) :
    ((∀ t ∈ w.threads, reservation (.connection n) t = 0) →
      w.shared.total (.connection n) = charges (.connection n) (liveData w)) ∧
    w.shared.total (.connection n) ≤ maxConnectionMemory ∧
    weight (releasing (.connection n)) w.threads ≤ w.shared.total (.connection n) ∧
    ((∀ t ∈ w.threads, reservation (.connection n) t = 0) → liveData w = [] →
      w.shared.total (.connection n) = 0) := by
  have hb : Balanced w :=
    run_invariant Balanced (fun _ _ _ _ => balanced_turn) schedule balanced_start h
  have htotal := hb.total n
  rw [weight_holding] at htotal
  have hlive : (∀ t ∈ w.threads, reservation (.connection n) t = 0) →
      w.shared.total (.connection n) = charges (.connection n) (liveData w) := by
    intro hnone
    rw [weight_eq_zero hnone] at htotal
    rw [liveData, charges_append]
    omega
  refine ⟨hlive,hb.bound n,?_,?_⟩
  · have hle : weight (releasing (.connection n)) w.threads ≤
        weight (holding (.connection n)) w.threads :=
      weight_le (fun t ht => releasing_le_holding (hb.threads t ht))
    have := hb.total n
    omega
  · intro hnone hempty
    rw [hlive hnone, hempty]
    rfl

def receivedOnce : List (ℕ × Action) :=
  [(0,.receiveSize (.connection 0) 10 5),(0,.exchange false),(0,.finish .filled)]

theorem connection_budget_receivedOnce :
    ∃ w, run act receivedOnce (start 2) = some w ∧
      w.shared.total (.connection 0) ≤ maxConnectionMemory :=
  ⟨_,rfl,(connection_budget 2 0 receivedOnce _ rfl).2.1⟩

end FastSync.MemoryBudget
