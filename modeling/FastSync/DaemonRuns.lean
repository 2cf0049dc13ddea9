import FastSync.DaemonLimits
import Mathlib.Algebra.Group.Nat.Defs
import Mathlib.Tactic.SplitIfs

/-!
# Runs of the connection registry

The registry goes through a list of operations. Beside it stands who each slot
was last registered for, which the code does not keep. The bucket table stays a
probe table whatever the operations are, so a source is found in its one bucket.
-/

set_option autoImplicit false

namespace FastSync.DaemonRuns
open ProbeOrder LinearProbing DaemonLimits

inductive Operation where
  | claimSlot
  | setSlotPid (slot : Int32) (pid : Int64)
  | register (slot module : Int32) (peer : Option Peer) (now : ℕ)
  | reclaimSlot (slot : Int32)
  | reclaimPid (pid : Int64)
  | recompute
  | authLocked (peer : Option Peer) (seen now : ℕ)
  | authRecordFailure (peer : Option Peer) (seen now : ℕ)
  | authRecordSuccess (peer : Option Peer) (now : ℕ)
deriving DecidableEq, Repr

def Operation.readings : Operation → List ℕ
  | .register _ _ _ now => [now]
  | .authLocked _ seen now => [seen,now]
  | .authRecordFailure _ seen now => [seen,now]
  | .authRecordSuccess _ now => [now]
  | _ => []

def Operation.peer : Operation → Option Peer
  | .register _ _ peer _ => peer
  | .authLocked peer _ _ => peer
  | .authRecordFailure peer _ _ => peer
  | .authRecordSuccess peer _ => peer
  | _ => none

def peers (ops : List Operation) : List Peer := ops.filterMap Operation.peer

def DistinctKeys (ops : List Operation) : Prop :=
  ∀ p ∈ peers ops, ∀ q ∈ peers ops, hostHash p = hostHash q → p = q

def ClockForward (ops : List Operation) : Prop :=
  (ops.flatMap Operation.readings).Pairwise (· ≤ ·)

instance (ops : List Operation) : Decidable (ClockForward ops) :=
  inferInstanceAs (Decidable (List.Pairwise _ _))

structure Daemon where
  registry : Registry
  owner : ℕ → Option Peer

structure Settings where
  maxSlots : Int32
  moduleCount : Int32
  perHostCap : Int32
  lockoutThreshold : Int32
  lockoutDurationSec : Int32

def start (c : Settings) : Daemon where
  registry := daemonLimitsCreate c.maxSlots c.moduleCount c.perHostCap c.lockoutThreshold
    c.lockoutDurationSec
  owner := fun _ => none

/-- Every module is registered with its own fixed cap. -/
def step (cap : ℕ → Int32) (d : Daemon) : Operation → Daemon
  | .claimSlot => { d with registry := (daemonLimitsClaimSlot d.registry).2 }
  | .setSlotPid slot pid => { d with registry := daemonLimitsSetSlotPid d.registry slot pid }
  | .register slot module peer now =>
    let answer := daemonLimitsRegister d.registry slot module peer (cap module.toInt.toNat) now
    { registry := answer.2
      owner :=
        if answer.1 = .ok then Function.update d.owner slot.toInt.toNat peer else d.owner }
  | .reclaimSlot slot => { d with registry := daemonLimitsReclaimSlot d.registry slot }
  | .reclaimPid pid => { d with registry := daemonLimitsReclaimPid d.registry pid }
  | .recompute => { d with registry := daemonLimitsRecompute d.registry }
  | .authLocked peer seen now =>
    { d with registry := (daemonLimitsAuthLocked d.registry peer seen now).2 }
  | .authRecordFailure peer seen now =>
    { d with registry := daemonLimitsAuthRecordFailure d.registry peer seen now }
  | .authRecordSuccess peer now =>
    { d with registry := daemonLimitsAuthRecordSuccess d.registry peer now }

def run (cap : ℕ → Int32) (d : Daemon) (ops : List Operation) : Daemon := ops.foldl (step cap) d

theorem run_append (cap : ℕ → Int32) (d : Daemon) (ops rest : List Operation) :
    run cap d (ops++rest) = run cap (run cap d ops) rest := List.foldl_append

theorem run_concat (cap : ℕ → Int32) (d : Daemon) (ops : List Operation) (op : Operation) :
    run cap d (ops++[op]) = step cap (run cap d ops) op := by
  rw [run_append]
  rfl

theorem hostHash_ne_zero (p : Peer) : hostHash p ≠ 0 := by
  unfold hostHash
  simp only
  split_ifs with h
  · decide
  · exact h

/-! ## The bucket table -/

theorem nextPow2Loop_pow (n fuel k : ℕ) : ∃ j, nextPow2Loop n fuel (2^k) = 2^j := by
  induction fuel generalizing k with
  | zero => exact ⟨k,rfl⟩
  | succ fuel ih =>
    rw [nextPow2Loop]
    split_ifs
    · rw [← Nat.pow_succ']
      exact ih (k+1)
    · exact ⟨k,rfl⟩

/-- The number of buckets is a power of two, so a mask is a remainder. -/
theorem probeOrder_pow (k : ℕ) (key : UInt64) :
    probeOrder (2^k) key = (List.range (2^k)).map fun i => slotAfter (2^k) (key.toNat%2^k) i := by
  unfold probeOrder slotAfter
  simp

theorem mem_probeOrder {k : ℕ} {key : UInt64} {i : ℕ} : i ∈ probeOrder (2^k) key ↔ i < 2^k := by
  rw [probeOrder_pow, List.mem_map]
  constructor
  · rintro ⟨d,_,rfl⟩
    exact slotAfter_lt (Nat.two_pow_pos k) _ _
  · intro hi
    obtain ⟨d,hd,hmeet⟩ := slotAfter_meets hi
    exact ⟨d,List.mem_range.mpr hd,hmeet⟩

structure Table (r : Registry) : Prop where
  pow : ∃ k, r.hostSlots = 2^k
  chained : Chained (probeOrder r.hostSlots) 0 r.hostSlots r.hostKey

theorem table_start (c : Settings) : Table (start c).registry where
  pow := by
    unfold start daemonLimitsCreate
    simp only
    split_ifs
    any_goals exact nextPow2Loop_pow _ _ 0
    exact ⟨0,rfl⟩
  chained := chained_empty

section Intern
variable {r : Registry}

theorem Table.order (h : Table r) (key : UInt64) (i : ℕ) :
    i ∈ probeOrder r.hostSlots key ↔ i < r.hostSlots := by
  obtain ⟨k,hk⟩ := h.pow
  rw [hk]
  exact mem_probeOrder

theorem Table.order_lt (h : Table r) : ∀ key, ∀ i ∈ probeOrder r.hostSlots key, i < r.hostSlots :=
  fun key i hi => (h.order key i).mp hi

inductive Interned (r : Registry) (p : Peer) (now : ℕ) : Option ℕ → Registry → Prop where
  | own (b : ℕ) (hb : b < r.hostSlots) (hkey : r.hostKey b = hostHash p) :
      Interned r p now (some b) (r.touch b now)
  | fresh (b : ℕ) (hb : b < r.hostSlots) (hkey : r.hostKey b = 0)
      (habsent : ∀ j < r.hostSlots, r.hostKey j ≠ hostHash p) :
      Interned r p now (some b)
        { r.touch b now with hostKey := Function.update r.hostKey b (hostHash p) }
  | evicted (b : ℕ) (hb : b < r.hostSlots) (hspare : hostBucketReclaimable r now b = true)
      (habsent : ∀ j < r.hostSlots, r.hostKey j ≠ hostHash p) :
      Interned r p now (some b) (r.evict b (hostHash p) now)
  | full (habsent : ∀ j < r.hostSlots, r.hostKey j ≠ hostHash p) :
      Interned r p now none (hostWarnTableFull r now)

theorem hostWarnTableFull_hosts {r : Registry} {now : ℕ} :
    ∃ warned, hostWarnTableFull r now = { r with hostFullWarn := warned } := by
  unfold hostWarnTableFull
  split_ifs
  · exact ⟨r.hostFullWarn,rfl⟩
  · exact ⟨now,rfl⟩

theorem Table.put (h : Table r) {key : UInt64} {pre post : List ℕ} {i : ℕ} (hkey : key ≠ 0)
    (hsplit : probeOrder r.hostSlots key = pre++i::post) (hpre : ∀ j ∈ pre, r.hostKey j ≠ 0)
    (habsent : ∀ j < r.hostSlots, r.hostKey j ≠ key) :
    Chained (probeOrder r.hostSlots) 0 r.hostSlots (Function.update r.hostKey i key) :=
  h.chained.put hkey hsplit hpre habsent

theorem rescan_evict {key : UInt64} {b : ℕ} (hb : b < r.hostSlots)
    (hkey : key ≠ 0) {now : ℕ} (ht : Table (r.evict b key now)) :
    lookup (r.evict b key now).hostKey 0 key (probeOrder (r.evict b key now).hostSlots key) =
      some b := by
  have hself : (r.evict b key now).hostKey b = key := by
    show Function.update r.hostKey b key b = key
    rw [Function.update_self]
  have hfound := ht.chained.lookup_eq ht.order_lt hb (by rw [hself]; exact hkey)
  rw [hself] at hfound
  exact hfound

theorem hostIntern_interned (h : Table r) (p : Peer) (now : ℕ) :
    Interned r p now (hostIntern r (some p) now).1 (hostIntern r (some p) now).2 ∧
      Table (hostIntern r (some p) now).2 := by
  have hne := hostHash_ne_zero p
  rcases @scan_cases _ r.hostKey 0 (hostHash p) _ (hostBucketReclaimable r now)
      (probeOrder r.hostSlots (hostHash p)) none with
    ⟨i,hi,hik,hs⟩ | ⟨pre,i,post,hsplit,hpre,hie,_,hs⟩ | ⟨hpass,kept,hs,hkept⟩
  · simp only [hostIntern, hs]
    exact ⟨.own i (h.order_lt _ i hi) hik,h.pow,h.chained⟩
  · have hmem : i ∈ probeOrder r.hostSlots (hostHash p) := by
      rw [hsplit]
      exact List.mem_append_right _ List.mem_cons_self
    have habsent := h.chained.absent h.order_lt hne hsplit hpre hie
    simp only [hostIntern, hs]
    exact ⟨.fresh i (h.order_lt _ i hmem) hie habsent,h.pow,
      h.put hne hsplit (fun j hj => (hpre j hj).2) habsent⟩
  have habsent : ∀ j < r.hostSlots, r.hostKey j ≠ hostHash p :=
    fun j hj => (hpass j ((h.order _ j).mpr hj)).1
  rcases hkept with rfl | ⟨i,hi,rfl,hspare⟩
  · simp only [hostIntern, hs]
    obtain ⟨warned,hw⟩ := hostWarnTableFull_hosts
    apply And.intro (.full habsent)
    rw [hw]
    exact ⟨h.pow,h.chained⟩
  obtain ⟨pre,post,hsplit⟩ := List.append_of_mem hi
  have hput := h.put hne hsplit (fun j hj => (hpass j (by
    rw [hsplit]
    exact List.mem_append_left _ hj)).2) habsent
  have ht : Table (r.evict i (hostHash p) now) := ⟨h.pow,hput⟩
  have hi' := h.order_lt _ i hi
  simp only [hostIntern, hs, rescan_evict hi' hne ht, ne_eq, not_true_eq_false, if_false]
  exact ⟨.evicted i hi' hspare habsent,ht⟩

theorem hostLookup_cases (h : Table r) {p : Peer} {now : ℕ} :
    (∃ b < r.hostSlots, r.hostKey b = hostHash p ∧
      hostLookup r (some p) now = (some b,r.touch b now)) ∨
    (∀ j < r.hostSlots, r.hostKey j ≠ hostHash p) ∧ hostLookup r (some p) now = (none,r) := by
  cases hl : lookup r.hostKey 0 (hostHash p) (probeOrder r.hostSlots (hostHash p)) with
  | some b =>
    have hb := lookup_some hl
    exact .inl ⟨b,h.order_lt _ b hb.1,hb.2,by simp [hostLookup, hl]⟩
  | none =>
    refine .inr ⟨fun j hj hjk => ?_,by simp [hostLookup, hl]⟩
    have hfound := h.chained.lookup_eq h.order_lt hj (by rw [hjk]; exact hostHash_ne_zero p)
    rw [hjk, hl] at hfound
    cases hfound

end Intern

/-! ## One registration -/

/-- The counter of the bucket of an admitted connection, if it has one. -/
def joinHost (host : Option ℕ) (active : ℕ → Int32) : ℕ → Int32 :=
  match host with
  | none => active
  | some h => Function.update active h (active h+1)

def admitted (r : Registry) (slot module : ℕ) (host : Option ℕ) : Registry :=
  { r with
    moduleActive := Function.update r.moduleActive module (r.moduleActive module+1)
    hostActive := joinHost host r.hostActive
    slotModule := Function.update r.slotModule slot (some module)
    slotHost := Function.update r.slotHost slot host
    slotState := Function.update r.slotState slot .registered }

theorem count_back (counters : ℕ → Int32) (i : ℕ) :
    Function.update (Function.update counters i (counters i+1)) i (counters i+1-1) = counters := by
  rw [Function.update_idem, Int32.add_sub_cancel, Function.update_eq_self]

theorem registerIn_cases (r : Registry) (slot module : ℕ) (host : Option ℕ) (moduleCap : Int32) :
    (∃ refusal, refusal ≠ LimitResult.ok ∧
      registerIn r slot module host moduleCap = (refusal,r)) ∨
    (0 < moduleCap → r.moduleActive module+1 ≤ moduleCap) ∧
    (∀ h, host = some h → 0 < r.perHostCap → r.hostActive h+1 ≤ r.perHostCap) ∧
    registerIn r slot module host moduleCap = (.ok,admitted r slot module host) := by
  unfold registerIn
  by_cases hm : 0 < moduleCap ∧ moduleCap < r.moduleActive module+1
  · rw [if_pos hm, count_back]
    exact .inl ⟨.moduleFull,by decide,rfl⟩
  rw [if_neg hm]
  have hroom : 0 < moduleCap → r.moduleActive module+1 ≤ moduleCap :=
    fun h => Int32.not_lt.mp (fun h' => hm ⟨h,h'⟩)
  cases host with
  | none => exact .inr ⟨hroom,(by intro h hh; cases hh),rfl⟩
  | some h =>
    simp only
    by_cases hh : 0 < r.perHostCap ∧ r.perHostCap < r.hostActive h+1
    · rw [if_pos hh, count_back]
      refine .inl ⟨.hostFull,by decide,?_⟩
      rw [Int32.add_sub_cancel, Function.update_eq_self]
    · rw [if_neg hh]
      refine .inr ⟨hroom,?_,rfl⟩
      intro h' hh' hpos
      cases hh'
      exact Int32.not_lt.mp (fun hlt => hh ⟨hpos,hlt⟩)

theorem indexBelow_eq_some {n : ℕ} {index : Int32} {i : ℕ} (h : indexBelow n index = some i) :
    i < n ∧ index.toInt.toNat = i := by
  unfold indexBelow at h
  split_ifs at h with hout
  cases h
  have hneg : ¬ index.toInt < 0 := fun hlt => hout (.inl (Int32.lt_iff_toInt_lt.mpr hlt))
  exact ⟨by omega,rfl⟩

def Sourced (r : Registry) (peer : Option Peer) (now : ℕ) (host : Option ℕ) (r' : Registry) :
    Prop :=
  (host = none ∧ r' = r) ∨ ∃ p, peer = some p ∧ Interned r p now host r'

theorem hostIntern_sourced {r : Registry} (h : Table r) (peer : Option Peer) (now : ℕ) :
    Sourced r peer now (hostIntern r peer now).1 (hostIntern r peer now).2 ∧
      Table (hostIntern r peer now).2 := by
  cases peer with
  | none => exact ⟨.inl ⟨rfl,rfl⟩,h⟩
  | some p =>
    have hp := hostIntern_interned h p now
    exact ⟨.inr ⟨p,rfl,hp.1⟩,hp.2⟩

structure Vacates (r r' : Registry) : Prop where
  rest : ∃ state pid modules hosts,
    r' = { r with
      slotState := state
      slotPid := pid
      slotModule := modules
      slotHost := hosts }
  kept : ∀ i, r'.slotState i = .registered → r.slotState i = .registered ∧
    r'.slotModule i = r.slotModule i ∧ r'.slotHost i = r.slotHost i

/-- Only failures, deadlines and times of use differ. -/
def Annotates (r r' : Registry) : Prop :=
  ∃ fail deadline lastUse, r' = { r with
    hostFail := fail
    hostUntil := deadline
    hostLastUse := lastUse }

theorem annotates_refl (r : Registry) : Annotates r r := ⟨_,_,_,rfl⟩

theorem sourced_rest {r : Registry} {peer : Option Peer} {now : ℕ} {host : Option ℕ}
    {r' : Registry} (h : Sourced r peer now host r') :
    ∃ warned key active fail deadline lastUse, r' = { r with
      hostFullWarn := warned
      hostKey := key
      hostActive := active
      hostFail := fail
      hostUntil := deadline
      hostLastUse := lastUse } := by
  rcases h with ⟨_,rfl⟩ | ⟨p,_,h⟩
  · exact ⟨_,_,_,_,_,_,rfl⟩
  cases h with
  | own b hb hkey | fresh b hb hkey habsent | evicted b hb hspare habsent => exact ⟨_,_,_,_,_,_,rfl⟩
  | full habsent =>
    obtain ⟨warned,hw⟩ := hostWarnTableFull_hosts
    exact ⟨warned,_,_,_,_,_,hw⟩

/-- Everything an operation can do to slots, counters and keys. -/
inductive Change (cap : ℕ → Int32) (d : Daemon) : Daemon → Prop where
  | vacate (r' : Registry) (h : Vacates d.registry r') : Change cap d { d with registry := r' }
  | recompute : Change cap d { d with registry := daemonLimitsRecompute d.registry }
  | consult (peer : Option Peer) (now : ℕ) (host : Option ℕ) (r₁ r' : Registry)
      (hs : Sourced d.registry peer now host r₁) (ht : Table r₁) (ha : Annotates r₁ r') :
      Change cap d { d with registry := r' }
  | enter (peer : Option Peer) (now : ℕ) (host : Option ℕ) (r₁ : Registry) (i m : ℕ)
      (hs : Sourced d.registry peer now host r₁) (ht : Table r₁)
      (hi : i < d.registry.maxSlots) (hm : m < d.registry.moduleCount)
      (hstate : d.registry.slotState i = .claimed)
      (hmodule : 0 < cap m → r₁.moduleActive m+1 ≤ cap m)
      (hhost : ∀ h, host = some h → 0 < r₁.perHostCap → r₁.hostActive h+1 ≤ r₁.perHostCap) :
      Change cap d ⟨admitted r₁ i m host,Function.update d.owner i peer⟩

section Changes
variable {cap : ℕ → Int32} {d : Daemon}

theorem change_same (ht : Table d.registry) : Change cap d d :=
  .consult none 0 none d.registry d.registry (.inl ⟨rfl,rfl⟩) ht (annotates_refl _)

section
variable {r : Registry}

theorem vacates_refl : Vacates r r :=
  ⟨⟨_,_,_,_,rfl⟩,fun _ h => ⟨h,rfl,rfl⟩⟩

theorem vacates_freeSlot {i : ℕ} : Vacates r (r.freeSlot i) := by
  apply Vacates.mk ⟨_,_,_,_,rfl⟩
  intro j hj
  by_cases hji : j = i
  · rw [hji] at hj
    simp at hj
  · simp only [Function.update_of_ne hji] at hj
    exact ⟨hj,rfl,rfl⟩

theorem vacates_claim : Vacates r (daemonLimitsClaimSlot r).2 := by
  cases hf : firstFree r with
  | none =>
    simp only [daemonLimitsClaimSlot, hf]
    exact vacates_refl
  | some i =>
    simp only [daemonLimitsClaimSlot, hf]
    apply Vacates.mk ⟨_,_,_,_,rfl⟩
    intro j hj
    by_cases hji : j = i
    · rw [hji] at hj
      simp at hj
    · simp only [Function.update_of_ne hji] at hj
      exact ⟨hj,Function.update_of_ne hji _ _,Function.update_of_ne hji _ _⟩

theorem vacates_setSlotPid {slot : Int32} {pid : Int64} :
    Vacates r (daemonLimitsSetSlotPid r slot pid) := by
  unfold daemonLimitsSetSlotPid
  split
  · exact vacates_refl
  · exact ⟨⟨_,_,_,_,rfl⟩,fun _ h => ⟨h,rfl,rfl⟩⟩

theorem vacates_reclaimSlot {slot : Int32} : Vacates r (daemonLimitsReclaimSlot r slot) := by
  unfold daemonLimitsReclaimSlot
  split
  · exact vacates_refl
  · exact vacates_freeSlot

theorem vacates_reclaimPid {pid : Int64} : Vacates r (daemonLimitsReclaimPid r pid) := by
  unfold daemonLimitsReclaimPid
  split_ifs
  · exact vacates_refl
  split
  · exact vacates_refl
  · exact vacates_freeSlot

end

theorem change_register (ht : Table d.registry) {slot module : Int32} {peer : Option Peer}
    {now : ℕ} : Change cap d (step cap d (.register slot module peer now)) := by
  -- The tail decides the same way with and without a bucket.
  have htail : ∀ (host : Option ℕ) (r₁ : Registry) (i m : ℕ),
      Sourced d.registry peer now host r₁ → Table r₁ → i < d.registry.maxSlots →
      slot.toInt.toNat = i → m < d.registry.moduleCount → module.toInt.toNat = m →
      d.registry.slotState i = .claimed →
      daemonLimitsRegister d.registry slot module peer (cap module.toInt.toNat) now =
        registerIn r₁ i m host (cap m) →
      Change cap d (step cap d (.register slot module peer now)) := by
    intro host r₁ i m hs ht₁ hi hslot hm hmod hstate heq
    rcases registerIn_cases r₁ i m host (cap m) with ⟨refusal,hne,hr⟩ | ⟨hcap,hhost,hr⟩
    · simp only [step, heq, hr, if_neg hne]
      exact .consult peer now host r₁ r₁ hs ht₁ (annotates_refl r₁)
    · simp only [step, heq, hr, if_true, hslot]
      exact .enter peer now host r₁ i m hs ht₁ hi hm hstate hcap hhost
  have hnot : daemonLimitsRegister d.registry slot module peer (cap module.toInt.toNat) now =
      (.unavailable,d.registry) → Change cap d (step cap d (.register slot module peer now)) := by
    intro h
    simp only [step, h, if_neg (show ¬ LimitResult.unavailable = .ok by decide)]
    exact change_same ht
  cases hi : indexBelow d.registry.maxSlots slot with
  | none => exact hnot (by simp [daemonLimitsRegister, hi])
  | some i =>
    cases hm : indexBelow d.registry.moduleCount module with
    | none => exact hnot (by simp [daemonLimitsRegister, hi, hm])
    | some m =>
      obtain ⟨hil,his⟩ := indexBelow_eq_some hi
      obtain ⟨hml,hms⟩ := indexBelow_eq_some hm
      by_cases hstate : d.registry.slotState i = .claimed
      · by_cases htracks : d.registry.tracksHosts = true
        · have hs := hostIntern_sourced ht peer now
          exact htail _ _ i m hs.1 hs.2 hil his hml hms hstate (by
            simp [daemonLimitsRegister, hi, hm, hstate, htracks, hms])
        · exact htail none d.registry i m (.inl ⟨rfl,rfl⟩) ht hil his hml hms hstate (by
            simp [daemonLimitsRegister, hi, hm, hstate, htracks, hms])
      · exact hnot (by simp [daemonLimitsRegister, hi, hm, hstate])

section
variable (r : Registry) (peer : Option Peer)

theorem annotates_hostLookup (now : ℕ) : Annotates r (hostLookup r peer now).2 := by
  cases peer with
  | none => exact annotates_refl r
  | some p =>
    cases hl : lookup r.hostKey 0 (hostHash p) (probeOrder r.hostSlots (hostHash p)) with
    | none =>
      simp only [hostLookup, hl]
      exact annotates_refl r
    | some b =>
      simp only [hostLookup, hl]
      exact ⟨_,_,_,rfl⟩

theorem annotates_trans {r r₁ r₂ : Registry} (h : Annotates r r₁) (h' : Annotates r₁ r₂) :
    Annotates r r₂ := by
  obtain ⟨f,u,l,rfl⟩ := h
  obtain ⟨f',u',l',rfl⟩ := h'
  exact ⟨f',u',l',rfl⟩

theorem annotates_authLocked {seen now : ℕ} :
    Annotates r (daemonLimitsAuthLocked r peer seen now).2 := by
  have hl := annotates_hostLookup r peer seen
  unfold daemonLimitsAuthLocked
  split_ifs
  · split
    · rename_i h
      rwa [h] at hl
    · rename_i h
      rw [h] at hl
      split_ifs
      · exact hl
      · exact annotates_trans hl ⟨_,_,_,rfl⟩
      · exact hl
  · exact annotates_refl r

theorem annotates_authRecordSuccess {now : ℕ} :
    Annotates r (daemonLimitsAuthRecordSuccess r peer now) := by
  have hl := annotates_hostLookup r peer now
  unfold daemonLimitsAuthRecordSuccess
  split
  · rename_i h
    rwa [h] at hl
  · rename_i h
    rw [h] at hl
    exact annotates_trans hl ⟨_,_,_,rfl⟩

end

theorem change_authRecordFailure (ht : Table d.registry) {peer : Option Peer} {seen now : ℕ} :
    Change cap d (step cap d (.authRecordFailure peer seen now)) := by
  have hs := hostIntern_sourced ht peer seen
  unfold step
  simp only [daemonLimitsAuthRecordFailure]
  split_ifs
  · split
    · rename_i h
      rw [h] at hs
      exact .consult peer seen none _ _ hs.1 hs.2 (annotates_refl _)
    · rename_i b r₁ h
      rw [h] at hs
      split_ifs
      · exact .consult peer seen (some b) r₁ _ hs.1 hs.2 ⟨_,_,_,rfl⟩
      · exact .consult peer seen (some b) r₁ _ hs.1 hs.2 ⟨_,_,_,rfl⟩
  · exact change_same ht

theorem step_change (ht : Table d.registry) (op : Operation) : Change cap d (step cap d op) := by
  have hstay : ∀ r', Annotates d.registry r' → Change cap d { d with registry := r' } :=
    fun r' h => .consult none 0 none d.registry r' (.inl ⟨rfl,rfl⟩) ht h
  cases op with
  | claimSlot => exact .vacate _ vacates_claim
  | setSlotPid slot pid => exact .vacate _ vacates_setSlotPid
  | register slot module peer now => exact change_register ht
  | reclaimSlot slot => exact .vacate _ vacates_reclaimSlot
  | reclaimPid pid => exact .vacate _ vacates_reclaimPid
  | recompute => exact .recompute
  | authLocked peer seen now => exact hstay _ (annotates_authLocked _ _)
  | authRecordFailure peer seen now => exact change_authRecordFailure ht
  | authRecordSuccess peer now => exact hstay _ (annotates_authRecordSuccess _ _)

theorem recount_table {r : Registry} {i : ℕ} :
    ∃ modules hosts, r.recount i = { r with
      moduleActive := modules
      hostActive := hosts } := by
  unfold Registry.recount
  split_ifs
  · exact ⟨_,_,rfl⟩
  · exact ⟨_,_,rfl⟩

theorem recounts_table {slots : List ℕ} (r : Registry) :
    ∃ modules hosts, slots.foldl Registry.recount r = { r with
      moduleActive := modules
      hostActive := hosts } := by
  induction slots generalizing r with
  | nil => exact ⟨_,_,rfl⟩
  | cons i slots ih =>
    obtain ⟨m,h,hr⟩ := recount_table
    obtain ⟨m',h',hr'⟩ := ih (r.recount i)
    rw [List.foldl_cons, hr', hr]
    exact ⟨m',h',rfl⟩

theorem recompute_counters (r : Registry) :
    ∃ modules hosts, daemonLimitsRecompute r = { r with
      moduleActive := modules
      hostActive := hosts } := by
  obtain ⟨m,h,hr⟩ := recounts_table
    { r with
      moduleActive := fun m => if m < r.moduleCount then 0 else r.moduleActive m
      hostActive := fun h => if h < r.hostSlots then 0 else r.hostActive h }
  exact ⟨m,h,hr⟩

theorem change_fixed {d' : Daemon} (h : Change cap d d') :
    d'.registry.maxSlots = d.registry.maxSlots ∧
      d'.registry.moduleCount = d.registry.moduleCount ∧
      d'.registry.hostSlots = d.registry.hostSlots ∧
      d'.registry.perHostCap = d.registry.perHostCap ∧
      d'.registry.lockout = d.registry.lockout := by
  cases h with
  | vacate r' h =>
    obtain ⟨_,_,_,_,hr⟩ := h.rest
    rw [hr]
    exact ⟨rfl,rfl,rfl,rfl,rfl⟩
  | recompute =>
    obtain ⟨_,_,hr⟩ := recompute_counters d.registry
    rw [hr]
    exact ⟨rfl,rfl,rfl,rfl,rfl⟩
  | consult peer now host r₁ r' hs ht₁ ha =>
    obtain ⟨_,_,_,hr⟩ := ha
    obtain ⟨_,_,_,_,_,_,hr₁⟩ := sourced_rest hs
    rw [hr, hr₁]
    exact ⟨rfl,rfl,rfl,rfl,rfl⟩
  | enter peer now host r₁ i m hs ht₁ hi hm hstate hmodule hhost =>
    obtain ⟨_,_,_,_,_,_,hr₁⟩ := sourced_rest hs
    rw [hr₁]
    exact ⟨rfl,rfl,rfl,rfl,rfl⟩

theorem table_change {d' : Daemon} (ht : Table d.registry) (h : Change cap d d') :
    Table d'.registry := by
  cases h with
  | vacate r' h =>
    obtain ⟨_,_,_,_,hr⟩ := h.rest
    rw [hr]
    exact ⟨ht.pow,ht.chained⟩
  | recompute =>
    obtain ⟨_,_,hr⟩ := recompute_counters d.registry
    rw [hr]
    exact ⟨ht.pow,ht.chained⟩
  | consult peer now host r₁ r' hs ht₁ ha =>
    obtain ⟨_,_,_,hr⟩ := ha
    rw [hr]
    exact ⟨ht₁.pow,ht₁.chained⟩
  | enter peer now host r₁ i m hs ht₁ hi hm hstate hmodule hhost => exact ⟨ht₁.pow,ht₁.chained⟩

theorem table_run (ht : Table d.registry) (ops : List Operation) :
    Table (run cap d ops).registry := by
  induction ops generalizing d with
  | nil => exact ht
  | cons op ops ih => exact ih (table_change ht (step_change ht op))

end Changes

end FastSync.DaemonRuns
