import FastSync.ProbeOrder
import FastSync.LinearProbing
import Mathlib.Data.Nat.Notation

/-!
# The daemon's connection registry

One shared table serves every forked child: a slot for each connection, a counter
for each module, and a bucket for each source address with its connections, its
authentication failures and the end of its lockout. The counters are derived from
the slots; giving a slot back leaves them as they are until they are recomputed.
Every operation runs here without interruption, so its exchanges succeed.
-/

set_option autoImplicit false

namespace FastSync.DaemonLimits
open ProbeOrder

def minSlots : Int32 := 16
def maxSlotCount : Int32 := 65536
def maxHostSlots : ℕ := 65536
def maxModules : Int32 := 256
def hostEvictIdleSec : ℕ := 300
def hostFullWarnSec : ℕ := 60

inductive Family where
  | inet
  | inet6
deriving DecidableEq, Repr

def Family.code : Family → UInt64
  | .inet => 2
  | .inet6 => 10

def Family.size : Family → ℕ
  | .inet => 4
  | .inet6 => 16

/-- A parsed peer address: its family and as many bytes as that family has. -/
structure Peer where
  family : Family
  bytes : List UInt8
  sized : bytes.length = family.size
deriving DecidableEq, Repr

def hostHash (peer : Peer) : UInt64 :=
  let hash := peer.bytes.foldl (fun hash byte => (hash ^^^ byte.toUInt64)*1099511628211)
    (14695981039346656037 ^^^ peer.family.code)
  if hash = 0 then 0x9e3779b97f4a7c15 else hash

inductive SlotState where
  | free
  | claimed
  | registered
deriving DecidableEq, Repr

structure Registry where
  maxSlots : ℕ
  moduleCount : ℕ
  hostSlots : ℕ
  perHostCap : Int32
  lockoutThreshold : Int32
  lockoutDurationSec : Int32
  hostFullWarn : ℕ
  slotState : ℕ → SlotState
  slotPid : ℕ → Int32
  slotModule : ℕ → Option ℕ
  slotHost : ℕ → Option ℕ
  moduleActive : ℕ → Int32
  hostKey : ℕ → UInt64
  hostActive : ℕ → Int32
  hostFail : ℕ → Int32
  hostUntil : ℕ → ℕ
  hostLastUse : ℕ → ℕ

def nextPow2Loop (n : ℕ) : ℕ → ℕ → ℕ
  | 0, p => p
  | fuel+1, p => if p < n then nextPow2Loop n fuel (2*p) else p

/-- The loop doubles `p` as long as it is below `n`, at most `n` times. -/
def nextPow2 (n : ℕ) : ℕ := nextPow2Loop n n 1

def lockoutSet (lockoutThreshold lockoutDurationSec : Int32) : Bool :=
  decide (0 < lockoutThreshold) && decide (0 < lockoutDurationSec)

def clamp (low high value : Int32) : Int32 :=
  if value < low then low else if high < value then high else value

def nonNegative (value : Int32) : Int32 := if value < 0 then 0 else value

def daemonLimitsCreate (maxSlots moduleCount perHostCap lockoutThreshold
    lockoutDurationSec : Int32) : Registry :=
  let slots := (clamp minSlots maxSlotCount maxSlots).toInt.toNat
  let cap := nonNegative perHostCap
  let threshold := nonNegative lockoutThreshold
  let duration := nonNegative lockoutDurationSec
  { maxSlots := slots
    moduleCount := (clamp 1 maxModules moduleCount).toInt.toNat
    hostSlots :=
      if 0 < cap ∨ lockoutSet threshold duration then
        nextPow2 (if 4*slots < 64 then 64
          else if 4*slots > maxHostSlots then maxHostSlots else 4*slots)
      else 1
    perHostCap := cap
    lockoutThreshold := threshold
    lockoutDurationSec := duration
    hostFullWarn := 0
    slotState := fun _ => .free
    slotPid := fun _ => 0
    slotModule := fun _ => none
    slotHost := fun _ => none
    moduleActive := fun _ => 0
    hostKey := fun _ => 0
    hostActive := fun _ => 0
    hostFail := fun _ => 0
    hostUntil := fun _ => 0
    hostLastUse := fun _ => 0 }

def Registry.lockout (r : Registry) : Bool := lockoutSet r.lockoutThreshold r.lockoutDurationSec

def Registry.tracksHosts (r : Registry) : Bool := decide (0 < r.perHostCap) || r.lockout

def probeOrder (hostSlots : ℕ) (key : UInt64) : List ℕ :=
  (List.range hostSlots).map fun i => ((key.toNat &&& (hostSlots-1))+i) &&& (hostSlots-1)

def Registry.touch (r : Registry) (idx now : ℕ) : Registry :=
  { r with hostLastUse := Function.update r.hostLastUse idx now }

def hostLookup (r : Registry) (peer : Option Peer) (now : ℕ) : Option ℕ × Registry :=
  match peer with
  | none => (none,r)
  | some p =>
    match lookup r.hostKey 0 (hostHash p) (probeOrder r.hostSlots (hostHash p)) with
    | none => (none,r)
    | some idx => (some idx,r.touch idx now)

def hostBucketReclaimable (r : Registry) (now idx : ℕ) : Bool :=
  if r.hostActive idx ≠ 0 then false
  else if r.hostUntil idx ≠ 0 then decide (r.hostUntil idx ≤ now)
  else decide (r.hostLastUse idx ≠ 0) && decide (r.hostLastUse idx+hostEvictIdleSec ≤ now)

def hostWarnTableFull (r : Registry) (now : ℕ) : Registry :=
  if r.hostFullWarn ≠ 0 ∧ now < r.hostFullWarn+hostFullWarnSec then r
  else { r with hostFullWarn := now }

/-- The bucket changes hands: the counters of the evicted source are cleared. -/
def Registry.evict (r : Registry) (idx : ℕ) (key : UInt64) (now : ℕ) : Registry :=
  { r with
    hostLastUse := Function.update r.hostLastUse idx now
    hostKey := Function.update r.hostKey idx key
    hostActive := Function.update r.hostActive idx 0
    hostFail := Function.update r.hostFail idx 0
    hostUntil := Function.update r.hostUntil idx 0 }

def hostIntern (r : Registry) (peer : Option Peer) (now : ℕ) : Option ℕ × Registry :=
  match peer with
  | none => (none,r)
  | some p =>
    match scan r.hostKey 0 (hostHash p) (hostBucketReclaimable r now)
        (probeOrder r.hostSlots (hostHash p)) none with
    | .own idx => (some idx,r.touch idx now)
    | .free idx =>
      (some idx,
        { r.touch idx now with hostKey := Function.update r.hostKey idx (hostHash p) })
    | .full none => (none,hostWarnTableFull r now)
    | .full (some evict) =>
      let r' := r.evict evict (hostHash p) now
      -- The table is searched again for the first bucket of the key.
      match lookup r'.hostKey 0 (hostHash p) (probeOrder r'.hostSlots (hostHash p)) with
      | none => (some evict,r')
      | some candidate =>
        if candidate ≠ evict then
          (some candidate,{ r' with hostActive := Function.update r'.hostActive evict 0 })
        else (some evict,r')

def firstFree (r : Registry) : Option ℕ :=
  (List.range r.maxSlots).find? fun i => decide (r.slotState i = .free)

def daemonLimitsClaimSlot (r : Registry) : Option ℕ × Registry :=
  match firstFree r with
  | none => (none,r)
  | some i =>
    (some i,
      { r with
        slotState := Function.update r.slotState i .claimed
        slotPid := Function.update r.slotPid i 0
        slotModule := Function.update r.slotModule i none
        slotHost := Function.update r.slotHost i none })

/-- An index a caller passes, if the array has it. -/
def indexBelow (n : ℕ) (index : Int32) : Option ℕ :=
  if index < 0 ∨ (n : ℤ) ≤ index.toInt then none else some index.toInt.toNat

def daemonLimitsSetSlotPid (r : Registry) (slot : Int32) (pid : Int64) : Registry :=
  match indexBelow r.maxSlots slot with
  | none => r
  | some i => { r with slotPid := Function.update r.slotPid i pid.toInt32 }

def Registry.freeSlot (r : Registry) (i : ℕ) : Registry :=
  { r with
    slotState := Function.update r.slotState i .free
    slotPid := Function.update r.slotPid i 0 }

def daemonLimitsReclaimSlot (r : Registry) (slot : Int32) : Registry :=
  match indexBelow r.maxSlots slot with
  | none => r
  | some i => r.freeSlot i

def slotOfPid (r : Registry) (pid : Int64) : Option ℕ :=
  (List.range r.maxSlots).find? fun i =>
    decide (r.slotState i ≠ .free) && decide (r.slotPid i = pid.toInt32)

def daemonLimitsReclaimPid (r : Registry) (pid : Int64) : Registry :=
  if pid ≤ 0 then r
  else match slotOfPid r pid with
    | none => r
    | some i => r.freeSlot i

def addOne (counters : ℕ → Int32) (bound : ℕ) : Option ℕ → ℕ → Int32
  | none => counters
  | some i => if i < bound then Function.update counters i (counters i+1) else counters

def Registry.recount (r : Registry) (i : ℕ) : Registry :=
  if r.slotState i ≠ .registered then r
  else
    { r with
      moduleActive := addOne r.moduleActive r.moduleCount (r.slotModule i)
      hostActive := addOne r.hostActive r.hostSlots (r.slotHost i) }

def daemonLimitsRecompute (r : Registry) : Registry :=
  (List.range r.maxSlots).foldl Registry.recount
    { r with
      moduleActive := fun m => if m < r.moduleCount then 0 else r.moduleActive m
      hostActive := fun h => if h < r.hostSlots then 0 else r.hostActive h }

inductive LimitResult where
  | ok
  | moduleFull
  | hostFull
  | unavailable
deriving DecidableEq, Repr

/-- The tail of a registration, once the source has its bucket or none. -/
def registerIn (r : Registry) (slot module : ℕ) (host : Option ℕ) (moduleCap : Int32) :
    LimitResult × Registry :=
  let moduleCount := r.moduleActive module+1
  let counted := { r with moduleActive := Function.update r.moduleActive module moduleCount }
  if 0 < moduleCap ∧ moduleCap < moduleCount then
    (.moduleFull,
      { counted with moduleActive := Function.update counted.moduleActive module (moduleCount-1) })
  else
    let taken : Registry → LimitResult × Registry := fun r =>
      (.ok,
        { r with
          slotModule := Function.update r.slotModule slot (some module)
          slotHost := Function.update r.slotHost slot host
          slotState := Function.update r.slotState slot .registered })
    match host with
    | none => taken counted
    | some h =>
      let hostCount := r.hostActive h+1
      if 0 < r.perHostCap ∧ r.perHostCap < hostCount then
        (.hostFull,
          { counted with
            hostActive := Function.update counted.hostActive h (hostCount-1)
            moduleActive := Function.update counted.moduleActive module (moduleCount-1) })
      else taken { counted with hostActive := Function.update counted.hostActive h hostCount }

def daemonLimitsRegister (r : Registry) (slot module : Int32) (peer : Option Peer)
    (moduleCap : Int32) (now : ℕ) : LimitResult × Registry :=
  match indexBelow r.maxSlots slot, indexBelow r.moduleCount module with
  | some i, some m =>
    if r.slotState i ≠ .claimed then (.unavailable,r)
    else if r.tracksHosts then
      registerIn (hostIntern r peer now).2 i m (hostIntern r peer now).1 moduleCap
    else registerIn r i m none moduleCap
  | _, _ => (.unavailable,r)

/-- The answer carries the seconds that remain. `seen` is the clock when the
bucket is looked up and `now` when its deadline is compared. -/
def daemonLimitsAuthLocked (r : Registry) (peer : Option Peer) (seen now : ℕ) :
    Option ℕ × Registry :=
  if r.lockout then
    match hostLookup r peer seen with
    | (none,r') => (none,r')
    | (some bucket,r') =>
      if now < r'.hostUntil bucket then (some (r'.hostUntil bucket-now),r')
      else if r'.hostUntil bucket ≠ 0 then
        (none,
          { r' with
            hostFail := Function.update r'.hostFail bucket 0
            hostUntil := Function.update r'.hostUntil bucket 0 })
      else (none,r')
  else (none,r)

def daemonLimitsAuthRecordFailure (r : Registry) (peer : Option Peer) (seen now : ℕ) :
    Registry :=
  if r.lockout then
    match hostIntern r peer seen with
    | (none,r') => r'
    | (some bucket,r') =>
      let failures := r'.hostFail bucket+1
      let failed := { r' with hostFail := Function.update r'.hostFail bucket failures }
      if r'.lockoutThreshold ≤ failures then
        { failed with
          hostUntil := Function.update failed.hostUntil bucket
            (now+r'.lockoutDurationSec.toInt.toNat) }
      else failed
  else r

def daemonLimitsAuthRecordSuccess (r : Registry) (peer : Option Peer) (now : ℕ) : Registry :=
  match hostLookup r peer now with
  | (none,r') => r'
  | (some bucket,r') =>
    { r' with
      hostFail := Function.update r'.hostFail bucket 0
      hostUntil := Function.update r'.hostUntil bucket 0 }

end FastSync.DaemonLimits
