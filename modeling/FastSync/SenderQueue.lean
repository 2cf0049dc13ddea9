import FastSync.ChunkCodec
import Mathlib.Algebra.BigOperators.Group.List.Basic

/-!
# The byte budget of the sender's queue

The loader reads the files of a chunk, charges the bytes it holds and waits until
the queue admits it. The sender takes a chunk, sends it, counts its bytes anew,
destroys it and returns that many to the budget. A file that the loader left to be
streamed is read by the sender when a digest or the tail of an append is needed, so
the second count can be larger than the first.
-/

set_option autoImplicit false

namespace FastSync.SenderQueue
open ChunkCodec (maxChunkSize maxConnectionMemory)

def streamThreshold : ℕ := 64*1024*1024
def senderQueueMaxBytes : ℕ := maxConnectionMemory-2*maxChunkSize
def sizeMax : ℕ := 2^64-1

inductive Kind where
  | directory
  | hardlinkSibling
  | symlink
  | special
  | regular
deriving DecidableEq, Repr

/-- A scanned file; `loaded` says that its contents are in memory. -/
structure File where
  kind : Kind
  size : ℕ
  loaded : Bool
deriving DecidableEq, Repr

abbrev Chunk := List File

structure Config where
  useSendfile : Bool
  useCompression : Bool
  useIncremental : Bool
  useChunkSerialization : Bool
  checksum : Bool
  verifyBasis : Bool
  appendVerify : Bool
  useDelta : Bool
  wholeFile : Bool
deriving DecidableEq, Repr

def chunkBytesFrom (total : ℕ) : Chunk → ℕ
  | [] => total
  | f::rest =>
    if f.loaded = false then chunkBytesFrom total rest
    else if f.size > sizeMax-total then sizeMax
    else chunkBytesFrom (total+f.size) rest

def senderChunkBytes (chunk : Chunk) : ℕ := chunkBytesFrom 0 chunk

/-- `none` when the file could not be read whole. -/
def fileLoadData (readable : Bool) (f : File) : Option File :=
  if f.loaded = false ∧ f.size = 0 then some f
  else if readable then some { f with loaded := true }
  else none

/-! ## Loading -/

def loadFile (config : Config) (readable : Bool) (f : File) : Option File :=
  if f.size > streamThreshold ∧ config.useCompression = false then some f
  else fileLoadData readable f

def loadEach (config : Config) : List Bool → Chunk → Option Chunk
  | _, [] => some []
  | [], _::_ => none
  | readable::more, f::rest =>
    match loadFile config readable f with
    | none => none
    | some f' =>
      match loadEach config more rest with
      | none => none
      | some rest' => some (f'::rest')

def loadChunk (config : Config) (readable : List Bool) (chunk : Chunk) : Option Chunk :=
  if config.useSendfile then some chunk else loadEach config readable chunk

/-! ## Sending -/

inductive Verdict where
  | error
  | upToDate
  | next
  | signature
  | append (offset : ℕ)
  | dryRunTransfer
deriving DecidableEq, Repr

inductive AppendReply where
  | appendOk
  | next
  | other
deriving DecidableEq, Repr

inductive DeltaResult where
  | sent
  | refused
  | failed
deriving DecidableEq, Repr

/-- What happens outside while one file is sent: whether the frames go through, what
the file system says of the source, and what the receiver answers. -/
structure Exchange where
  delivered : Bool
  sourceIsRegular : Bool
  digestRead : Bool
  checkLoad : Bool
  appendLoad : Bool
  verdict : Verdict
  appendReply : AppendReply
  delta : DeltaResult
deriving DecidableEq, Repr

def fileChecksum (x : Exchange) (f : File) : Option File :=
  if f.size = 0 then some f
  else if f.loaded = false ∧ f.size > streamThreshold ∧ x.digestRead then some f
  else if f.loaded = false then fileLoadData x.checkLoad f
  else some f

def incrementalCheck (config : Config) (x : Exchange) (f : File) : Option File :=
  if config.checksum ∨ config.verifyBasis then fileChecksum x f else some f

def deliver (x : Exchange) (f : File) : Option File := if x.delivered then some f else none

def fileSendSingleCalls (x : Exchange) (f : File) : Option File :=
  if f.size ≠ 0 ∧ f.loaded = false then none else deliver x f

/-- The file is read from its path while it is sent. -/
def fileSendSendfile (x : Exchange) (f : File) : Option File := deliver x f

def sendTail (config : Config) (x : Exchange) (f : File) (offset : ℕ) : Option File :=
  if offset ≥ f.size then none
  else if config.appendVerify then
    match x.appendReply with
    | .appendOk => deliver x f
    | .next => fileSendSingleCalls x f
    | .other => none
  else deliver x f

def sendAppend (config : Config) (x : Exchange) (f : File) (offset : ℕ) : Option File :=
  match (if f.loaded = false then fileLoadData x.appendLoad f else some f) with
  | none => none
  | some f' => sendTail config x f' offset

def sendFull (useSendfile : Bool) (x : Exchange) (f : File) : Option File :=
  if useSendfile then fileSendSendfile x f else fileSendSingleCalls x f

def sendVerdict (config : Config) (useSendfile : Bool) (x : Exchange) (f : File) : Option File :=
  match x.verdict with
  | .error => none
  | .upToDate => some f
  | .next => sendFull useSendfile x f
  | .signature =>
    if useSendfile = false ∧ config.useDelta ∧ config.wholeFile = false then
      match x.delta with
      | .sent => some f
      | .refused => fileSendSingleCalls x f
      | .failed => none
    else sendFull useSendfile x f
  | .append offset => sendAppend config x f offset
  | .dryRunTransfer => none

def sendSingleFile (config : Config) (useSendfile : Bool) (x : Exchange) (f : File) :
    Option File :=
  if config.useIncremental = false then sendFull useSendfile x f
  else
    match incrementalCheck config x f with
    | none => none
    | some f' => sendVerdict config useSendfile x f'

def sendEntry (config : Config) (x : Exchange) (f : File) : Option File :=
  match f.kind with
  | .regular =>
    sendSingleFile config
      (config.useCompression = false && (config.useSendfile || (f.loaded = false && f.size ≠ 0)) &&
        x.sourceIsRegular) x f
  | _ => deliver x f

def sendEach (config : Config) : List Exchange → Chunk → Option Chunk
  | _, [] => some []
  | [], _::_ => none
  | x::more, f::rest =>
    match sendEntry config x f with
    | none => none
    | some f' =>
      match sendEach config more rest with
      | none => none
      | some rest' => some (f'::rest')

/-- The chunk as it is once it was sent; `none` when sending failed. -/
def sendChunk (config : Config) (xs : List Exchange) (chunk : Chunk) : Option Chunk :=
  if config.useChunkSerialization then
    if xs.all Exchange.delivered then some chunk else none
  else sendEach config xs chunk

/-! ## The pipeline -/

inductive Loader where
  | ready
  | loaded (chunk : Chunk)
  | done
  | failed
deriving DecidableEq, Repr

/-- The sender beside the bytes its chunk was charged with. -/
inductive Sender where
  | waiting
  | holding (chunk : Chunk) (charge : ℕ)
  | sent (chunk : Chunk) (charge : ℕ)
  | destroyed (released charge : ℕ)
  | failed (charge : ℕ)
  | done
deriving DecidableEq, Repr

structure Pipeline where
  incoming : List (List (Kind × ℕ))
  loader : Loader
  queue : List (Chunk × ℕ)
  sender : Sender
  queuedBytes : ℕ
  cancelled : Bool
deriving DecidableEq, Repr

def blockedByBudget (used bytes : ℕ) : Bool :=
  if used ≥ senderQueueMaxBytes then true
  else if bytes > senderQueueMaxBytes-used then decide (used ≠ 0)
  else false

def scanned (entries : List (Kind × ℕ)) : Chunk := entries.map fun e => ⟨e.1,e.2,false⟩

def load (config : Config) (s : Pipeline) (readable : List Bool) : Pipeline :=
  match s.loader, s.incoming with
  | .ready, [] => { s with loader := .done }
  | .ready, entries::rest =>
    match loadChunk config readable (scanned entries) with
    | none =>
      { s with
        incoming := rest
        loader := .failed
        cancelled := true }
    | some chunk =>
      { s with
        incoming := rest
        loader := .loaded chunk }
  | _, _ => s

/-- One turn in the mutex: the chunk is admitted, or the loader waits on. -/
def enqueueChunk (capacity : ℕ) (s : Pipeline) : Pipeline :=
  match s.loader with
  | .loaded chunk =>
    if s.cancelled then { s with loader := .failed }
    else if s.queue.length = capacity ∨ blockedByBudget s.queuedBytes (senderChunkBytes chunk) then s
    else
      { s with
        loader := .ready
        queue := s.queue++[(chunk,senderChunkBytes chunk)]
        queuedBytes := (s.queuedBytes+senderChunkBytes chunk)%2^64 }
  | _ => s

def dequeue (s : Pipeline) : Pipeline :=
  match s.sender, s.queue with
  | .waiting, [] =>
    if s.loader = .done ∨ s.cancelled then { s with sender := .done } else s
  | .waiting, next::rest =>
    { s with
      queue := rest
      sender := .holding next.1 next.2 }
  | _, _ => s

def send (config : Config) (s : Pipeline) (xs : List Exchange) : Pipeline :=
  match s.sender with
  | .holding chunk charge =>
    match sendChunk config xs chunk with
    | none =>
      { s with
        sender := .failed charge
        cancelled := true }
    | some chunk' => { s with sender := .sent chunk' charge }
  | _ => s

def destroy (s : Pipeline) : Pipeline :=
  match s.sender with
  | .sent chunk charge => { s with sender := .destroyed (senderChunkBytes chunk) charge }
  | _ => s

def releaseBytes (queued released : ℕ) : ℕ :=
  if released = 0 then queued else if released ≥ queued then 0 else queued-released

def noteBytesReleased (s : Pipeline) : Pipeline :=
  match s.sender with
  | .destroyed released _ =>
    { s with
      sender := .waiting
      queuedBytes := releaseBytes s.queuedBytes released }
  | _ => s

/-- The sender stops between two chunks. -/
def stop (s : Pipeline) : Pipeline :=
  match s.sender with
  | .waiting =>
    { s with
      sender := .done
      cancelled := true }
  | _ => s

inductive Action where
  | load (readable : List Bool)
  | enqueue
  | dequeue
  | send (xs : List Exchange)
  | destroy
  | release
  | stop
deriving DecidableEq, Repr

def step (config : Config) (capacity : ℕ) (s : Pipeline) : Action → Pipeline
  | .load readable => load config s readable
  | .enqueue => enqueueChunk capacity s
  | .dequeue => dequeue s
  | .send xs => send config s xs
  | .destroy => destroy s
  | .release => noteBytesReleased s
  | .stop => stop s

def run (config : Config) (capacity : ℕ) (s : Pipeline) (schedule : List Action) : Pipeline :=
  schedule.foldl (step config capacity) s

def start (chunks : List (List (Kind × ℕ))) : Pipeline := ⟨chunks,.ready,[],.waiting,0,false⟩

def senderCharge : Sender → ℕ
  | .holding _ charge => charge
  | .sent _ charge => charge
  | .destroyed _ charge => charge
  | .failed charge => charge
  | _ => 0

def queueCharge (s : Pipeline) : ℕ := (s.queue.map Prod.snd).sum

/-- The bytes charged for chunks that are enqueued and not yet released. -/
def outstanding (s : Pipeline) : ℕ := senderCharge s.sender+queueCharge s

def Exact (s : Pipeline) : Prop := s.queuedBytes = outstanding s

/-- More is about to be returned than was charged, while other chunks are charged. -/
def OverReleases (s : Pipeline) : Prop :=
  ∃ released charge, s.sender = .destroyed released charge ∧ charge < released ∧ queueCharge s ≠ 0

/-! ## What sending does to a chunk -/

def Grows (f f' : File) : Prop := f'.size = f.size ∧ (f.loaded = true → f'.loaded = true)

theorem grows_refl (f : File) : Grows f f := ⟨rfl,fun h => h⟩

variable {f : File}

theorem grows_trans {g h : File} (hfg : Grows f g) (hgh : Grows g h) : Grows f h :=
  ⟨hgh.1.trans hfg.1,fun hf => hgh.2 (hfg.2 hf)⟩

variable {f' : File}

theorem grows_fileLoadData {readable : Bool} (h : fileLoadData readable f = some f') :
    Grows f f' := by
  unfold fileLoadData at h
  split_ifs at h
  · cases h
    exact grows_refl f
  · cases h
    exact ⟨rfl,fun _ => rfl⟩

variable {x : Exchange}

theorem deliver_eq (h : deliver x f = some f') : f' = f := by
  unfold deliver at h
  split_ifs at h
  cases h
  rfl

theorem fileSendSingleCalls_eq (h : fileSendSingleCalls x f = some f') : f' = f := by
  unfold fileSendSingleCalls at h
  split_ifs at h
  exact deliver_eq h

theorem sendFull_eq {useSendfile : Bool} (h : sendFull useSendfile x f = some f') : f' = f := by
  unfold sendFull at h
  split_ifs at h
  · exact deliver_eq h
  · exact fileSendSingleCalls_eq h

variable {config : Config}

theorem sendTail_eq {offset : ℕ} (h : sendTail config x f offset = some f') : f' = f := by
  unfold sendTail at h
  split_ifs at h
  · split at h
    · exact deliver_eq h
    · exact fileSendSingleCalls_eq h
    · cases h
  · exact deliver_eq h

theorem grows_fileChecksum (h : fileChecksum x f = some f') : Grows f f' := by
  unfold fileChecksum at h
  split_ifs at h
  · cases h
    exact grows_refl f
  · cases h
    exact grows_refl f
  · exact grows_fileLoadData h
  · cases h
    exact grows_refl f

theorem grows_sendAppend {offset : ℕ}
    (h : sendAppend config x f offset = some f') : Grows f f' := by
  unfold sendAppend at h
  split at h
  · cases h
  · rename_i g hg
    rw [sendTail_eq h]
    split_ifs at hg
    · exact grows_fileLoadData hg
    · cases hg
      exact grows_refl f

theorem grows_sendVerdict {useSendfile : Bool}
    (h : sendVerdict config useSendfile x f = some f') : Grows f f' := by
  unfold sendVerdict at h
  split at h
  · cases h
  · cases h
    exact grows_refl f
  · rw [sendFull_eq h]
    exact grows_refl f
  · split_ifs at h
    · split at h
      · cases h
        exact grows_refl f
      · rw [fileSendSingleCalls_eq h]
        exact grows_refl f
      · cases h
    · rw [sendFull_eq h]
      exact grows_refl f
  · exact grows_sendAppend h
  · cases h

theorem grows_sendEntry (h : sendEntry config x f = some f') : Grows f f' := by
  unfold sendEntry at h
  split at h
  · unfold sendSingleFile at h
    split_ifs at h
    · rw [sendFull_eq h]
      exact grows_refl f
    · split at h
      · cases h
      · rename_i g hg
        have hcheck : Grows f g := by
          unfold incrementalCheck at hg
          split_ifs at hg
          · exact grows_fileChecksum hg
          · cases hg
            exact grows_refl f
        exact grows_trans hcheck (grows_sendVerdict h)
  · rw [deliver_eq h]
    exact grows_refl f

variable {chunk chunk' : Chunk}

theorem grows_sendEach {xs : List Exchange}
    (h : sendEach config xs chunk = some chunk') : List.Forall₂ Grows chunk chunk' := by
  induction chunk generalizing xs chunk' with
  | nil =>
    rw [sendEach] at h
    cases h
    exact .nil
  | cons f rest ih =>
    cases xs with
    | nil => cases h
    | cons x more =>
      rw [sendEach] at h
      cases hf : sendEntry config x f with
      | none => simp [hf] at h
      | some f' =>
        cases hrest : sendEach config more rest with
        | none => simp [hf,hrest] at h
        | some rest' =>
          simp only [hf,hrest,Option.some.injEq] at h
          subst h
          exact .cons (grows_sendEntry hf) (ih hrest)

theorem grows_sendChunk {xs : List Exchange}
    (h : sendChunk config xs chunk = some chunk') : List.Forall₂ Grows chunk chunk' := by
  unfold sendChunk at h
  split_ifs at h
  · cases h
    exact List.forall₂_same.mpr (fun f _ => grows_refl f)
  · exact grows_sendEach h

theorem chunkBytesFrom_le {chunk : Chunk} {total : ℕ} (ht : total ≤ sizeMax) :
    total ≤ chunkBytesFrom total chunk ∧ chunkBytesFrom total chunk ≤ sizeMax := by
  induction chunk generalizing total with
  | nil => exact ⟨Nat.le_refl _,ht⟩
  | cons f rest ih =>
    rw [chunkBytesFrom]
    split_ifs
    · exact ih ht
    · exact ⟨ht,Nat.le_refl _⟩
    · have hrest := @ih (total+f.size) (by omega)
      exact ⟨by omega,hrest.2⟩

theorem chunkBytesFrom_grows (h : List.Forall₂ Grows chunk chunk')
    {total total' : ℕ} (hle : total ≤ total') (ht : total' ≤ sizeMax) :
    chunkBytesFrom total chunk ≤ chunkBytesFrom total' chunk' := by
  induction h generalizing total total' with
  | nil => exact hle
  | @cons f f' rest rest' hf hrest ih =>
    rw [chunkBytesFrom,chunkBytesFrom,hf.1]
    by_cases hl : f.loaded = false
    · rw [if_pos hl]
      split_ifs
      · exact ih hle ht
      · exact (chunkBytesFrom_le (by omega)).2
      · exact ih (by omega) (by omega)
    · have hl' : ¬ f'.loaded = false := by
        rw [hf.2 (Bool.not_eq_false _ ▸ hl)]
        decide
      split_ifs with hbig hbig' hbig'
      · exact Nat.le_refl _
      · omega
      · exact (chunkBytesFrom_le (by omega)).2
      · exact ih (by omega) (by omega)

theorem senderChunkBytes_grows (h : List.Forall₂ Grows chunk chunk') :
    senderChunkBytes chunk ≤ senderChunkBytes chunk' :=
  chunkBytesFrom_grows h (Nat.le_refl 0) (Nat.zero_le _)

theorem senderChunkBytes_le {chunk : Chunk} : senderChunkBytes chunk ≤ sizeMax :=
  (chunkBytesFrom_le (Nat.zero_le _)).2

/-! ## What a step does to the budget -/

/-- The sender will return at least what its chunk was charged with. -/
def Covered : Sender → Prop
  | .holding chunk charge => charge ≤ senderChunkBytes chunk
  | .sent chunk charge => charge ≤ senderChunkBytes chunk
  | .destroyed released charge => charge ≤ released
  | _ => True

inductive Change (action : Action) (s t : Pipeline) : Prop
  | advances (hq : t.queue = s.queue) (hb : t.queuedBytes = s.queuedBytes)
      (hs : senderCharge t.sender = senderCharge s.sender)
      (hc : Covered s.sender → Covered t.sender)
  | admits (chunk : Chunk) (hq : t.queue = s.queue++[(chunk,senderChunkBytes chunk)])
      (hb : t.queuedBytes = s.queuedBytes+senderChunkBytes chunk) (hs : t.sender = s.sender)
      (hfits : t.queuedBytes ≤ senderQueueMaxBytes ∨ s.queuedBytes = 0)
  | takes (next : Chunk × ℕ) (hq : s.queue = next::t.queue) (hb : t.queuedBytes = s.queuedBytes)
      (hs : s.sender = .waiting) (ht : t.sender = .holding next.1 next.2)
  | releases (released charge : ℕ) (ha : action = .release) (hq : t.queue = s.queue)
      (hb : t.queuedBytes = releaseBytes s.queuedBytes released)
      (hs : s.sender = .destroyed released charge) (ht : t.sender = .waiting)

variable {action : Action} {s : Pipeline}

theorem change_same {t : Pipeline} (hq : t.queue = s.queue)
    (hb : t.queuedBytes = s.queuedBytes) (hs : t.sender = s.sender) : Change action s t :=
  .advances hq hb (congrArg senderCharge hs) (fun h => hs.symm ▸ h)

theorem change_load {config : Config} {s : Pipeline} {readable : List Bool} :
    Change (.load readable) s (load config s readable) := by
  unfold load
  split
  · exact change_same rfl rfl rfl
  · split
    · exact change_same rfl rfl rfl
    · exact change_same rfl rfl rfl
  · exact change_same rfl rfl rfl

/-- An admitted chunk fits beside what is queued, or is alone; the sum never wraps. -/
theorem blockedByBudget_false {used bytes : ℕ} (h : ¬ blockedByBudget used bytes = true)
    (hb : bytes ≤ sizeMax) :
    (used+bytes)%2^64 = used+bytes ∧ (used+bytes ≤ senderQueueMaxBytes ∨ used = 0) := by
  have hmax : senderQueueMaxBytes < 2^64 := by decide
  have hsize : sizeMax = 2^64-1 := rfl
  unfold blockedByBudget at h
  split_ifs at h with hused hbytes
  · exact absurd rfl h
  · have hzero : used = 0 := by simpa using h
    exact ⟨Nat.mod_eq_of_lt (by omega),.inr hzero⟩
  · exact ⟨Nat.mod_eq_of_lt (by omega),.inl (by omega)⟩

theorem change_enqueueChunk {capacity : ℕ} {s : Pipeline} :
    Change .enqueue s (enqueueChunk capacity s) := by
  unfold enqueueChunk
  split
  · rename_i chunk _
    split_ifs with hcancel hwait
    · exact change_same rfl rfl rfl
    · exact change_same rfl rfl rfl
    · have hfree := blockedByBudget_false (fun h => hwait (.inr h)) senderChunkBytes_le
      have hfits : (s.queuedBytes+senderChunkBytes chunk)%2^64 ≤ senderQueueMaxBytes ∨
          s.queuedBytes = 0 := by
        rw [hfree.1]
        exact hfree.2
      exact .admits chunk rfl hfree.1 rfl hfits
  · exact change_same rfl rfl rfl

theorem change_dequeue {s : Pipeline} : Change .dequeue s (dequeue s) := by
  unfold dequeue
  split
  · rename_i hs _
    split_ifs
    · exact .advances rfl rfl (by rw [hs]; rfl) (fun _ => trivial)
    · exact change_same rfl rfl rfl
  · rename_i next rest hs hq
    exact .takes next hq rfl hs rfl
  · exact change_same rfl rfl rfl

theorem change_send {config : Config} {s : Pipeline} {xs : List Exchange} :
    Change (.send xs) s (send config s xs) := by
  unfold send
  split
  · rename_i chunk charge hs
    split
    · exact .advances rfl rfl (by rw [hs]; rfl) (fun _ => trivial)
    · rename_i chunk' hsend
      refine .advances rfl rfl (by rw [hs]; rfl) ?_
      intro hc
      rw [hs] at hc
      exact Nat.le_trans hc (senderChunkBytes_grows (grows_sendChunk hsend))
  · exact change_same rfl rfl rfl

theorem change_destroy {s : Pipeline} : Change .destroy s (destroy s) := by
  unfold destroy
  split
  · rename_i chunk charge hs
    refine .advances rfl rfl (by rw [hs]; rfl) ?_
    intro hc
    rw [hs] at hc
    exact hc
  · exact change_same rfl rfl rfl

theorem change_noteBytesReleased {s : Pipeline} : Change .release s (noteBytesReleased s) := by
  unfold noteBytesReleased
  split
  · rename_i released charge hs
    exact .releases released charge rfl rfl rfl hs rfl
  · exact change_same rfl rfl rfl

theorem change_stop {s : Pipeline} : Change .stop s (stop s) := by
  unfold stop
  split
  · rename_i hs
    exact .advances rfl rfl (by rw [hs]; rfl) (fun _ => trivial)
  · exact change_same rfl rfl rfl

section
variable (config : Config) (capacity : ℕ)

theorem step_change (s : Pipeline) (action : Action) :
    Change action s (step config capacity s action) := by
  cases action with
  | load readable => exact change_load
  | enqueue => exact change_enqueueChunk
  | dequeue => exact change_dequeue
  | send xs => exact change_send
  | destroy => exact change_destroy
  | release => exact change_noteBytesReleased
  | stop => exact change_stop

/-! ## The budget over a run -/

/-- The charges of the sender's chunk and of the queued ones. -/
def charges (s : Pipeline) : List ℕ := senderCharge s.sender::s.queue.map Prod.snd

structure Budgeted (s : Pipeline) : Prop where
  covered : Covered s.sender
  queued : ∀ e ∈ s.queue, e.2 ≤ senderChunkBytes e.1
  le : s.queuedBytes ≤ outstanding s
  bound : s.queuedBytes ≤ senderQueueMaxBytes ∨ ∃ charge ∈ charges s, s.queuedBytes ≤ charge

theorem releaseBytes_eq (queued released : ℕ) : releaseBytes queued released = queued-released := by
  unfold releaseBytes
  split_ifs <;> omega

theorem budgeted_start {chunks : List (List (Kind × ℕ))} : Budgeted (start chunks) where
  covered := trivial
  queued := by
    intro e he
    cases he
  le := Nat.zero_le _
  bound := .inl (Nat.zero_le _)

theorem budgeted_change {t : Pipeline} (h : Change action s t) (hs : Budgeted s) : Budgeted t := by
  cases h with
  | advances hq hb hcharge hc =>
    have hsame : charges t = charges s := by rw [charges,charges,hq,hcharge]
    have hout : outstanding t = outstanding s := by
      rw [outstanding,outstanding,queueCharge,queueCharge,hq,hcharge]
    exact ⟨hc hs.covered,hq.symm ▸ hs.queued,by rw [hout,hb]; exact hs.le,
      by rw [hsame,hb]; exact hs.bound⟩
  | admits chunk hq hb hsender hfits =>
    have hout : outstanding t = outstanding s+senderChunkBytes chunk := by
      simp [outstanding,queueCharge,hq,hsender,Nat.add_assoc]
    apply Budgeted.mk (hsender.symm ▸ hs.covered)
    · intro e he
      rw [hq,List.mem_append,List.mem_singleton] at he
      apply he.elim (hs.queued e)
      intro he
      rw [he]
    · have hle := hs.le
      omega
    · apply hfits.imp_right
      intro hzero
      exact ⟨senderChunkBytes chunk,by simp [charges,hq],by omega⟩
  | takes next hq hb hwait ht =>
    have hnext := hs.queued next (by rw [hq]; exact List.mem_cons_self)
    have hout : outstanding t = outstanding s := by
      simp [outstanding,queueCharge,hq,hwait,ht,senderCharge]
    apply Budgeted.mk
    · rw [ht]
      exact hnext
    · intro e he
      exact hs.queued e (by rw [hq]; exact List.mem_cons_of_mem _ he)
    · rw [hout,hb]
      exact hs.le
    · rw [hb]
      apply hs.bound.elim .inl
      intro hbig
      obtain ⟨big,hmem,hbytes⟩ := hbig
      rw [charges,hwait,List.mem_cons] at hmem
      apply hmem.elim
      · -- the waiting sender is charged with nothing
        intro hzero
        have hzero' : big = 0 := hzero
        exact .inl (by omega)
      · intro hqueued
        rw [hq] at hqueued
        exact .inr ⟨big,by rw [charges,ht]; exact hqueued,hbytes⟩
  | releases released charge _ hq hb hsender ht =>
    have hcov := hs.covered
    have hle := hs.le
    rw [releaseBytes_eq] at hb
    rw [hsender] at hcov
    have hout : outstanding s = charge+queueCharge s := by rw [outstanding,hsender]; rfl
    have hout' : outstanding t = queueCharge s := by
      rw [outstanding,ht,queueCharge,queueCharge,hq]
      exact Nat.zero_add _
    have hcov' : charge ≤ released := hcov
    apply Budgeted.mk
    · rw [ht]
      trivial
    · exact hq.symm ▸ hs.queued
    · omega
    · apply hs.bound.elim
      · intro hmax
        exact .inl (by omega)
      · intro hbig
        obtain ⟨big,hmem,hbytes⟩ := hbig
        rw [charges,hsender,List.mem_cons] at hmem
        apply hmem.elim
        · intro hbig
          have hcharge : big = charge := hbig
          exact .inl (by omega)
        · intro hbig
          exact .inr ⟨big,by rw [charges,hq]; exact List.mem_cons_of_mem _ hbig,by omega⟩

theorem run_snoc (s : Pipeline) (schedule : List Action) (action : Action) :
    run config capacity s (schedule++[action]) =
      step config capacity (run config capacity s schedule) action := by
  rw [run,List.foldl_append]
  rfl

theorem budgeted_run (chunks : List (List (Kind × ℕ))) (schedule : List Action) :
    Budgeted (run config capacity (start chunks) schedule) := by
  induction schedule using List.reverseRecOn with
  | nil => exact budgeted_start
  | append_singleton earlier action ih =>
    rw [run_snoc]
    exact budgeted_change (step_change config capacity _ action) ih

/-- Nothing but a release can part the budget from the charges. -/
theorem exact_change {t : Pipeline} (h : Change action s t)
    (hs : Budgeted s) (hexact : Exact s) (hover : action = .release → ¬ OverReleases s) :
    Exact t := by
  unfold Exact at hexact ⊢
  cases h with
  | advances hq hb hcharge _ =>
    rw [hb,hexact,outstanding,outstanding,queueCharge,queueCharge,hq,hcharge]
  | admits chunk hq hb hsender _ =>
    rw [hb,hexact]
    simp [outstanding,queueCharge,hq,hsender,Nat.add_assoc]
  | takes next hq hb hwait ht =>
    rw [hb,hexact]
    simp [outstanding,queueCharge,hq,hwait,ht,senderCharge]
  | releases released charge ha hq hb hsender ht =>
    have hcov := hs.covered
    rw [hsender] at hcov
    have hcov' : charge ≤ released := hcov
    have hout : outstanding s = charge+queueCharge s := by rw [outstanding,hsender]; rfl
    have hout' : outstanding t = queueCharge s := by
      rw [outstanding,ht,queueCharge,queueCharge,hq]
      exact Nat.zero_add _
    rw [hb,releaseBytes_eq,hout',hexact,hout]
    by_cases hmore : charge < released
    · have hnone : queueCharge s = 0 := by
        by_contra hsome
        exact hover ha ⟨released,charge,hsender,hmore,hsome⟩
      omega
    · omega

theorem not_exact_release (hexact : Exact s) (hover : OverReleases s) :
    ¬ Exact (step config capacity s .release) := by
  obtain ⟨released,charge,hsender,hmore,hsome⟩ := hover
  have hout : outstanding s = charge+queueCharge s := by rw [outstanding,hsender]; rfl
  unfold Exact at hexact ⊢
  have hstep : step config capacity s .release =
      { s with
        sender := .waiting
        queuedBytes := releaseBytes s.queuedBytes released } := by
    rw [step,noteBytesReleased,hsender]
  have hout' : outstanding (step config capacity s .release) = queueCharge s := by
    rw [hstep]
    exact Nat.zero_add _
  rw [hout',hstep]
  show releaseBytes s.queuedBytes released ≠ queueCharge s
  rw [releaseBytes_eq]
  omega

end

theorem exact_run {capacity : ℕ} {chunks : List (List (Kind × ℕ))} {schedule : List Action}
    (h : ∀ earlier later, schedule = earlier++.release::later →
      ¬ OverReleases (run config capacity (start chunks) earlier)) :
    Exact (run config capacity (start chunks) schedule) := by
  induction schedule using List.reverseRecOn with
  | nil => rfl
  | append_singleton earlier action ih =>
    have hearlier : Exact (run config capacity (start chunks) earlier) := by
      apply ih
      intro front back hsplit
      exact h front (back++[action]) (by rw [hsplit]; simp)
    rw [run_snoc]
    apply exact_change (step_change config capacity _ action) (budgeted_run _ _ _ _) hearlier
    intro ha
    exact h earlier [] (by rw [ha])

/-- The queued bytes are the charged ones throughout a run exactly when no chunk whose
files were read only while it was sent is released beside another charged chunk.
Whether they are or not, they pass the limit only for one chunk that passes it alone,
and nothing is left when every chunk was released. -/
theorem queued_bytes_exact_iff (config : Config) (capacity : ℕ)
    (chunks : List (List (Kind × ℕ))) (schedule : List Action) :
    ((∀ earlier later, schedule = earlier++later →
        Exact (run config capacity (start chunks) earlier)) ↔
      ∀ earlier later, schedule = earlier++.release::later →
        ¬ OverReleases (run config capacity (start chunks) earlier)) ∧
    ((run config capacity (start chunks) schedule).queuedBytes > senderQueueMaxBytes →
      ∃ charge ∈ charges (run config capacity (start chunks) schedule),
        charge > senderQueueMaxBytes ∧
        (run config capacity (start chunks) schedule).queuedBytes ≤ charge) ∧
    (outstanding (run config capacity (start chunks) schedule) = 0 →
      (run config capacity (start chunks) schedule).queuedBytes = 0) := by
  have hbudget := budgeted_run config capacity chunks schedule
  refine ⟨⟨?_,?_⟩,?_,?_⟩
  · intro hexact earlier later hsplit hover
    apply not_exact_release config capacity (hexact earlier _ hsplit) hover
    rw [← run_snoc]
    exact hexact (earlier++[.release]) later (by rw [hsplit]; simp)
  · intro hfree earlier later hsplit
    apply exact_run
    intro front back hfront
    exact hfree front (back++later) (by rw [hsplit,hfront]; simp)
  · intro hmore
    apply hbudget.bound.elim
    · intro hmax
      omega
    · intro hbig
      apply hbig.imp
      intro charge hcharge
      exact ⟨hcharge.1,by omega,hcharge.2⟩
  · intro hnone
    have hle := hbudget.le
    omega

/-- A large file is appended to at the destination while a small one waits: its whole
size is returned, though it was charged with nothing. -/
theorem appended_file_releases_too_much :
    let config : Config := ⟨false,false,true,false,false,false,false,false,false⟩
    let answer : Exchange := ⟨true,true,true,true,true,.append 1,.other,.failed⟩
    let s := run config 8 (start [[(.regular,100*1024*1024)],[(.regular,10)]])
      [.load [true],.enqueue,.load [true],.enqueue,.dequeue,.send [answer],.destroy,.release]
    s.queue = [([⟨.regular,10,true⟩],10)] ∧ outstanding s = 10 ∧ s.queuedBytes = 0 := by
  decide +kernel

end FastSync.SenderQueue
