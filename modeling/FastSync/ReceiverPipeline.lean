import FastSync.RingQueue
import FastSync.Threads
import Mathlib.Algebra.BigOperators.Group.List.Basic
import Mathlib.Data.List.Perm.Basic

/-!
# The receive thread and the write thread

The receive thread offers each file to a bounded queue and sleeps while the queue is
full or its byte budget is used up. The write thread takes the files in turn, writes
and destroys them, and returns their bytes. Each section under the mutex is one step,
a sleeping thread wakes after a signal or for no reason, and the two take turns in any
order. What was offered, saved and destroyed is recorded beside the state.
-/

set_option autoImplicit false

namespace FastSync.ReceiverPipeline
open RingQueue Threads

/-- `data` is the size of the payload, if there is one. -/
structure File where
  data : Option UInt64
  isDir : Bool
  hasMetadata : Bool
  isSpecial : Bool
  skip : Bool
deriving DecidableEq, Repr

structure Config where
  saveToDisk : Bool
  dryRun : Bool
  capturesDirMetadata : Bool
  removeSourceFiles : Bool
deriving DecidableEq, Repr

inductive SaveResult where
  | written
  | skipped
  | failed
  | error
deriving DecidableEq, Repr

/-- What the platform answers to the write thread in one turn. -/
structure Answer where
  rootDuplicated : Bool
  result : SaveResult
  dirTimeAdded : Bool
  outcomeAppended : Bool
deriving DecidableEq, Repr

def fileBytes (f : File) : UInt64 := f.data.getD 0

/-- The body of the write loop between taking a file and destroying it; `false` when
the thread has to give up. -/
def writeFile (config : Config) (answer : Answer) (f : File) : Bool :=
  let saves := config.saveToDisk && !config.dryRun
  let result := if saves then answer.result else .skipped
  if saves && result == .error then false
  else if !config.dryRun && result != .error && f.isDir && f.hasMetadata &&
      config.capturesDirMetadata && !answer.dirTimeAdded then false
  else if !config.dryRun && config.removeSourceFiles && !f.isDir && !f.isSpecial && !f.skip &&
      !answer.outcomeAppended then false
  else true

inductive ReceiveThread where
  | receiving
  | offering (f : File)
  | asleep (f : File) (signalled : Bool)
  | finishing
  | failing
  | returned (ok : Bool)
deriving DecidableEq, Repr

/-- A file being released is destroyed and its bytes are not yet returned. -/
inductive WriteThread where
  | starting
  | fetching
  | asleep (signalled : Bool)
  | writing (f : File)
  | releasing (f : File) (ok : Bool)
  | failing
  | returned (ok : Bool)
deriving DecidableEq, Repr

structure Pipeline where
  incoming : List File
  streamOk : Bool
  receiver : ReceiveThread
  writer : WriteThread
  queue : Queue File
  queuedBytes : UInt64
  receiverDone : Bool
  cancelled : Bool
  enqueued : List File
  saved : List File
  destroyed : List File

/-! ## Signals -/

/-- Only the receive thread ever waits for room. -/
def signalNotFull : ReceiveThread → ReceiveThread
  | .asleep f _ => .asleep f true
  | thread => thread

/-- Only the write thread ever waits for a file. -/
def signalNotEmpty : WriteThread → WriteThread
  | .asleep _ => .asleep true
  | thread => thread

/-! ## The receive thread -/

def blockedByBudget (limit used bytes : UInt64) : Bool :=
  if limit > 0 then
    if used ≥ limit then true
    else if bytes > limit-used then used != 0
    else false
  else false

def blocked (limit : UInt64) (s : Pipeline) (f : File) : Bool :=
  queueIsFull s.queue || blockedByBudget limit s.queuedBytes (fileBytes f)

/-- The file is destroyed and the receive loop ends. -/
def rejectFile (s : Pipeline) (f : File) : Pipeline :=
  { s with
    receiver := .failing
    destroyed := s.destroyed++[f] }

def enqueueFile (limit : UInt64) (allocated : Bool) (s : Pipeline) (f : File) : Pipeline :=
  if s.cancelled then rejectFile s f
  else if blocked limit s f then { s with receiver := .asleep f false }
  else
    match queueEnqueue allocated s.queue f with
    | none => rejectFile s f
    | some queue =>
      { s with
        receiver := .receiving
        writer := signalNotEmpty s.writer
        queue := queue
        queuedBytes := s.queuedBytes+fileBytes f
        enqueued := s.enqueued++[f] }

def receiverThreadFail (s : Pipeline) : Pipeline :=
  { s with
    receiver := .returned false
    writer := signalNotEmpty s.writer
    receiverDone := true
    cancelled := true }

def receiverThreadFinish (s : Pipeline) : Pipeline :=
  { s with
    receiver := .returned true
    writer := signalNotEmpty s.writer
    receiverDone := true }

/-- The stream brings the next file, or ends. -/
def receiveNext (s : Pipeline) : Pipeline :=
  match s.incoming with
  | f::rest =>
    { s with
      incoming := rest
      receiver := .offering f }
  | [] => { s with receiver := if s.streamOk then .finishing else .failing }

def receiveThread (limit : UInt64) (spurious allocated : Bool) (s : Pipeline) : Pipeline :=
  match s.receiver with
  | .receiving => receiveNext s
  | .offering f => enqueueFile limit allocated s f
  | .asleep f signalled => if signalled || spurious then enqueueFile limit allocated s f else s
  | .finishing => receiverThreadFinish s
  | .failing => receiverThreadFail s
  | .returned _ => s

/-! ## The write thread -/

def dequeueFile (s : Pipeline) : Pipeline :=
  if queueIsEmpty s.queue && !s.receiverDone then { s with writer := .asleep false }
  else if queueIsEmpty s.queue && s.receiverDone then { s with writer := .returned true }
  else
    match queueDequeue s.queue with
    | none => { s with writer := .returned true }
    | some next =>
      { s with
        receiver := signalNotFull s.receiver
        writer := .writing next.1
        queue := next.2 }

def destroyFile (s : Pipeline) (f : File) (ok : Bool) : Pipeline :=
  { s with
    writer := .releasing f ok
    saved := if ok then s.saved++[f] else s.saved
    destroyed := s.destroyed++[f] }

def noteBytesReleased (limit : UInt64) (s : Pipeline) (released : UInt64) : Pipeline :=
  if limit == 0 || released == 0 then s
  else
    { s with
      receiver := signalNotFull s.receiver
      queuedBytes := if released ≥ s.queuedBytes then 0 else s.queuedBytes-released }

def writeThreadFail (s : Pipeline) : Pipeline :=
  { s with
    receiver := signalNotFull s.receiver
    writer := .returned false
    receiverDone := true
    cancelled := true }

def writeThread (config : Config) (limit : UInt64) (spurious : Bool) (answer : Answer)
    (s : Pipeline) : Pipeline :=
  match s.writer with
  | .starting =>
    { s with writer := if config.saveToDisk && !answer.rootDuplicated then .failing else .fetching }
  | .fetching => dequeueFile s
  | .asleep signalled => if signalled || spurious then dequeueFile s else s
  | .writing f => destroyFile s f (writeFile config answer f)
  | .releasing f ok =>
    { noteBytesReleased limit s (fileBytes f) with writer := if ok then .fetching else .failing }
  | .failing => writeThreadFail s
  | .returned _ => s

/-! ## Interleaving -/

inductive Move where
  | receive (spurious allocated : Bool)
  | write (spurious : Bool) (answer : Answer)
deriving DecidableEq, Repr

def step (config : Config) (limit : UInt64) (s : Pipeline) : Move → Pipeline
  | .receive spurious allocated => receiveThread limit spurious allocated s
  | .write spurious answer => writeThread config limit spurious answer s

def run (config : Config) (limit : UInt64) (s : Pipeline) (schedule : List Move) : Pipeline :=
  schedule.foldl (step config limit) s

def start (queue : Queue File) (files : List File) (streamOk : Bool) : Pipeline :=
  ⟨files,streamOk,.receiving,.starting,queue,0,false,false,[],[],[]⟩

def inHand : WriteThread → List File
  | .writing f => [f]
  | _ => []

/-- The file whose bytes the write thread still has to return. -/
def unreleased : WriteThread → List File
  | .writing f => [f]
  | .releasing f _ => [f]
  | _ => []

def held : ReceiveThread → List File
  | .offering f => [f]
  | .asleep f _ => [f]
  | _ => []

def outstanding (s : Pipeline) : List File := unreleased s.writer++toList s.queue

def totalBytes (files : List File) : ℕ := (files.map fun f => (fileBytes f).toNat).sum

/-! ## What a step can do -/

def Offers (thread : ReceiveThread) (f : File) : Prop :=
  thread = .offering f ∨ ∃ signalled, thread = .asleep f signalled

def Fetches (thread : WriteThread) : Prop :=
  thread = .fetching ∨ ∃ signalled, thread = .asleep signalled

inductive Change (limit : UInt64) (s : Pipeline) : Pipeline → Prop
  | idle : Change limit s s
  | receives (f : File) (rest : List File) (hr : s.receiver = .receiving)
      (hi : s.incoming = f::rest) :
      Change limit s
        { s with
          incoming := rest
          receiver := .offering f }
  | ends (thread : ReceiveThread) (hr : s.receiver = .receiving) (hi : s.incoming = [])
      (ht : thread = .finishing ∨ thread = .failing) :
      Change limit s { s with receiver := thread }
  | rejects (f : File) (hr : Offers s.receiver f) (hc : s.cancelled = true) :
      Change limit s (rejectFile s f)
  | waits (f : File) (hr : Offers s.receiver f) (hc : s.cancelled = false)
      (hb : blocked limit s f = true) : Change limit s { s with receiver := .asleep f false }
  | enqueues (f : File) (queue : Queue File) (hr : Offers s.receiver f)
      (hb : blocked limit s f = false) (hq : toList queue = toList s.queue++[f])
      (hcap : queue.capacity = s.queue.capacity) :
      Change limit s
        { s with
          receiver := .receiving
          writer := signalNotEmpty s.writer
          queue := queue
          queuedBytes := s.queuedBytes+fileBytes f
          enqueued := s.enqueued++[f] }
  | finishes (hr : s.receiver = .finishing) : Change limit s (receiverThreadFinish s)
  | fails (hr : s.receiver = .failing) : Change limit s (receiverThreadFail s)
  | starts (thread : WriteThread) (hw : s.writer = .starting)
      (ht : thread = .fetching ∨ thread = .failing) :
      Change limit s { s with writer := thread }
  | sleeps (hw : Fetches s.writer) (hq : toList s.queue = []) (hd : s.receiverDone = false) :
      Change limit s { s with writer := .asleep false }
  | returns (hw : Fetches s.writer) (hq : toList s.queue = []) (hd : s.receiverDone = true) :
      Change limit s { s with writer := .returned true }
  | dequeues (f : File) (queue : Queue File) (hw : Fetches s.writer)
      (hq : toList s.queue = f::toList queue) (hcap : queue.capacity = s.queue.capacity) :
      Change limit s
        { s with
          receiver := signalNotFull s.receiver
          writer := .writing f
          queue := queue }
  | writes (f : File) (ok : Bool) (hw : s.writer = .writing f) :
      Change limit s (destroyFile s f ok)
  | drops (f : File) (ok : Bool) (hw : s.writer = .releasing f ok)
      (hz : limit = 0 ∨ fileBytes f = 0) :
      Change limit s { s with writer := if ok then .fetching else .failing }
  | releases (f : File) (ok : Bool) (hw : s.writer = .releasing f ok) :
      Change limit s
        { s with
          receiver := signalNotFull s.receiver
          writer := if ok then .fetching else .failing
          queuedBytes :=
            if fileBytes f ≥ s.queuedBytes then 0 else s.queuedBytes-fileBytes f }
  | gives_up (hw : s.writer = .failing) : Change limit s (writeThreadFail s)

theorem change_enqueueFile {limit : UInt64} {allocated : Bool} {s : Pipeline} {f : File}
    (hr : Offers s.receiver f) : Change limit s (enqueueFile limit allocated s f) := by
  unfold enqueueFile
  split_ifs with hc hb
  · exact .rejects f hr hc
  · exact .waits f hr (Bool.not_eq_true _ ▸ hc) hb
  · have hfree : blocked limit s f = false := Bool.not_eq_true _ ▸ hb
    have hroom : queueIsFull s.queue = false := (Bool.or_eq_false_iff.mp hfree).1
    split
    · rename_i hnone
      have hsome := queueEnqueue_isSome allocated f hroom
      rw [hnone] at hsome
      cases hsome
    · rename_i queue hsome
      have hput := queueEnqueue_some hsome
      exact .enqueues f queue hr hfree hput.1 (hput.2 hroom)

theorem change_dequeueFile {limit : UInt64} {s : Pipeline} (hw : Fetches s.writer) :
    Change limit s (dequeueFile s) := by
  unfold dequeueFile
  by_cases hempty : queueIsEmpty s.queue = true
  · have hnil := (queueIsEmpty_iff s.queue).mp hempty
    by_cases hd : s.receiverDone = true
    · rw [if_neg (by rw [hempty, hd]; decide), if_pos (by rw [hempty, hd]; rfl)]
      exact .returns hw hnil hd
    · have hd' : s.receiverDone = false := Bool.not_eq_true _ ▸ hd
      rw [if_pos (by rw [hempty, hd']; rfl)]
      exact .sleeps hw hnil hd'
  · rw [if_neg (by simp [hempty]), if_neg (by simp [hempty])]
    split
    · rename_i hnone
      exact absurd ((queueIsEmpty_iff s.queue).mpr (queueDequeue_none hnone)) hempty
    · rename_i next hsome
      have htake := queueDequeue_some hsome
      exact .dequeues next.1 next.2 hw htake.1 htake.2

theorem change_receiveThread {limit : UInt64} {spurious allocated : Bool} {s : Pipeline} :
    Change limit s (receiveThread limit spurious allocated s) := by
  unfold receiveThread
  split
  · rename_i hr
    unfold receiveNext
    split
    · rename_i f rest hi
      exact .receives f rest hr hi
    · rename_i hi
      apply Change.ends _ hr hi
      split_ifs
      · exact .inl rfl
      · exact .inr rfl
  · rename_i f hr
    exact change_enqueueFile (.inl hr)
  · rename_i f signalled hr
    split_ifs
    · exact change_enqueueFile (.inr ⟨signalled,hr⟩)
    · exact .idle
  · rename_i hr
    exact .finishes hr
  · rename_i hr
    exact .fails hr
  · exact .idle

theorem change_writeThread {config : Config} {limit : UInt64} {spurious : Bool} {answer : Answer}
    {s : Pipeline} : Change limit s (writeThread config limit spurious answer s) := by
  unfold writeThread
  split
  · rename_i hw
    apply Change.starts _ hw
    split_ifs
    · exact .inr rfl
    · exact .inl rfl
  · rename_i hw
    exact change_dequeueFile (.inl hw)
  · rename_i signalled hw
    split_ifs
    · exact change_dequeueFile (.inr ⟨signalled,hw⟩)
    · exact .idle
  · rename_i f hw
    exact .writes f _ hw
  · rename_i f ok hw
    unfold noteBytesReleased
    by_cases hskip : (limit == 0 || fileBytes f == 0) = true
    · rw [if_pos hskip]
      exact .drops f ok hw (by simpa using hskip)
    · rw [if_neg hskip]
      exact .releases f ok hw
  · rename_i hw
    exact .gives_up hw
  · exact .idle

theorem step_change (config : Config) (limit : UInt64) (s : Pipeline) (move : Move) :
    Change limit s (step config limit s move) := by
  cases move with
  | receive spurious allocated => exact change_receiveThread
  | write spurious answer => exact change_writeThread

/-! ## Every step is progress -/

def receiverRank : ReceiveThread → ℕ
  | .receiving => 9
  | .offering _ => 25
  | .asleep _ true => 24
  | .asleep _ false => 23
  | .finishing => 6
  | .failing => 6
  | .returned _ => 0

def writerRank : WriteThread → ℕ
  | .starting => 7
  | .fetching => 5
  | .asleep true => 4
  | .asleep false => 3
  | .writing _ => 11
  | .releasing _ _ => 9
  | .failing => 4
  | .returned _ => 0

/-- What is left to do. A signal may add one, which the step that sends it pays for. -/
def rank (s : Pipeline) : ℕ :=
  40*s.incoming.length+receiverRank s.receiver+10*(toList s.queue).length+writerRank s.writer

theorem receiverRank_signalNotFull (thread : ReceiveThread) :
    receiverRank (signalNotFull thread) ≤ receiverRank thread+1 := by
  cases thread with
  | asleep f signalled =>
    cases signalled with
    | false => exact Nat.le_refl 24
    | true => exact Nat.le_succ 24
  | _ => exact Nat.le_succ _

theorem writerRank_signalNotEmpty (thread : WriteThread) :
    writerRank (signalNotEmpty thread) ≤ writerRank thread+1 := by
  cases thread with
  | asleep signalled => cases signalled <;> decide
  | _ => exact Nat.le_succ _

theorem receiverRank_values : receiverRank .receiving = 9 ∧ (∀ f, receiverRank (.offering f) = 25) ∧
    (∀ f, receiverRank (.asleep f true) = 24) ∧ (∀ f, receiverRank (.asleep f false) = 23) ∧
    receiverRank .finishing = 6 ∧ receiverRank .failing = 6 ∧
    ∀ ok, receiverRank (.returned ok) = 0 :=
  ⟨rfl,fun _ => rfl,fun _ => rfl,fun _ => rfl,rfl,rfl,fun _ => rfl⟩

theorem writerRank_values : writerRank .starting = 7 ∧ writerRank .fetching = 5 ∧
    writerRank (.asleep true) = 4 ∧ writerRank (.asleep false) = 3 ∧
    (∀ f, writerRank (.writing f) = 11) ∧ (∀ f ok, writerRank (.releasing f ok) = 9) ∧
    writerRank .failing = 4 ∧ ∀ ok, writerRank (.returned ok) = 0 :=
  ⟨rfl,rfl,rfl,rfl,fun _ => rfl,fun _ _ => rfl,rfl,fun _ => rfl⟩

theorem receiverRank_offers {thread : ReceiveThread} {f : File} (h : Offers thread f) :
    22 < receiverRank thread ∧ (thread = .asleep f false ∨ 23 < receiverRank thread) := by
  rcases h with rfl | ⟨signalled,rfl⟩
  · simp [receiverRank_values]
  · cases signalled <;> simp [receiverRank_values]

theorem writerRank_fetches {thread : WriteThread} (h : Fetches thread) :
    2 < writerRank thread ∧ (thread = .asleep false ∨ 3 < writerRank thread) := by
  rcases h with rfl | ⟨signalled,rfl⟩
  · simp [writerRank_values]
  · cases signalled <;> simp [writerRank_values]

theorem rank_change {limit : UInt64} {s t : Pipeline} (h : Change limit s t) :
    t = s ∨ rank t < rank s := by
  have hfull := receiverRank_signalNotFull s.receiver
  have hempty := writerRank_signalNotEmpty s.writer
  cases h with
  | idle => exact .inl rfl
  | waits f hr _ _ =>
    apply (receiverRank_offers hr).2.imp
    · intro hsame
      rw [← hsame]
    · intro hold
      simp only [rank, receiverRank_values]
      omega
  | sleeps hw _ _ =>
    apply (writerRank_fetches hw).2.imp
    · intro hsame
      rw [← hsame]
    · intro hold
      simp only [rank, writerRank_values]
      omega
  | receives f rest hr hi =>
    right
    simp only [rank, hi, receiverRank_values, List.length_cons]
    omega
  | ends thread hr hi ht =>
    right
    rcases ht with rfl | rfl <;> (simp only [rank, hr, receiverRank_values]; omega)
  | rejects f hr _ =>
    right
    have hold := (receiverRank_offers hr).1
    simp only [rank, rejectFile, receiverRank_values]
    omega
  | enqueues f queue hr _ hq _ =>
    right
    have hold := (receiverRank_offers hr).1
    simp only [rank, hq, receiverRank_values, List.length_append, List.length_singleton]
    omega
  | finishes hr =>
    right
    simp only [rank, receiverThreadFinish, hr, receiverRank_values]
    omega
  | fails hr =>
    right
    simp only [rank, receiverThreadFail, hr, receiverRank_values]
    omega
  | starts thread hw ht =>
    right
    rcases ht with rfl | rfl <;> (simp only [rank, hw, writerRank_values]; omega)
  | returns hw _ _ =>
    right
    have hold := (writerRank_fetches hw).1
    simp only [rank, writerRank_values]
    omega
  | dequeues f queue hw hq _ =>
    right
    have hold := (writerRank_fetches hw).1
    simp only [rank, hq, writerRank_values, List.length_cons]
    omega
  | writes f ok hw =>
    right
    simp only [rank, destroyFile, hw, writerRank_values]
    omega
  | drops f ok hw _ =>
    right
    cases ok <;> (simp [rank, hw, writerRank_values])
  | releases f ok hw =>
    right
    cases ok <;> (simp [rank, hw, writerRank_values]; omega)
  | gives_up hw =>
    right
    simp only [rank, writeThreadFail, hw, writerRank_values]
    omega

end FastSync.ReceiverPipeline
