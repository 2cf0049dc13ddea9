import FastSync.DelayedPlans
import FastSync.ReceiverSession

/-!
# The receive loop and what it parks

One call reads frames until the stream ends. A keep-set manifest is used at once, held
until the end or dropped; a session collects the per-directory plans. Each of these is
an object with an owner: the loop destroys it, or hands it to its caller. The loop
writes down what it does, in order.
-/

set_option autoImplicit false

namespace FastSync.ReceiveLoop
open FiniteTree DeletePaths DeletePlan DeleteCommit
open DeleteSession
open DeleteReceiver (ReceiverStep configDeleteTimingEarly configDeleteTimingPerDir)
open ReceiverSession (Clock receiverTimeLimitExceeded)

inductive Object where
  | manifest (id : ℕ)
  | session (id : ℕ)
deriving DecidableEq, Repr

inductive Event where
  | finishedRead
  | keepaliveDispatched
  | keepaliveSent (delivered : Bool)
  | created (o : Object)
  | destroyed (o : Object)
  | handedOver (o : Object)
  | manifestDeleted (id : ℕ)
  | planApplied (id : ℕ) (t : DirTree Name) (plan : PlanFrame) (removed : List Position)
  | planCommitted (id : ℕ) (removed : List Position)
  | deleteLimitNoted

/-- A frame with what its body holds and how the platform and the sink answer. An entry
is `none` when it could not be received, and says otherwise whether the sink stored it. -/
inductive Frame where
  | keepalive (sent : Bool)
  | abort
  | check (file skipped wouldTransfer stored : Bool)
  | chunk (files : Option (List (Option Bool)))
  | checkBatch (ok : Bool)
  | mkdir (entry : Option Bool)
  | dirTimes (entries : Option (List (Option Bool)))
  | hardlink (entry : Option Bool)
  | symlink (entry : Option Bool)
  | special (entry : Option Bool)
  | manifest (manifest : Option DeleteManifest) (sent : Bool)
  | deletePlan (plan : Option PlanFrame) (sessionCreated : Bool)
  | next (entry : Option Bool)
  | finished
  -- a status that no frame starts with
  | unexpected

/-- A frame, the destination when it is handled, and the clock when it has arrived, if
it can be read. -/
structure Input where
  frame : Frame
  tree : DirTree Name
  now : Option ℤ

structure Sink where
  takesManifest : Bool
  takesPlans : Bool
  notesDeleteLimit : Bool
  sendSuccess : Bool
  successSent : Bool

structure State where
  deferredManifest : Option (ℕ × DeleteManifest)
  planSession : Option (ℕ × DeletePlanSession)
  deleteLimitNoted : Bool
  pendingManifest : Option ℕ
  pendingPlans : Option ℕ
  nextId : ℕ
  log : List Event

def start : State := ⟨none,none,false,none,none,0,[]⟩

def emit (st : State) (events : List Event) : State := { st with log := st.log++events }

def create (st : State) (object : ℕ → Object) : State :=
  { st with
    nextId := st.nextId+1
    log := st.log++[.created (object st.nextId)] }

def noteDeleteLimit (sink : Sink) (st : State) : State :=
  if sink.notesDeleteLimit then emit st [.deleteLimitNoted] else st

def noteDeleteLimitOnce (sink : Sink) (limit : Bool) (st : State) : State :=
  if limit && !st.deleteLimitNoted && sink.notesDeleteLimit then
    { emit st [.deleteLimitNoted] with deleteLimitNoted := true }
  else st

/-! ## The frames -/

def receiverHandleKeepalive (sent : Bool) (st : State) : State × ReceiverStep :=
  (emit st [.keepaliveSent sent], if sent then .next else .fail)

def receiverHandleCheck (cfg : Config) (file skipped wouldTransfer stored : Bool) : ReceiverStep :=
  if cfg.dryRun then if !skipped && !wouldTransfer then .error else .next
  else if !skipped && (!file || !stored) then .error
  else .next

def receiverHandleEntry (entry : Option Bool) : ReceiverStep :=
  if entry = some true then .next else .error

def receiverHandleEntries (entries : Option (List (Option Bool))) : ReceiverStep :=
  match entries with
  | none => .error
  | some entries => if entries.all fun entry => entry = some true then .next else .error

def discardManifest (st : State) : State :=
  emit (create st .manifest) [.destroyed (.manifest st.nextId)]

/-- The manifest is authoritative when it arrives. -/
def deleteAtOnce (cfg : Config) (sink : Sink) (t : DirTree Name) (manifest : DeleteManifest)
    (sent : Bool) (st : State) : State × ReceiverStep :=
  let deletion := (manifestDeleteAllObserved cfg t manifest).2
  let st' :=
    emit (create st .manifest) [.manifestDeleted st.nextId,.destroyed (.manifest st.nextId)]
  if deletion = .error then (st',.fail)
  else
    (if deletion = .limitReached then noteDeleteLimit sink st' else st',
      if sent then .next else .fail)

/-- The manifest waits for the end of the stream; a second one ends the connection. -/
def holdManifest (manifest : DeleteManifest) (st : State) : State × ReceiverStep :=
  match st.deferredManifest with
  | some (first,_) =>
    ({ emit (create st .manifest)
         [.destroyed (.manifest first),.destroyed (.manifest st.nextId)] with
       deferredManifest := none },.fail)
  | none => ({ create st .manifest with deferredManifest := some (st.nextId,manifest) },.next)

def receiverHandleManifest (cfg : Config) (sink : Sink) (t : DirTree Name)
    (manifest : Option DeleteManifest) (sent : Bool) (st : State) : State × ReceiverStep :=
  match manifest with
  | none => (st,.fail)
  | some manifest =>
    if cfg.dryRun then
      (discardManifest st,if configDeleteTimingEarly cfg && !sent then .fail else .next)
    else if configDeleteTimingEarly cfg then
      if cfg.useDelete || cfg.deleteMissingArgs then deleteAtOnce cfg sink t manifest sent st
      else (discardManifest st,if sent then .next else .fail)
    else if cfg.useDelete || cfg.deleteMissingArgs then holdManifest manifest st
    else (discardManifest st,.next)

def openPlanSession (cfg : Config) (sessionCreated : Bool) (st : State) : State :=
  match st.planSession with
  | some _ => st
  | none =>
    if sessionCreated then
      { create st .session with planSession := some (st.nextId,deletePlanSessionCreate cfg) }
    else st

def receiverHandleDeletePlan (cfg : Config) (sink : Sink) (t : DirTree Name)
    (plan : Option PlanFrame) (sessionCreated : Bool) (st : State) : State × ReceiverStep :=
  if !configDeleteTimingPerDir cfg then (st,.fail)
  else
    let st := openPlanSession cfg sessionCreated st
    match st.planSession, plan with
    | none, _ => (st,.fail)
    | some _, none => (st,.fail)
    | some (id,s), some plan =>
      let r := deletePlanSessionReceive cfg t plan { s with gone := [] }
      let st :=
        { emit st [.planApplied id t plan r.1.gone] with planSession := some (id,r.1) }
      if r.2 then (noteDeleteLimitOnce sink r.1.limitHit st,.next) else (st,.fail)

def receiverDispatchStatus (cfg : Config) (sink : Sink) (t : DirTree Name) (frame : Frame)
    (st : State) : State × ReceiverStep :=
  match frame with
  | .keepalive sent => receiverHandleKeepalive sent (emit st [.keepaliveDispatched])
  | .abort => (st,.fail)
  | .check file skipped wouldTransfer stored =>
    (st,receiverHandleCheck cfg file skipped wouldTransfer stored)
  | .chunk files => (st,receiverHandleEntries files)
  | .checkBatch ok => (st,if ok then .next else .fail)
  | .mkdir entry => (st,receiverHandleEntry entry)
  | .dirTimes entries => (st,receiverHandleEntries entries)
  | .hardlink entry => (st,receiverHandleEntry entry)
  | .symlink entry => (st,receiverHandleEntry entry)
  | .special entry => (st,receiverHandleEntry entry)
  | .manifest manifest sent => receiverHandleManifest cfg sink t manifest sent st
  | .deletePlan plan sessionCreated => receiverHandleDeletePlan cfg sink t plan sessionCreated st
  | .next entry => (st,receiverHandleEntry entry)
  -- the loop ends before it dispatches these
  | .finished => (st,.error)
  | .unexpected => (st,.error)

/-! ## The end of the stream -/

def receiverDropPending (st : State) : State :=
  let st :=
    match st.deferredManifest with
    | none => st
    | some (id,_) => { emit st [.destroyed (.manifest id)] with deferredManifest := none }
  match st.planSession with
  | none => st
  | some (id,_) => { emit st [.destroyed (.session id)] with planSession := none }

/-- The second part is false when the commit fails. -/
def finishManifest (cfg : Config) (sink : Sink) (t : DirTree Name) (st : State) : State × Bool :=
  match st.deferredManifest with
  | none => (st,true)
  | some (id,manifest) =>
    if sink.takesManifest then
      ({ emit st [.handedOver (.manifest id)] with
         deferredManifest := none
         pendingManifest := some id },true)
    else
      let deletion := (manifestDeleteAllObserved cfg t manifest).2
      let st :=
        { emit st [.manifestDeleted id,.destroyed (.manifest id)] with deferredManifest := none }
      if deletion = .error then (st,false)
      else (if deletion = .limitReached then noteDeleteLimit sink st else st,true)

def finishPlans (cfg : Config) (sink : Sink) (t : DirTree Name) (st : State) : State × Bool :=
  match st.planSession with
  | none => (st,true)
  | some (id,s) =>
    if sink.takesPlans then
      ({ emit st [.handedOver (.session id)] with
         planSession := none
         pendingPlans := some id },true)
    else if cfg.dryRun then
      ({ emit st [.destroyed (.session id)] with planSession := none },true)
    else
      let r := deletePlanSessionCommit cfg t { s with gone := [] }
      let st :=
        { emit st [.planCommitted id r.1.gone,.destroyed (.session id)] with planSession := none }
      if r.2 = .error then (st,false)
      else (if r.1.limitHit && !st.deleteLimitNoted then noteDeleteLimit sink st else st,true)

/-- What follows `STATUS_FINISHED`; the second part says whether the call succeeds. -/
def receiverFinish (cfg : Config) (sink : Sink) (t : DirTree Name) (st : State) : State × Bool :=
  let m := finishManifest cfg sink t st
  if !m.2 then (receiverDropPending m.1,false)
  else
    let p := finishPlans cfg sink t m.1
    if !p.2 then (receiverDropPending p.1,false)
    else if sink.sendSuccess && !sink.successSent then (receiverDropPending p.1,false)
    else (p.1,true)

/-! ## The loop -/

def statusCountsAsProgress : Frame → Bool
  | .keepalive _ => false
  | .abort => false
  | .checkBatch _ => false
  | .dirTimes _ => false
  | _ => true

/-- `none` when the connection has lasted or stood still for too long. -/
def receiverNoteStatus (clock : Clock) (input : Input) : Option Clock :=
  let now := input.now.getD clock.lastProgress
  let clock :=
    if statusCountsAsProgress input.frame then { clock with lastProgress := now } else clock
  if receiverTimeLimitExceeded clock now then none else some clock

def isFinished : Frame → Bool
  | .finished => true
  | _ => false

/-- The status of a frame is read before anything else is done about it. -/
def readStatus (frame : Frame) (st : State) : State :=
  if isFinished frame then emit st [.finishedRead] else st

/-- The receive loop on the frames that arrive; their end is a disconnect. -/
def receiveLoop (cfg : Config) (sink : Sink) : Clock → List Input → State → State × Bool
  | _, [], st => (receiverDropPending st,false)
  | clock, input::rest, st =>
    let st := readStatus input.frame st
    match receiverNoteStatus clock input with
    | none => (receiverDropPending st,false)
    | some clock =>
      match input.frame with
      | .finished => receiverFinish cfg sink input.tree st
      | .unexpected => (receiverDropPending st,false)
      | frame =>
        let r := receiverDispatchStatus cfg sink input.tree frame st
        if r.2 = .next then receiveLoop cfg sink clock rest r.1
        else (receiverDropPending r.1,false)

def receiverProcessPending (cfg : Config) (sink : Sink) (sessionStart : ℤ) (inputs : List Input) :
    State × Bool :=
  receiveLoop cfg sink ⟨sessionStart,sessionStart⟩ inputs start

end FastSync.ReceiveLoop
