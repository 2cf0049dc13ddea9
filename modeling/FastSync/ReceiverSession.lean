import FastSync.IncrementalCheck

/-!
# A connection of the receiver

The server checks the configuration, prepares the destination and reads the
frames of the peer until the stream finishes or fails. A single-threaded receiver
saves each entry as it arrives; a multithreaded one passes the entries to a
writer through a queue. What was put off is committed at the end.
-/

set_option autoImplicit false

namespace FastSync.ReceiverSession
open FiniteTree (DirTree)
open DeletePaths Programs SystemCalls SecureWalk
open DelayUpdates SaveEntry DestinationTree IncrementalCheck
open ReceiverQueue (maxReceiveWholeFileSize)
open DeleteWalk (deleteExtrasList)
open DeletePlan (PlanFrame)
open DeleteCommit (DeleteManifest DeleteCommitResult deleteSkipsBuild
  manifestDeleteAllObserved)
open DeleteSession (DeletePlanSession deletePlanSessionCreate deletePlanSessionReceive
  deletePlanSessionCommit)
open DeleteReceiver (ReceiverStep configDeleteTimingEarly configDeleteTimingPerDir)

structure BatchEntry where
  path : Bytes
  size : ℕ
  mtime : Time
deriving DecidableEq, Repr

/-- A frame with what its body holds, or `none` where the body is malformed. The
lists of a batch and of directory times end early when they are not complete. -/
inductive Frame where
  | keepalive
  | abort
  | check (request : Option CheckRequest)
  | chunk (files : Option (List Received))
  | checkBatch (entries : List BatchEntry) (complete : Bool)
  | mkdir (dir : Option Received)
  | dirTimes (dirs : List Received) (complete : Bool)
  | hardlink (file : Option Received)
  | symlink (file : Option Received)
  | special (file : Option Received)
  | manifest (manifest : Option DeleteManifest)
  | deletePlan (plan : Option PlanFrame)
  | file (file : Option Received)

inductive Message where
  | frame (frame : Frame)
  | finished
  -- a status that no frame starts with
  | unexpected

structure Event where
  message : Message
  arrival : ℤ

/-- What is put off to the end of the stream, and what the terminal frame tells. -/
structure Pending where
  deferredManifest : Option DeleteManifest
  planSession : Option DeletePlanSession
  wouldDelete : List Bytes
  deleteLimitReached : Bool

structure SaveContext where
  dirTimes : List DirTime
  outcomes : List FileSaveResult
  failedEntries : ℕ

/-- The outcome of a frame: the entries it stores, in order, and the step once
they are stored. An entry that is not stored is an error. -/
structure Handled where
  pending : Pending
  files : List Received
  step : ReceiverStep

def pendingStart : Pending := ⟨none,none,[],false⟩

def contextStart : SaveContext := ⟨[],[],0⟩

variable (pr : Process) (cfg : SessionConfig)

section Clock

def maxSessionIdleSec : ℤ := 3600
def maxSessionWallSec : ℤ := 86400

structure Clock where
  sessionStart : ℤ
  lastProgress : ℤ
deriving DecidableEq, Repr

def receiverTimeLimitExceeded (clock : Clock) (now : ℤ) : Bool :=
  decide (now-clock.sessionStart ≥ maxSessionWallSec ∨ now-clock.lastProgress ≥ maxSessionIdleSec)

def statusCountsAsProgress : Message → Bool
  | .frame .keepalive => false
  | .frame .abort => false
  | .frame (.checkBatch _ _) => false
  | .frame (.dirTimes _ _) => false
  | _ => true

/-- The clock starts with the first message. -/
def receiverNoteStatus (clock : Option Clock) (ev : Event) : Option Clock :=
  let clock := clock.getD ⟨ev.arrival,ev.arrival⟩
  let clock := if statusCountsAsProgress ev.message then { clock with lastProgress := ev.arrival }
    else clock
  if receiverTimeLimitExceeded clock ev.arrival then none else some clock

end Clock

section Deletion

/-- The part of the configuration that the deletion phases read. -/
def deleteConfig : DeleteCommit.Config where
  receiveRootDirectory := cfg.receiveRootDirectory
  delayUpdates := cfg.delayUpdates
  basisDirs := cfg.basisDirs.map BasisDest.path
  protectRules := cfg.protectRules
  useDelete := cfg.useDelete
  deleteMissingArgs := cfg.deleteMissingArgs
  forceDelete := cfg.forceDelete
  dryRun := cfg.dryRun
  deleteBefore := cfg.deleteBefore
  deleteDuring := cfg.deleteDuring
  deleteDelay := cfg.deleteDelay
  maxDelete := cfg.maxDelete

def deletes : Bool := cfg.useDelete || cfg.deleteMissingArgs

def manifestWouldDeleteList (manifest : DeleteManifest) : Sys (Option (List Bytes)) :=
  onDestination pr cfg.receiveRootDirectory fun t =>
    let walk := deleteExtrasList t ⟨⟨manifest.keeps⟩,some ⟨manifest.dirs⟩,
      deleteSkipsBuild (deleteConfig cfg) manifest.protectedPaths [] true,cfg.protectRules⟩
    (walk.gone,walk.out)

def commitManifest (manifest : DeleteManifest) : Sys DeleteCommitResult :=
  if cfg.dryRun then pure .ok
  else do
    let r ← onDestination pr cfg.receiveRootDirectory fun t =>
      let r := manifestDeleteAllObserved (deleteConfig cfg) t manifest
      (r.1.gone,r.2)
    pure (r.getD .error)

/-- A tree without entries: what a root that cannot be opened shows. -/
def noTree : DirTree Name := ⟨fun _ => [],fun _ => 0,fun _ => List.nodup_nil,by simp⟩

def planEngine (plan : PlanFrame) (session : DeletePlanSession) (t : DirTree Name) :
    List Position × DeletePlanSession × Bool :=
  let r := deletePlanSessionReceive (deleteConfig cfg) t plan { session with gone := [] }
  (r.1.gone,r)

/-- A session that applies nothing does not look at the destination. -/
def receivePlan (plan : PlanFrame) (session : DeletePlanSession) : Sys (DeletePlanSession × Bool) :=
  if session.dryRun || !deletes cfg then pure (planEngine cfg plan session noTree).2
  else do
    let r ← onDestination pr cfg.receiveRootDirectory (planEngine cfg plan session)
    pure (r.getD (planEngine cfg plan session noTree).2)

def commitPlans (session : DeletePlanSession) : Sys DeleteCommitResult := do
  let r ← onDestination pr cfg.receiveRootDirectory fun t =>
    let r := deletePlanSessionCommit (deleteConfig cfg) t { session with gone := [] }
    (r.1.gone,r.2)
  pure (r.getD .error)

end Deletion

section Handlers

variable (st : Pending)

def receiverHandleKeepalive : Sys Handled := do
  if ← send then pure ⟨st,[],.next⟩ else pure ⟨st,[],.fail⟩

def receiverHandleAbort : Sys Handled := pure ⟨st,[],.fail⟩

/-- A dry run has answered already, and stores nothing. -/
def settleCheck : CheckOutcome → Handled
  | .skipped => ⟨st,[],.next⟩
  | .wouldTransfer => ⟨st,[],if cfg.dryRun then .next else .error⟩
  | .file received => if cfg.dryRun then ⟨st,[],.error⟩ else ⟨st,[received],.next⟩
  | .error => ⟨st,[],.error⟩

def receiverHandleCheck (request : Option CheckRequest) : Sys Handled :=
  match request with
  | none => pure ⟨st,[],.error⟩
  | some rq => do
    let outcome ← receiveIncrementalCheckEx pr cfg rq
    pure (settleCheck cfg st outcome)

def receiverHandleChunk (files : Option (List Received)) : Sys Handled :=
  match files with
  | none => pure ⟨st,[],.error⟩
  | some files => pure ⟨st,files,.next⟩

def utilsValidBatchPath (path : Bytes) : Bool :=
  decide (path ≠ [] ∧ path.head? ≠ some slash) && !hasPathTraversal path

def batchEntryValid (entry : BatchEntry) : Bool :=
  decide (0 ≤ entry.mtime.2 ∧ entry.mtime.2 < nanosecondsPerSecond) && decide (entry.path ≠ []) &&
    (pr.trustSender || utilsValidBatchPath entry.path) &&
    decide (entry.size ≤ maxReceiveWholeFileSize)

/-- The receiver only looks; which of two answers it sends depends on the time
and the size it finds. -/
def answerBatch : List BatchEntry → Sys Bool
  | [] => pure true
  | entry::entries =>
    if !batchEntryValid pr entry then do
      let _ ← send
      pure false
    else do
      let _ ← fileStatSecure pr (pathCat cfg.receiveRootDirectory entry.path)
      if ← send then answerBatch entries else pure false

def receiverHandleCheckBatch (entries : List BatchEntry) (complete : Bool) : Sys Handled :=
  if cfg.checksum then pure ⟨st,[],.fail⟩
  else do
    let answered ← answerBatch pr cfg entries
    pure ⟨st,[],if answered && complete then .next else .fail⟩

def storeOne (file : Option Received) : Sys Handled :=
  match file with
  | none => pure ⟨st,[],.error⟩
  | some file => pure ⟨st,[file],.next⟩

def receiverHandleMkdir (dir : Option Received) : Sys Handled := storeOne st dir
def receiverHandleHardlink (file : Option Received) : Sys Handled := storeOne st file
def receiverHandleSymlink (file : Option Received) : Sys Handled := storeOne st file
def receiverHandleSpecial (file : Option Received) : Sys Handled := storeOne st file
def receiverHandleFile (file : Option Received) : Sys Handled := storeOne st file

def receiverHandleDirTimes (dirs : List Received) (complete : Bool) : Sys Handled :=
  pure ⟨st,dirs,if complete then .next else .error⟩

/-- A dry run lists what a real one would delete. -/
def dryManifest (manifest : DeleteManifest) : Sys Handled := do
  let listed ← (if cfg.useDelete then manifestWouldDeleteList pr cfg manifest else pure none)
  let st := { st with wouldDelete := st.wouldDelete++listed.getD [] }
  if configDeleteTimingEarly (deleteConfig cfg) then
    if ← send then pure ⟨st,[],.next⟩ else pure ⟨st,[],.fail⟩
  else pure ⟨st,[],.next⟩

def earlyManifest (manifest : DeleteManifest) : Sys Handled := do
  let deletion ← (if deletes cfg then commitManifest pr cfg manifest else pure .ok)
  let sent ← send
  if deletion = .error || !sent then pure ⟨st,[],.fail⟩
  else
    pure ⟨{ st with deleteLimitReached := st.deleteLimitReached || decide (deletion = .limitReached) },
      [],.next⟩

def lateManifest (manifest : DeleteManifest) : Handled :=
  if deletes cfg then
    if st.deferredManifest.isSome then ⟨{ st with deferredManifest := none },[],.fail⟩
    else ⟨{ st with deferredManifest := some manifest },[],.next⟩
  else ⟨st,[],.next⟩

def receiverHandleManifest (manifest : Option DeleteManifest) : Sys Handled :=
  match manifest with
  | none => pure ⟨st,[],.fail⟩
  | some manifest =>
    if cfg.dryRun then dryManifest pr cfg st manifest
    else if configDeleteTimingEarly (deleteConfig cfg) then earlyManifest pr cfg st manifest
    else pure (lateManifest cfg st manifest)

/-- The session is made by the first plan of a connection. -/
def planSession : DeletePlanSession := st.planSession.getD (deletePlanSessionCreate (deleteConfig cfg))

def receiverHandleDeletePlan (plan : Option PlanFrame) : Sys Handled :=
  if !configDeleteTimingPerDir (deleteConfig cfg) then pure ⟨st,[],.fail⟩
  else
    match plan with
    | none => pure ⟨{ st with planSession := some (planSession cfg st) },[],.fail⟩
    | some plan => do
      let r ← receivePlan pr cfg plan (planSession cfg st)
      pure ⟨{ st with
          planSession := some r.1
          deleteLimitReached := st.deleteLimitReached || (r.2 && r.1.limitHit) },
        [],if r.2 then .next else .fail⟩

def receiverDispatchStatus : Frame → Sys Handled
  | .keepalive => receiverHandleKeepalive st
  | .abort => receiverHandleAbort st
  | .check request => receiverHandleCheck pr cfg st request
  | .chunk files => receiverHandleChunk st files
  | .checkBatch entries complete => receiverHandleCheckBatch pr cfg st entries complete
  | .mkdir dir => receiverHandleMkdir st dir
  | .dirTimes dirs complete => receiverHandleDirTimes st dirs complete
  | .hardlink file => receiverHandleHardlink st file
  | .symlink file => receiverHandleSymlink st file
  | .special file => receiverHandleSpecial st file
  | .manifest manifest => receiverHandleManifest pr cfg st manifest
  | .deletePlan plan => receiverHandleDeletePlan pr cfg st plan
  | .file file => receiverHandleFile st file

end Handlers

section Saving

def dirMetadataShouldCapture : Bool :=
  cfg.useMetadata && (cfg.preservePerms || (cfg.preserveTimes && !cfg.omitDirTimes) ||
    cfg.preserveOwner || cfg.preserveGroup || cfg.preserveXattrs || cfg.preserveAcls)

def noteFailed (result : FileSaveResult) (ctx : SaveContext) : SaveContext :=
  if result = .failed then { ctx with failedEntries := ctx.failedEntries+1 } else ctx

def noteDirTime (file : File) (ctx : SaveContext) : SaveContext :=
  match file.metadata with
  | some m =>
    if file.isDir && dirMetadataShouldCapture cfg then
      { ctx with dirTimes := ctx.dirTimes++[⟨file.path,m.mode,file.xattrs⟩] }
    else ctx
  | none => ctx

/-- A dry run acknowledges nothing. -/
def noteOutcome (r : Received) (result : FileSaveResult) (ctx : SaveContext) : SaveContext :=
  if !cfg.dryRun && cfg.removeSourceFiles && !r.file.isDir && !r.file.isSpecial && !r.skip then
    { ctx with outcomes := ctx.outcomes++[result] }
  else ctx

def receiverSaveFile (r : Received) (ctx : SaveContext) : Sys (SaveContext × Bool) := do
  let result ← (if cfg.dryRun then pure .skipped
    else if !cfg.saveToDisk then pure .skipped
    else fileSaveToDiskFullEx pr cfg.toConfig cfg.receiveRootDirectory r.file)
  let ctx := noteFailed result ctx
  if result = .error then pure (ctx,false)
  else pure (noteOutcome cfg r result (noteDirTime cfg r.file ctx),true)

def storeEach : List Received → SaveContext → Sys (SaveContext × Bool)
  | [], ctx => pure (ctx,true)
  | r::rs, ctx => do
    let saved ← receiverSaveFile pr cfg r ctx
    if saved.2 then storeEach rs saved.1 else pure saved

end Saving

section Completion

def publishDelayed : Sys Bool := fun w =>
  if cfg.delayUpdates && w.delayContext.isSome then
    delayUpdatesPublish pr cfg.toConfig cfg.receiveRootDirectory w
  else (true,w)

def receiverSendStatsFrame : Sys Bool := if cfg.reportStats then send else pure true

def receiverSendFinalSuccess : Sys Bool := send

def commitDeferredManifest (st : Pending) : Sys Bool :=
  match st.deferredManifest with
  | none => pure true
  | some manifest => do
    let deletion ← commitManifest pr cfg manifest
    pure (decide (deletion ≠ .error))

def commitDeferredPlans (st : Pending) : Sys Bool :=
  match st.planSession with
  | none => pure true
  | some session =>
    if cfg.dryRun then pure true
    else do
      let deletion ← commitPlans pr cfg session
      pure (decide (deletion ≠ .error))

/-- Publishes the staged files, then sets the times of the directories. -/
def completeTransfer (ctx : SaveContext) : Sys Bool := do
  if ← publishDelayed pr cfg then
    dirMetadataListApply pr cfg.toConfig cfg.receiveRootDirectory ctx.dirTimes
    pure true
  else pure false

end Completion

section SingleThreaded

/-- The receive loop up to the end of the stream; `none` when it fails. A list
of events that stops short is a disconnect. -/
def receiverProcess :
    List Event → Option Clock → Pending → SaveContext → Sys (Option (Pending × SaveContext))
  | [], _, _, _ => pure none
  | ev::evs, clock, st, ctx =>
    match receiverNoteStatus clock ev with
    | none => pure none
    | some clock =>
      match ev.message with
      | .finished => pure (some (st,ctx))
      | .unexpected => pure none
      | .frame frame => do
        let handled ← receiverDispatchStatus pr cfg st frame
        let stored ← storeEach pr cfg handled.files ctx
        if stored.2 && decide (handled.step = .next) then
          receiverProcess evs (some clock) handled.pending stored.1
        else pure none

def receiverSendSuccessFrame (ctx : SaveContext) : Sys Bool := do
  if ← receiverSendStatsFrame cfg then
    if cfg.dryRun then receiverSendFinalSuccess
    else if ← completeTransfer pr cfg ctx then receiverSendFinalSuccess
    else pure false
  else pure false

def receiverFinish (st : Pending) (ctx : SaveContext) : Sys Bool := do
  if ← commitDeferredManifest pr cfg st then
    if ← commitDeferredPlans pr cfg st then receiverSendSuccessFrame pr cfg ctx else pure false
  else pure false

def delayUpdatesCleanup : Sys Unit := fun w =>
  match w.delayContext with
  | none => ((),w)
  | some context =>
    if context.prepared then ((),(delayUpdatesRemoveStagingTree cfg.receiveRootDirectory w).2)
    else ((),w)

def receiverReceiveFiles (events : List Event) : Sys Unit := do
  let finished ← receiverProcess pr cfg events none pendingStart contextStart
  let ok ← (match finished with
    | none => pure false
    | some (st,ctx) => receiverFinish pr cfg st ctx)
  if !ok && cfg.delayUpdates then delayUpdatesCleanup cfg else pure ()

end SingleThreaded

section MultiThreaded

inductive ReceiveThread where
  | reading
  | storing (files : List Received) (step : ReceiverStep)
  | ended (ok : Bool)

inductive WriteThread where
  | absent
  | running
  | ended (ok : Bool)
deriving DecidableEq, Repr

structure Pipeline where
  events : List Event
  clock : Option Clock
  pending : Pending
  receiver : ReceiveThread
  writer : WriteThread
  queue : List Received
  cancelled : Bool
  receiverDone : Bool
  context : SaveContext

/-- Who moves next; without a writer the receiver is cancelled at some time. -/
inductive Turn where
  | receive
  | write
  | cancel
deriving DecidableEq, Repr

def pipelineStart (events : List Event) (writer : WriteThread) : Pipeline :=
  ⟨events,none,pendingStart,.reading,writer,[],false,false,contextStart⟩

/-- What is put off is dropped with a failed stream. -/
def receiverThreadFail (p : Pipeline) : Pipeline :=
  { p with
    receiver := .ended false
    pending := { p.pending with deferredManifest := none, planSession := none }
    cancelled := true
    receiverDone := true }

def readMessage (p : Pipeline) (ev : Event) (evs : List Event) : Sys Pipeline :=
  match receiverNoteStatus p.clock ev with
  | none => pure (receiverThreadFail p)
  | some clock =>
    match ev.message with
    | .finished => pure { p with events := evs, receiver := .ended true, receiverDone := true }
    | .unexpected => pure (receiverThreadFail p)
    | .frame frame => do
      let handled ← receiverDispatchStatus pr cfg p.pending frame
      pure { p with
        events := evs
        clock := some clock
        pending := handled.pending
        receiver := .storing handled.files handled.step }

/-- The entries of a frame are queued one by one. -/
def receiveTurn (p : Pipeline) : Sys Pipeline :=
  match p.receiver with
  | .ended _ => pure p
  | .storing (r::rs) step =>
    if p.cancelled then pure (receiverThreadFail p)
    else pure { p with queue := p.queue++[r], receiver := .storing rs step }
  | .storing [] step =>
    if step = .next then pure { p with receiver := .reading } else pure (receiverThreadFail p)
  | .reading =>
    match p.events with
    | [] => pure (receiverThreadFail p)
    | ev::evs => readMessage pr cfg p ev evs

/-- The writer in a dry run takes the entries off the queue and forgets them. -/
def writeFile (r : Received) (p : Pipeline) : Sys Pipeline := do
  let result ← (if cfg.saveToDisk && !cfg.dryRun then
      fileSaveToDiskFullEx pr cfg.toConfig cfg.receiveRootDirectory r.file
    else pure .skipped)
  let ctx := noteFailed result p.context
  if result = .error then
    pure { p with writer := .ended false, cancelled := true, receiverDone := true, context := ctx }
  else
    pure { p with
      context := noteOutcome cfg r result (if cfg.dryRun then ctx else noteDirTime cfg r.file ctx) }

def writeTurn (p : Pipeline) : Sys Pipeline :=
  match p.writer with
  | .running =>
    match p.queue with
    | [] => pure (if p.receiverDone then { p with writer := .ended true } else p)
    | r::rs => writeFile pr cfg r { p with queue := rs }
  | _ => pure p

def takeTurn (turn : Turn) (p : Pipeline) : Sys Pipeline :=
  match turn with
  | .receive => receiveTurn pr cfg p
  | .write => writeTurn pr cfg p
  | .cancel => pure (if p.writer = .absent then { p with cancelled := true } else p)

/-- Both commits run, and the publication only when both succeed. -/
def commitPipeline (p : Pipeline) : Sys Bool := do
  let manifestOk ← commitDeferredManifest pr cfg p.pending
  let plansOk ← commitDeferredPlans pr cfg p.pending
  if manifestOk && plansOk then completeTransfer pr cfg p.context else pure false

def joinPipeline (p : Pipeline) (transferOk : Bool) : Sys Unit := do
  let ok ← (if transferOk && !cfg.dryRun then commitPipeline pr cfg p else pure transferOk)
  if ok then do
    if ← receiverSendStatsFrame cfg then do
      let _ ← receiverSendFinalSuccess
      pure ()
    else pure ()
  else do
    let _ ← send
    pure ()

/-- The flag says that no thread runs any more. -/
def serverRunMtReceiver (events : List Event) (schedule : List Turn) : Sys Bool := do
  if ← granted then
    let writer ← granted
    let p ← fold (takeTurn pr cfg) schedule
      (pipelineStart events (if writer then .running else .absent))
    match p.receiver, p.writer with
    | .ended receiverOk, .ended writerOk => do
      joinPipeline pr cfg p (receiverOk && writerOk)
      pure true
    | .ended _, .absent => pure true
    | _, _ => pure false
  else pure true

end MultiThreaded

section Connection

/-- The policy of the operator, and what is known of the peer. -/
structure Server where
  daemon : Bool
  allowDelete : Bool
  allowUnauthenticated : Bool
  tls : Bool
  identityAllowed : Bool
deriving DecidableEq, Repr

variable (srv : Server)

/-- The destination is joined to the authorized root and has to stay below it. -/
def serverApplySecurityGates : Option SessionConfig :=
  match pr.authorizedRoot with
  | none => none
  | some root =>
    let absolute := decide (cfg.receiveRootDirectory.head? = some slash)
    let destination := if absolute then cfg.receiveRootDirectory
      else pathCat (absPath root) cfg.receiveRootDirectory
    if !srv.allowUnauthenticated && !srv.tls then none
    else if srv.tls && !srv.identityAllowed then none
    else if srv.daemon && absolute then none
    else if hasPathTraversal destination || !pathIsWithinRoot (absPath root) destination then none
    else some { cfg with
      receiveRootDirectory := destination
      useDelete := cfg.useDelete && srv.allowDelete
      forceDelete := cfg.forceDelete && srv.allowDelete }

def receiveRootExists : Sys Bool := fileDirectoryExistsSecure pr cfg.receiveRootDirectory

def ensureReceiveRoot : Sys Bool :=
  if cfg.mkpath then fileEnsureDirectorySecure pr cfg.receiveRootDirectory
  else receiveRootExists pr cfg

def prepareStaging : Sys Bool := do
  setContext ⟨false,[]⟩
  delayUpdatesPrepare pr cfg.receiveRootDirectory ⟨false,[]⟩

def serverPrepareSession : Sys Bool := do
  if ← (if cfg.dryRun then receiveRootExists pr cfg else ensureReceiveRoot pr cfg) then
    if ← (if cfg.delayUpdates && !cfg.dryRun then prepareStaging pr cfg else pure true) then
      -- the message of the day
      if srv.daemon then send else pure true
    else pure false
  else pure false

def serverRunTransfer (events : List Event) (schedule : List Turn) : Sys Bool :=
  if cfg.useMultithreading then serverRunMtReceiver pr cfg events schedule
  else do
    receiverReceiveFiles pr cfg events
    pure true

/-- The staging tree goes with the configuration. -/
def configDelete : Sys Unit := do
  delayUpdatesCleanup cfg
  fun w => ((), { w with delayContext := none })

def serveAccepted (events : List Event) (schedule : List Turn) : Sys Unit := do
  if ← serverPrepareSession pr cfg srv then
    if ← serverRunTransfer pr cfg events schedule then configDelete cfg else pure ()
  else configDelete cfg

/-- A connection from the acceptance of its configuration to its teardown, or
to the end of the schedule when its threads still run. -/
def handler (events : List Event) (schedule : List Turn) : Sys Unit :=
  match serverApplySecurityGates pr cfg srv with
  | none => configDelete cfg
  | some cfg =>
    serveAccepted pr { cfg with deleteMissingArgs := cfg.deleteMissingArgs && srv.allowDelete } srv
      events schedule

end Connection

end FastSync.ReceiverSession
