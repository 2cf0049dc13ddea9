import FastSync.HardLinks

/-!
# When the client asks for deletion

Two drivers send a transfer: one in a single thread, one as a pipeline of a
scanner, a loader and a sender thread. Both may scan the source up to three
times, to plan the deletion, to count the files for the progress output and to
send the data. A run is described by its trace: the scans, with whether they met
an I/O error, and the frames sent.
-/

set_option autoImplicit false

namespace FastSync.DeleteRequests
open HardLinks (DeleteTiming deletePerDir)

structure Config where
  useDelete : Bool
  timing : DeleteTiming
  deleteMissingArgs : Bool
  ignoreErrors : Bool
  showProgress : Bool
  changeLines : Bool
deriving DecidableEq, Repr

/-- What a scan of the source comes to: whether it skipped something it could
not read, whether it failed, and whether it found nothing to keep. -/
structure ScanResult where
  ioError : Bool
  failed : Bool
  empty : Bool
deriving DecidableEq, Repr

structure Scans where
  pathsOnly : ScanResult
  precount : ScanResult
  data : ScanResult
deriving DecidableEq, Repr

inductive Event where
  | scanned (ioError : Bool)
  | manifest
  | deletePlan
  | data
  | abort
  | dirTimes
  | finished
deriving DecidableEq, Repr

def isDeletion : Event → Bool
  | .manifest | .deletePlan => true
  | _ => false

def deleteEarly (cfg : Config) : Bool := cfg.useDelete && decide (cfg.timing = .before)

def deletePerDirectory (cfg : Config) : Bool := cfg.useDelete && deletePerDir cfg.timing

def ignoreErrorsAllowsDelete (cfg : Config) (hadIoError : Bool) : Bool :=
  !hadIoError || cfg.ignoreErrors

/-- The count for the progress output takes a walk of its own unless the planned
directories serve. Its scanner's I/O error flag is dropped with the scanner. -/
def clientProgressPrepare (cfg : Config) (planDirs : Bool) (scans : Scans) : List Event :=
  if (cfg.showProgress || cfg.changeLines) && !(planDirs && !cfg.changeLines) then
    [.scanned scans.precount.ioError]
  else []

section Single

structure SendFilesState where
  hadScanIo : Bool
  manifest : Bool
  prescanChunks : Bool
  planDirs : Bool
deriving DecidableEq, Repr

inductive Turn where
  | abort
  | stop
  | loadFailed
  | sent
  | sendFailed
deriving DecidableEq, Repr

/-- What else happens in a run: the answers of the peer and of the system. -/
structure Outcomes where
  prepared : Bool
  requestOk : Bool
  scannerCreated : Bool
  turns : List Turn
  abortPending : Bool
  stopReached : Bool
  manifestOk : Bool
  dirTimesOk : Bool
deriving DecidableEq, Repr

def sendFilesPrepareDelete (cfg : Config) (scans : Scans) (requestOk : Bool) :
    List Event × Option SendFilesState :=
  let pre := scans.pathsOnly
  if deleteEarly cfg then
    if pre.failed || (pre.ioError && pre.empty) then ([.scanned pre.ioError], none)
    else if !ignoreErrorsAllowsDelete cfg pre.ioError then
      ([.scanned pre.ioError], some ⟨pre.ioError,false,true,false⟩)
    else ([.scanned pre.ioError, .manifest],
      if requestOk then some ⟨pre.ioError,false,true,false⟩ else none)
  else if deletePerDirectory cfg then
    if pre.failed || (pre.ioError && pre.empty) then ([.scanned pre.ioError], none)
    else if !ignoreErrorsAllowsDelete cfg pre.ioError then
      ([.scanned pre.ioError], some ⟨pre.ioError,false,false,false⟩)
    else ([.scanned pre.ioError, .deletePlan],
      if requestOk then some ⟨pre.ioError,false,false,true⟩ else none)
  else ([], some ⟨false,cfg.useDelete,false,false⟩)

/-- The frames of the streaming loop and, unless it failed, whether the stop
deadline ended it. -/
def runTurns : List Turn → List Event × Option Bool
  | [] => ([], some false)
  | .abort::_ => ([.abort], none)
  | .stop::_ => ([], some true)
  | .loadFailed::_ => ([], none)
  | .sendFailed::_ => ([.data], none)
  | .sent::turns => (.data::(runTurns turns).1, (runTurns turns).2)

def sendFilesRun (cfg : Config) (scans : Scans) (out : Outcomes) (state : SendFilesState) :
    List Event × Option Bool :=
  let counted := clientProgressPrepare cfg state.planDirs scans
  if state.prescanChunks then (counted++(runTurns out.turns).1, (runTurns out.turns).2)
  else if !out.scannerCreated then (counted, none)
  else (counted++.scanned scans.data.ioError::(runTurns out.turns).1, (runTurns out.turns).2)

def completion (dirTimesOk : Bool) : List Event :=
  if dirTimesOk then [.dirTimes, .finished] else [.dirTimes]

def sendFilesFinalize (cfg : Config) (scans : Scans) (out : Outcomes) (state : SendFilesState)
    (scanStoppedEarly : Bool) : List Event :=
  if !state.prescanChunks && scans.data.failed then []
  else
    let hadScanIo := state.hadScanIo || (!state.prescanChunks && scans.data.ioError)
    if out.abortPending then [.abort]
    else if scanStoppedEarly || out.stopReached then completion out.dirTimesOk
    else if hadScanIo && state.manifest && scans.data.empty then []
    else
      let lateDelete := (state.manifest || cfg.deleteMissingArgs) && !deleteEarly cfg &&
        !deletePerDirectory cfg
      if lateDelete && !ignoreErrorsAllowsDelete cfg hadScanIo then completion out.dirTimesOk
      else if lateDelete then
        .manifest::(if out.manifestOk then completion out.dirTimesOk else [])
      else completion out.dirTimesOk

def sendFiles (cfg : Config) (scans : Scans) (out : Outcomes) : List Event :=
  if !out.prepared then []
  else
    let prepared := sendFilesPrepareDelete cfg scans out.requestOk
    match prepared.2 with
    | none => prepared.1
    | some state =>
      let sent := sendFilesRun cfg scans out state
      match sent.2 with
      | none => prepared.1++sent.1
      | some stopped => prepared.1++sent.1++sendFilesFinalize cfg scans out state stopped

end Single

section Pipelined

structure Context where
  manifest : Bool
  deletePlans : Bool
  earlyDelete : Bool
  deleteSuppressed : Bool
  scanHadIoError : Bool
  prescanChunks : Bool
deriving DecidableEq, Repr

/-- The part of `send_files_multithreaded` before its threads start. -/
def prepareContext (cfg : Config) (scans : Scans) : List Event × Option Context :=
  let pre := scans.pathsOnly
  let perDir := deletePerDirectory cfg
  if deleteEarly cfg || perDir then
    if pre.failed || (pre.ioError && pre.empty) then ([.scanned pre.ioError], none)
    else if pre.ioError && !ignoreErrorsAllowsDelete cfg true then
      (.scanned pre.ioError::clientProgressPrepare cfg false scans,
        some ⟨false,false,false,true,pre.ioError,!perDir⟩)
    else
      (.scanned pre.ioError::clientProgressPrepare cfg perDir scans,
        some ⟨!perDir,perDir,!perDir,false,pre.ioError,!perDir⟩)
  else (clientProgressPrepare cfg false scans, some ⟨cfg.useDelete,false,false,false,false,false⟩)

inductive SenderThread where
  | starting
  | sending
  | ended
deriving DecidableEq, Repr

structure Pipeline where
  scanning : Bool
  scanError : Bool
  scanHadIoError : Bool
  scannerDone : Bool
  loaderDone : Bool
  cancelled : Bool
  sender : SenderThread
  trace : List Event
deriving DecidableEq, Repr

def pipelineCancel (s : Pipeline) : Pipeline :=
  {s with cancelled := true, scannerDone := true, loaderDone := true}

inductive Action where
  | scanError
  | scanEnds
  | loaderEnds
  | loaderFails
  | start (connected requestOk : Bool)
  | chunk (sent : Bool)
  | abort
  | stop (dirTimesOk : Bool)
  | finish (stopReached manifestOk dirTimesOk : Bool)
deriving DecidableEq, Repr

/-- The data scan of the scanner thread meets something it cannot read. A replay
of the pre-scan reads nothing. -/
def meetScanError (scans : Scans) (ctx : Context) (s : Pipeline) : Pipeline :=
  if s.scanning && !ctx.prescanChunks && scans.data.ioError && !s.scanError then
    {s with scanError := true, trace := s.trace++[.scanned true]}
  else s

/-- The scanner thread is through with the source. Its flag becomes visible
before it is marked done. -/
def endScan (scans : Scans) (ctx : Context) (s : Pipeline) : Pipeline :=
  if s.scanning && (ctx.prescanChunks || decide (s.scanError = scans.data.ioError)) then
    if !ctx.prescanChunks && scans.data.failed then pipelineCancel {s with scanning := false}
    else {s with
      scanning := false
      scanHadIoError := s.scanHadIoError || s.scanError
      scannerDone := true}
  else s

def startSender (ctx : Context) (connected requestOk : Bool) (s : Pipeline) : Pipeline :=
  if s.sender ≠ .starting then s
  else if !connected then pipelineCancel {s with sender := .ended}
  else if ctx.earlyDelete || ctx.deletePlans then
    let s := {s with trace := s.trace++[if ctx.earlyDelete then Event.manifest else Event.deletePlan]}
    if requestOk then {s with sender := .sending} else pipelineCancel {s with sender := .ended}
  else {s with sender := .sending}

def sendChunk (sent : Bool) (s : Pipeline) : Pipeline :=
  if s.sender ≠ .sending then s
  else if sent then {s with trace := s.trace++[.data]}
  else pipelineCancel {s with sender := .ended, trace := s.trace++[.data]}

def abortSender (s : Pipeline) : Pipeline :=
  if s.sender ≠ .sending then s
  else pipelineCancel {s with sender := .ended, trace := s.trace++[.abort]}

/-- The stop deadline: the tail runs without a deletion request. -/
def stopSender (dirTimesOk : Bool) (s : Pipeline) : Pipeline :=
  if s.sender ≠ .sending then s
  else pipelineCancel {s with sender := .ended, trace := s.trace++completion dirTimesOk}

/-- The completion tail of the sender thread: the deletion request, if any, and
whether the run goes on. -/
def tailRequest (cfg : Config) (scans : Scans) (ctx : Context) (stopReached manifestOk : Bool)
    (s : Pipeline) : List Event × Bool :=
  if stopReached then ([], true)
  else if cfg.useDelete && !ctx.earlyDelete && !ctx.deletePlans && !ctx.deleteSuppressed then
    if s.scanHadIoError && ctx.manifest && scans.data.empty then ([], false)
    else if !ignoreErrorsAllowsDelete cfg s.scanHadIoError then ([], true)
    else ([.manifest], manifestOk)
  else if cfg.deleteMissingArgs && !ctx.earlyDelete && !ctx.deleteSuppressed && !ctx.deletePlans then
    ([.manifest], manifestOk)
  else ([], true)

def finishSender (cfg : Config) (scans : Scans) (ctx : Context)
    (stopReached manifestOk dirTimesOk : Bool) (s : Pipeline) : Pipeline :=
  if s.sender ≠ .sending ∨ s.loaderDone = false then s
  else if s.cancelled then {s with sender := .ended}
  else
    let r := tailRequest cfg scans ctx stopReached manifestOk s
    {s with
      sender := .ended
      trace := s.trace++r.1++(if r.2 then completion dirTimesOk else [])}

/-- A thread that cannot move leaves the pipeline as it is. -/
def step (cfg : Config) (scans : Scans) (ctx : Context) (s : Pipeline) : Action → Pipeline
  | .scanError => meetScanError scans ctx s
  | .scanEnds => endScan scans ctx s
  | .loaderEnds => if s.scannerDone then {s with loaderDone := true} else s
  | .loaderFails => pipelineCancel s
  | .start connected requestOk => startSender ctx connected requestOk s
  | .chunk sent => sendChunk sent s
  | .abort => abortSender s
  | .stop dirTimesOk => stopSender dirTimesOk s
  | .finish stopReached manifestOk dirTimesOk =>
    finishSender cfg scans ctx stopReached manifestOk dirTimesOk s

def startPipeline (ctx : Context) (trace : List Event) : Pipeline :=
  ⟨true,false,ctx.scanHadIoError,false,false,false,.starting,trace⟩

def sendFilesMultithreaded (cfg : Config) (scans : Scans) (schedule : List Action) : List Event :=
  let prepared := prepareContext cfg scans
  match prepared.2 with
  | none => prepared.1
  | some ctx => (schedule.foldl (step cfg scans ctx) (startPipeline ctx prepared.1)).trace

end Pipelined

inductive Driver where
  | single
  | pipelined
deriving DecidableEq, Repr

def Possible (cfg : Config) (scans : Scans) : Driver → List Event → Prop
  | .single, trace => ∃ out, trace = sendFiles cfg scans out
  | .pipelined, trace => ∃ schedule, trace = sendFilesMultithreaded cfg scans schedule

/-- No deletion request follows a scan that met an I/O error. -/
def Suppressed (trace : List Event) : Prop :=
  trace.Pairwise fun a b => a = .scanned true → isDeletion b = false

def precountErred (cfg : Config) (planDirs : Bool) (scans : Scans) : Prop :=
  Event.scanned true ∈ clientProgressPrepare cfg planDirs scans

/-- The runs in which a scan error does not stop the deletion. -/
def Leaks (cfg : Config) (scans : Scans) : Driver → Prop
  | .single =>
    (cfg.useDelete = true ∨ cfg.deleteMissingArgs = true) ∧ deleteEarly cfg = false ∧
      deletePerDirectory cfg = false ∧ precountErred cfg false scans ∧
      scans.data.ioError = false ∧ scans.data.failed = false
  | .pipelined =>
    if deleteEarly cfg || deletePerDirectory cfg then
      scans.pathsOnly.failed = false ∧ scans.pathsOnly.ioError = false ∧
        (precountErred cfg (deletePerDirectory cfg) scans ∨
          (deletePerDirectory cfg = true ∧ scans.data.ioError = true))
    else if cfg.useDelete then
      scans.data.failed = false ∧ precountErred cfg false scans ∧ scans.data.ioError = false
    else cfg.deleteMissingArgs = true ∧ scans.data.failed = false ∧
      (precountErred cfg false scans ∨ scans.data.ioError = true)

variable {t u : List Event}

section Traces

def Quiet (trace : List Event) : Prop := ∀ e ∈ trace, isDeletion e = false

theorem suppressed_append :
    Suppressed (t++u) ↔ Suppressed t ∧ Suppressed u ∧ (.scanned true ∈ t → Quiet u) := by
  unfold Suppressed
  rw [List.pairwise_append]
  refine and_congr_right fun _ => and_congr_right fun _ => ⟨?_,?_⟩
  · exact fun h herr e he => h _ herr e he rfl
  · rintro h a ha e he rfl
    exact h ha e he

theorem quiet_append : Quiet (t++u) ↔ Quiet t ∧ Quiet u :=
  List.forall_mem_append

theorem quiet_suppressed (h : Quiet t) : Suppressed t :=
  List.pairwise_of_forall_mem_list fun _ _ b hb _ => h b hb

/-- Neither a deletion nor a scan that met an error. -/
def Plain (trace : List Event) : Prop := ∀ e ∈ trace, isDeletion e = false ∧ e ≠ .scanned true

theorem plain_quiet (h : Plain t) : Quiet t := fun e he => (h e he).1

theorem plain_unscanned (h : Plain t) : .scanned true ∉ t := fun he => (h _ he).2 rfl

theorem completion_plain (ok : Bool) : Plain (completion ok) := by
  cases ok <;> simp [Plain,completion,isDeletion]

theorem unscanned_suppressed (h : .scanned true ∉ t) : Suppressed t := by
  refine List.pairwise_of_forall_mem_list fun a ha b _ herr => ?_
  rw [herr] at ha
  exact absurd ha h

theorem runTurns_plain (turns : List Turn) : Plain (runTurns turns).1 := by
  induction turns with
  | nil => simp [runTurns,Plain]
  | cons turn turns ih =>
    cases turn with
    | sent => exact List.forall_mem_cons.mpr ⟨by simp [isDeletion],ih⟩
    | _ => simp [runTurns,Plain,isDeletion]

theorem clientProgressPrepare_quiet (cfg : Config) (planDirs : Bool) (scans : Scans) :
    Quiet (clientProgressPrepare cfg planDirs scans) := by
  unfold clientProgressPrepare
  split <;> simp [Quiet,isDeletion]

theorem sendFilesRun_quiet (cfg : Config) (scans : Scans) (out : Outcomes) (state : SendFilesState) :
    Quiet (sendFilesRun cfg scans out state).1 := by
  have hp := clientProgressPrepare_quiet cfg state.planDirs scans
  have ht := plain_quiet (runTurns_plain out.turns)
  unfold sendFilesRun
  split_ifs
  · exact quiet_append.mpr ⟨hp,ht⟩
  · exact hp
  · exact quiet_append.mpr ⟨hp,List.forall_mem_cons.mpr ⟨rfl,ht⟩⟩

end Traces

section SingleThread

variable {cfg : Config} {scans : Scans}

theorem ignoreErrorsAllowsDelete_eq (hignore : cfg.ignoreErrors = false) (io : Bool) :
    ignoreErrorsAllowsDelete cfg io = !io := by
  simp [ignoreErrorsAllowsDelete,hignore]

theorem prepareDelete_suppressed (hignore : cfg.ignoreErrors = false) (scans : Scans)
    (requestOk : Bool) : Suppressed (sendFilesPrepareDelete cfg scans requestOk).1 := by
  unfold sendFilesPrepareDelete
  cases hio : scans.pathsOnly.ioError <;>
    simp only [ignoreErrorsAllowsDelete_eq hignore,hio,Bool.not_true,Bool.not_false] <;>
    split_ifs <;> simp_all [Suppressed,isDeletion]

theorem prepareDelete_late (hearly : deleteEarly cfg = false)
    (hperdir : deletePerDirectory cfg = false) (requestOk : Bool) :
    sendFilesPrepareDelete cfg scans requestOk = ([], some ⟨false,cfg.useDelete,false,false⟩) := by
  simp [sendFilesPrepareDelete,hearly,hperdir]

theorem finalize_quiet (hignore : cfg.ignoreErrors = false) {out : Outcomes}
    {state : SendFilesState} {stopped : Bool}
    (h : ¬((state.manifest = true ∨ cfg.deleteMissingArgs = true) ∧ deleteEarly cfg = false ∧
      deletePerDirectory cfg = false ∧
      (state.prescanChunks = false → scans.data.failed = false ∧ scans.data.ioError = false))) :
    Quiet (sendFilesFinalize cfg scans out state stopped) := by
  have hc := plain_quiet (completion_plain out.dirTimesOk)
  unfold sendFilesFinalize
  simp only [ignoreErrorsAllowsDelete_eq hignore]
  split
  · simp [Quiet]
  next hdata =>
  split
  · simp [Quiet,isDeletion]
  split
  · exact hc
  split
  · simp [Quiet]
  split
  · exact hc
  next hio =>
  split
  · next hlate =>
    simp only [Bool.and_eq_true,Bool.or_eq_true,Bool.not_eq_true'] at hlate
    refine absurd ⟨hlate.1.1,hlate.1.2,hlate.2,fun hpre => ?_⟩ h
    simp_all
  · exact hc

theorem finalize_unscanned (cfg : Config) (scans : Scans) (out : Outcomes) (state : SendFilesState)
    (stopped : Bool) : .scanned true ∉ sendFilesFinalize cfg scans out state stopped := by
  have hc := plain_unscanned (completion_plain out.dirTimesOk)
  unfold sendFilesFinalize
  dsimp only
  split_ifs <;> simp [hc]

theorem sendFiles_suppressed (hignore : cfg.ignoreErrors = false) (hleak : ¬Leaks cfg scans .single)
    {out : Outcomes} : Suppressed (sendFiles cfg scans out) := by
  have hprep := prepareDelete_suppressed hignore scans out.requestOk
  unfold sendFiles
  split
  · simp [Suppressed]
  dsimp only
  split
  · exact hprep
  next state hstate =>
  have hrun := sendFilesRun_quiet cfg scans out state
  have hsent := suppressed_append.mpr ⟨hprep,quiet_suppressed hrun,fun _ => hrun⟩
  split
  · exact hsent
  next stopped _ =>
  by_cases hquiet : Quiet (sendFilesFinalize cfg scans out state stopped)
  · exact suppressed_append.mpr ⟨hsent,quiet_suppressed hquiet,fun _ => hquiet⟩
  -- the tail requests deletion, so nothing was scanned but for the count and the data
  obtain ⟨hmanifest, hearly, hperdir, hdata⟩ :=
    not_imp_comm.mp (finalize_quiet hignore) hquiet
  rw [prepareDelete_late hearly hperdir] at hstate hsent ⊢
  cases hstate
  obtain ⟨hfailed, hio⟩ := hdata rfl
  have hcount : .scanned true ∉ clientProgressPrepare cfg false scans :=
    fun h => hleak ⟨hmanifest,hearly,hperdir,h,hio,hfailed⟩
  refine unscanned_suppressed ?_
  have hturns := plain_unscanned (runTurns_plain out.turns)
  have hfinal := finalize_unscanned cfg scans out ⟨false,cfg.useDelete,false,false⟩ stopped
  unfold sendFilesRun
  cases out.scannerCreated <;> simp [hcount,hturns,hfinal,hio]

def smooth : Outcomes := ⟨true,true,true,[],false,false,true,true⟩

theorem sendFiles_leaks (hignore : cfg.ignoreErrors = false) (h : Leaks cfg scans .single) :
    ¬Suppressed (sendFiles cfg scans smooth) := by
  obtain ⟨hwanted, hearly, hperdir, hcount, hio, hfailed⟩ := h
  have htrace : sendFiles cfg scans smooth =
      clientProgressPrepare cfg false scans++[.scanned false, .manifest, .dirTimes, .finished] := by
    simp [sendFiles,smooth,prepareDelete_late hearly hperdir,sendFilesRun,runTurns,
      sendFilesFinalize,hio,hfailed,hearly,hperdir,hwanted,
      ignoreErrorsAllowsDelete_eq hignore,completion]
  rw [htrace]
  intro hs
  exact absurd ((suppressed_append.mp hs).2.2 hcount .manifest (by simp)) (by simp [isDeletion])

end SingleThread

section Pipeline

variable {cfg : Config} {scans : Scans} {ctx : Context} {before : List Event} {s : Pipeline}

/-- What holds throughout a pipelined run that started after the given events. -/
structure Ordered (scans : Scans) (ctx : Context) (before : List Event) (s : Pipeline) : Prop where
  suppressed : Suppressed s.trace
  errors : .scanned true ∈ s.trace → .scanned true ∈ before ∨ s.scanError = true
  erred : s.scanError = true → ctx.prescanChunks = false ∧ scans.data.ioError = true
  busy : s.cancelled = false → s.scanning = true → s.scannerDone = false
  unseen : s.scanning = true → s.scanHadIoError = ctx.scanHadIoError
  loaded : s.cancelled = false → s.loaderDone = true → s.scannerDone = true
  scanned : s.cancelled = false → s.scannerDone = true →
    s.scanHadIoError = (ctx.scanHadIoError || s.scanError) ∧
      (ctx.prescanChunks = false → s.scanError = scans.data.ioError ∧ scans.data.failed = false)

/-- No request may go out where the context still allows one. -/
structure Guarded (cfg : Config) (scans : Scans) (ctx : Context) (before : List Event) : Prop where
  early : (ctx.earlyDelete || ctx.deletePlans) = true → .scanned true ∉ before ∧
    (ctx.prescanChunks = true ∨ scans.data.ioError = false)
  late : (ctx.earlyDelete || ctx.deletePlans || ctx.deleteSuppressed) = false →
    ctx.prescanChunks = false
  keepSet : (ctx.earlyDelete || ctx.deletePlans || ctx.deleteSuppressed) = false →
    cfg.useDelete = true → scans.data.failed = false → scans.data.ioError = false →
      .scanned true ∉ before
  missing : (ctx.earlyDelete || ctx.deletePlans || ctx.deleteSuppressed) = false →
    cfg.useDelete = false → cfg.deleteMissingArgs = true → scans.data.failed = false →
      .scanned true ∉ before ∧ scans.data.ioError = false

section
variable (h : Ordered scans ctx before s)
include h

theorem ordered_cancel : Ordered scans ctx before (pipelineCancel s) :=
  ⟨h.suppressed,h.errors,h.erred,by simp [pipelineCancel],h.unseen,by simp [pipelineCancel],
    by simp [pipelineCancel]⟩

theorem ordered_sender {sender : SenderThread} : Ordered scans ctx before {s with sender := sender} :=
  ⟨h.suppressed,h.errors,h.erred,h.busy,h.unseen,h.loaded,h.scanned⟩

theorem ordered_append {sender : SenderThread} (hplain : Plain u) :
    Ordered scans ctx before {s with sender := sender, trace := s.trace++u} := by
  have hquiet := plain_quiet hplain
  refine ⟨suppressed_append.mpr ⟨h.suppressed,quiet_suppressed hquiet,fun _ => hquiet⟩,?_,h.erred,
    h.busy,h.unseen,h.loaded,h.scanned⟩
  intro herr
  exact h.errors ((List.mem_append.mp herr).resolve_right (plain_unscanned hplain))

theorem ordered_request {sender : SenderThread} (hnone : .scanned true ∉ s.trace)
    (hscan : .scanned true ∉ u) :
    Ordered scans ctx before {s with sender := sender, trace := s.trace++u} := by
  have hall : .scanned true ∉ s.trace++u := by simp [hnone,hscan]
  exact ⟨unscanned_suppressed hall,fun herr => absurd herr hall,h.erred,h.busy,h.unseen,h.loaded,
    h.scanned⟩

theorem ordered_meetScanError : Ordered scans ctx before (meetScanError scans ctx s) := by
  unfold meetScanError
  split
  · next hmeet =>
    simp only [Bool.and_eq_true,Bool.not_eq_true'] at hmeet
    obtain ⟨⟨⟨hscanning, hpre⟩, hio⟩, -⟩ := hmeet
    have hq : Quiet [.scanned true] := by simp [Quiet,isDeletion]
    refine ⟨suppressed_append.mpr ⟨h.suppressed,quiet_suppressed hq,fun _ => hq⟩,
      fun _ => Or.inr rfl,fun _ => ⟨hpre,hio⟩,h.busy,h.unseen,h.loaded,fun hc hd => ?_⟩
    exact absurd (h.busy hc hscanning) (by rw [hd]; decide)
  · exact h

theorem ordered_endScan : Ordered scans ctx before (endScan scans ctx s) := by
  unfold endScan
  split
  · next hend =>
    simp only [Bool.and_eq_true,Bool.or_eq_true,decide_eq_true_eq] at hend
    obtain ⟨hscanning, hwhole⟩ := hend
    split
    · refine ordered_cancel ⟨h.suppressed,h.errors,h.erred,?_,?_,h.loaded,h.scanned⟩
      · exact fun _ hs => by cases hs
      · exact fun hs => by cases hs
    · next hok =>
      refine ⟨h.suppressed,h.errors,h.erred,?_,?_,fun _ _ => rfl,fun _ _ => ⟨?_,fun hpre => ?_⟩⟩
      · exact fun _ hs => by cases hs
      · exact fun hs => by cases hs
      · change (s.scanHadIoError || s.scanError) = _
        rw [h.unseen hscanning]
      · rw [hpre] at hwhole hok
        exact ⟨hwhole.resolve_left (by decide),by simpa using hok⟩
  · exact h

end

theorem ordered_startSender (hg : Guarded cfg scans ctx before) (h : Ordered scans ctx before s)
    {connected requestOk : Bool} :
    Ordered scans ctx before (startSender ctx connected requestOk s) := by
  unfold startSender
  split
  · exact h
  split
  · exact ordered_cancel (ordered_sender h)
  split
  · next hwanted =>
    obtain ⟨hbefore, hdata⟩ := hg.early hwanted
    have hnone : .scanned true ∉ s.trace := by
      intro herr
      rcases h.errors herr with hb | he
      · exact hbefore hb
      · obtain ⟨hpre, hio⟩ := h.erred he
        rcases hdata with hd | hd
        · rw [hpre] at hd; cases hd
        · rw [hio] at hd; cases hd
    have hscan : .scanned true ∉ [if ctx.earlyDelete then Event.manifest else Event.deletePlan] := by
      cases ctx.earlyDelete <;> simp
    dsimp only
    split
    · exact ordered_request h hnone hscan
    · exact ordered_cancel (ordered_request h hnone hscan)
  · exact ordered_sender h

section
variable (hignore : cfg.ignoreErrors = false) (hg : Guarded cfg scans ctx before)
  (h : Ordered scans ctx before s)
include hignore hg h

theorem tailRequest_guarded (hcancel : s.cancelled = false) (hloaded : s.loaderDone = true)
    {stopReached manifestOk : Bool} :
    (tailRequest cfg scans ctx stopReached manifestOk s).1 = [] ∨
      ((tailRequest cfg scans ctx stopReached manifestOk s).1 = [.manifest] ∧
        .scanned true ∉ s.trace) := by
  obtain ⟨hflag, hscan⟩ := h.scanned hcancel (h.loaded hcancel hloaded)
  unfold tailRequest
  rw [ignoreErrorsAllowsDelete_eq hignore,hflag]
  split
  · exact .inl rfl
  split
  · next hkeep =>
    simp only [Bool.and_eq_true,Bool.not_eq_true'] at hkeep
    obtain ⟨⟨⟨huse, hearly⟩, hplans⟩, hsupp⟩ := hkeep
    have hlate : (ctx.earlyDelete || ctx.deletePlans || ctx.deleteSuppressed) = false := by
      simp [hearly,hplans,hsupp]
    obtain ⟨herr, hfailed⟩ := hscan (hg.late hlate)
    split
    · exact .inl rfl
    split
    · exact .inl rfl
    · next hio =>
      refine .inr ⟨rfl,fun hmem => ?_⟩
      simp only [Bool.not_not,Bool.or_eq_true,not_or,Bool.not_eq_true] at hio
      rcases h.errors hmem with hb | he
      · exact hg.keepSet hlate huse hfailed (by rw [← herr]; exact hio.2) hb
      · rw [he] at hio
        exact absurd hio.2 (by decide)
  · next hkeep =>
    split
    · next hmiss =>
      simp only [Bool.and_eq_true,Bool.not_eq_true'] at hmiss
      obtain ⟨⟨⟨hmissing, hearly⟩, hsupp⟩, hplans⟩ := hmiss
      have hlate : (ctx.earlyDelete || ctx.deletePlans || ctx.deleteSuppressed) = false := by
        simp [hearly,hplans,hsupp]
      have huse : cfg.useDelete = false := by simpa [hearly,hplans,hsupp] using hkeep
      obtain ⟨herr, hfailed⟩ := hscan (hg.late hlate)
      obtain ⟨hbefore, hio⟩ := hg.missing hlate huse hmissing hfailed
      refine .inr ⟨rfl,fun hmem => ?_⟩
      rcases h.errors hmem with hb | he
      · exact hbefore hb
      · rw [herr,hio] at he
        cases he
    · exact .inl rfl

theorem ordered_finishSender {stopReached manifestOk dirTimesOk : Bool} :
    Ordered scans ctx before (finishSender cfg scans ctx stopReached manifestOk dirTimesOk s) := by
  unfold finishSender
  split
  · exact h
  next hready =>
  split
  · exact ordered_sender h
  next hcancel =>
  have hloaded : s.loaderDone = true := by simp_all
  have htail : Plain (if (tailRequest cfg scans ctx stopReached manifestOk s).2 = true then
      completion dirTimesOk else []) := by
    split
    · exact completion_plain _
    · simp [Plain]
  dsimp only
  rw [List.append_assoc]
  rcases tailRequest_guarded hignore hg h (by simpa using hcancel) hloaded
    with hr | ⟨hr, hnone⟩
  · rw [hr]
    exact ordered_append h htail
  · rw [hr]
    exact ordered_request h hnone (by simp [plain_unscanned htail])

theorem ordered_step {action : Action} :
    Ordered scans ctx before (step cfg scans ctx s action) := by
  cases action with
  | scanError => exact ordered_meetScanError h
  | scanEnds => exact ordered_endScan h
  | loaderEnds =>
    rw [step]
    split
    · next hdone => exact ⟨h.suppressed,h.errors,h.erred,h.busy,h.unseen,fun _ _ => hdone,h.scanned⟩
    · exact h
  | loaderFails => exact ordered_cancel h
  | start connected requestOk => exact ordered_startSender hg h
  | chunk sent =>
    rw [step,sendChunk]
    have hd : Plain [Event.data] := by simp [Plain,isDeletion]
    split
    · exact h
    split
    · exact ordered_append h hd
    · exact ordered_cancel (ordered_append h hd)
  | abort =>
    rw [step,abortSender]
    split
    · exact h
    · exact ordered_cancel (ordered_append h (by simp [Plain,isDeletion]))
  | stop dirTimesOk =>
    rw [step,stopSender]
    split
    · exact h
    · exact ordered_cancel (ordered_append h (completion_plain _))
  | finish stopReached manifestOk dirTimesOk =>
    exact ordered_finishSender hignore hg h

theorem ordered_run {schedule : List Action} :
    Ordered scans ctx before (schedule.foldl (step cfg scans ctx) s) := by
  induction schedule generalizing s with
  | nil => exact h
  | cons action schedule ih => exact ih (ordered_step hignore hg h)

end

theorem prepareContext_quiet (cfg : Config) (scans : Scans) :
    Quiet (prepareContext cfg scans).1 := by
  have hprogress := clientProgressPrepare_quiet cfg
  have hscan : Quiet [.scanned scans.pathsOnly.ioError] := by simp [Quiet,isDeletion]
  unfold prepareContext
  dsimp only
  split_ifs
  · exact hscan
  · exact quiet_append.mpr ⟨hscan,hprogress false scans⟩
  · exact quiet_append.mpr ⟨hscan,hprogress _ scans⟩
  · exact hprogress false scans

theorem prepareContext_early (hmode : (deleteEarly cfg || deletePerDirectory cfg) = true)
    (hfailed : scans.pathsOnly.failed = false) (hio : scans.pathsOnly.ioError = false) :
    prepareContext cfg scans =
      (.scanned false::clientProgressPrepare cfg (deletePerDirectory cfg) scans,
        some ⟨!deletePerDirectory cfg,deletePerDirectory cfg,!deletePerDirectory cfg,false,false,
          !deletePerDirectory cfg⟩) := by
  unfold prepareContext
  simp [hmode,hfailed,hio]

theorem prepareContext_late (hmode : (deleteEarly cfg || deletePerDirectory cfg) = false) :
    prepareContext cfg scans = (clientProgressPrepare cfg false scans,
      some ⟨cfg.useDelete,false,false,false,false,false⟩) := by
  unfold prepareContext
  simp [hmode]

section
variable (hignore : cfg.ignoreErrors = false)
include hignore

theorem prepareContext_erred (hmode : (deleteEarly cfg || deletePerDirectory cfg) = true)
    (hbad : ¬(scans.pathsOnly.failed = false ∧ scans.pathsOnly.ioError = false))
    (hctx : (prepareContext cfg scans).2 = some ctx) :
    ctx.deleteSuppressed = true ∧ (ctx.earlyDelete || ctx.deletePlans) = false := by
  unfold prepareContext at hctx
  simp only [hmode,if_true,ignoreErrorsAllowsDelete_eq hignore] at hctx
  split at hctx
  · cases hctx
  next hok =>
  split at hctx
  · cases hctx
    exact ⟨rfl,rfl⟩
  · next hio => simp_all

theorem prepareContext_guarded (hleak : ¬Leaks cfg scans .pipelined)
    (hctx : (prepareContext cfg scans).2 = some ctx) :
    Guarded cfg scans ctx (prepareContext cfg scans).1 := by
  rw [Leaks] at hleak
  cases hmode : deleteEarly cfg || deletePerDirectory cfg with
  | true =>
    rw [if_pos hmode] at hleak
    by_cases hgood : scans.pathsOnly.failed = false ∧ scans.pathsOnly.ioError = false
    · have hnone : ¬precountErred cfg (deletePerDirectory cfg) scans ∧
          ¬(deletePerDirectory cfg = true ∧ scans.data.ioError = true) :=
        not_or.mp fun h => hleak ⟨hgood.1,hgood.2,h⟩
      rw [prepareContext_early hmode hgood.1 hgood.2] at hctx ⊢
      cases hctx
      refine ⟨fun _ => ⟨?_,?_⟩,by simp,by simp,by simp⟩
      · simpa [precountErred] using hnone.1
      · have hdata := hnone.2
        cases hp : deletePerDirectory cfg <;> simp_all
    · obtain ⟨hsupp, hoff⟩ := prepareContext_erred hignore hmode hgood hctx
      exact ⟨by simp [hoff],by simp [hsupp],by simp [hsupp],by simp [hsupp]⟩
  | false =>
    rw [prepareContext_late hmode] at hctx ⊢
    cases hctx
    simp only [hmode,Bool.false_eq_true,if_false] at hleak
    refine ⟨by simp,fun _ => rfl,fun _ huse hfailed hio herr => ?_,
      fun _ huse hmissing hfailed => ?_⟩
    · rw [if_pos huse] at hleak
      exact hleak ⟨hfailed,herr,hio⟩
    · rw [huse,if_neg (by decide)] at hleak
      have hnone := not_or.mp fun h => hleak ⟨hmissing,hfailed,h⟩
      exact ⟨hnone.1,by simpa using hnone.2⟩

theorem sendFilesMultithreaded_suppressed (hleak : ¬Leaks cfg scans .pipelined)
    {schedule : List Action} : Suppressed (sendFilesMultithreaded cfg scans schedule) := by
  have hquiet := prepareContext_quiet cfg scans
  unfold sendFilesMultithreaded
  dsimp only
  split
  · exact quiet_suppressed hquiet
  · next ctx hctx =>
    have hstart : Ordered scans ctx (prepareContext cfg scans).1
        (startPipeline ctx (prepareContext cfg scans).1) :=
      ⟨quiet_suppressed hquiet,.inl,nofun,fun _ _ => rfl,fun _ => rfl,nofun,nofun⟩
    exact (ordered_run hignore (prepareContext_guarded hignore hleak hctx) hstart).suppressed

end

theorem not_suppressed (herr : .scanned true ∈ t) {e : Event} (he : e ∈ u)
    (hdel : isDeletion e = true) : ¬Suppressed (t++u) := by
  intro h
  have hq := (suppressed_append.mp h).2.2 herr e he
  rw [hdel] at hq
  cases hq

theorem early_trace (hmode : (deleteEarly cfg || deletePerDirectory cfg) = true)
    (hfailed : scans.pathsOnly.failed = false) (hio : scans.pathsOnly.ioError = false) :
    sendFilesMultithreaded cfg scans [.scanError, .start true true] =
      (.scanned false::clientProgressPrepare cfg (deletePerDirectory cfg) scans++
        (if deletePerDirectory cfg && scans.data.ioError then [.scanned true] else []))++
        [if deletePerDirectory cfg then .deletePlan else .manifest] := by
  unfold sendFilesMultithreaded
  rw [prepareContext_early hmode hfailed hio]
  cases hp : deletePerDirectory cfg <;> cases hd : scans.data.ioError <;>
    simp [step,meetScanError,startPipeline,startSender,hd]

theorem late_trace (hmode : (deleteEarly cfg || deletePerDirectory cfg) = false)
    (hfailed : scans.data.failed = false) :
    ∃ s : Pipeline, s.scanHadIoError = scans.data.ioError ∧
      sendFilesMultithreaded cfg scans
        [.scanError, .start true true, .scanEnds, .loaderEnds, .finish false true true] =
      (clientProgressPrepare cfg false scans++
        (if scans.data.ioError then [.scanned true] else []))++
        ((tailRequest cfg scans ⟨cfg.useDelete,false,false,false,false,false⟩ false true s).1++
          (if (tailRequest cfg scans ⟨cfg.useDelete,false,false,false,false,false⟩ false true s).2
            then completion true else [])) := by
  unfold sendFilesMultithreaded
  rw [prepareContext_late hmode]
  cases hd : scans.data.ioError
  · refine ⟨⟨false,false,false,true,true,false,.sending,clientProgressPrepare cfg false scans⟩,rfl,?_⟩
    simp [step,meetScanError,startPipeline,startSender,endScan,finishSender,hd,hfailed]
  · refine ⟨⟨false,true,true,true,true,false,.sending,
      clientProgressPrepare cfg false scans++[.scanned true]⟩,rfl,?_⟩
    simp [step,meetScanError,startPipeline,startSender,endScan,finishSender,hd,hfailed]

/-- Each condition of `Leaks` is met by a schedule whose data scan runs into its
error, if it has one, before the sender starts. -/
theorem sendFilesMultithreaded_leaks (h : Leaks cfg scans .pipelined) :
    ∃ schedule, ¬Suppressed (sendFilesMultithreaded cfg scans schedule) := by
  rw [Leaks] at h
  cases hmode : deleteEarly cfg || deletePerDirectory cfg with
  | true =>
    rw [if_pos hmode] at h
    obtain ⟨hfailed, hio, hwhy⟩ := h
    refine ⟨[.scanError, .start true true],?_⟩
    rw [early_trace hmode hfailed hio]
    refine not_suppressed ?_ (List.mem_singleton_self _) (by split <;> rfl)
    rcases hwhy with hcount | ⟨hp, hd⟩
    · exact List.mem_append_left _ (List.mem_cons_of_mem _ hcount)
    · simp [hp,hd]
  | false =>
    simp only [hmode,Bool.false_eq_true,if_false] at h
    refine ⟨[.scanError, .start true true, .scanEnds, .loaderEnds, .finish false true true],?_⟩
    split at h
    · next huse =>
      obtain ⟨hfailed, hcount, hio⟩ := h
      obtain ⟨s, hflag, htrace⟩ := late_trace hmode hfailed
      rw [htrace]
      refine not_suppressed (e := .manifest) (List.mem_append_left _ hcount) ?_ rfl
      rw [hio] at hflag
      simp [tailRequest,huse,hflag,ignoreErrorsAllowsDelete]
    · next huse =>
      obtain ⟨hmissing, hfailed, hwhy⟩ := h
      obtain ⟨s, hflag, htrace⟩ := late_trace hmode hfailed
      rw [htrace]
      refine not_suppressed (e := .manifest) ?_ ?_ rfl
      · rcases hwhy with hcount | hio
        · exact List.mem_append_left _ hcount
        · simp [hio]
      · simp [tailRequest,huse,hmissing]

end Pipeline

/-- Without `--ignore-errors` a scan error keeps every later deletion request of
a transfer from being sent, except where the error is not looked at: that of the
count for the progress output always, and in the pipelined driver that of the
data scan before per-directory plans and before a request for missing arguments
alone. -/
theorem deletion_suppressed_iff (cfg : Config) (scans : Scans) (driver : Driver)
    (hignore : cfg.ignoreErrors = false) :
    (∀ trace, Possible cfg scans driver trace → Suppressed trace) ↔ ¬Leaks cfg scans driver := by
  cases driver with
  | single =>
    refine ⟨fun h hleak => sendFiles_leaks hignore hleak (h _ ⟨smooth,rfl⟩),?_⟩
    rintro hleak trace ⟨out, rfl⟩
    exact sendFiles_suppressed hignore hleak
  | pipelined =>
    constructor
    · intro h hleak
      obtain ⟨schedule, hs⟩ := sendFilesMultithreaded_leaks hleak
      exact hs (h _ ⟨schedule,rfl⟩)
    · rintro hleak trace ⟨schedule, rfl⟩
      exact sendFilesMultithreaded_suppressed hignore hleak

/-- `--delete-missing-args` alone, a data scan that skips an unreadable directory. -/
theorem missing_args_sent_after_error :
    let trace := sendFilesMultithreaded ⟨false,.none,true,false,false,false⟩
      ⟨⟨false,false,false⟩,⟨false,false,false⟩,⟨true,false,false⟩⟩
      [.scanError, .start true true, .scanEnds, .loaderEnds, .finish false true true]
    trace = [.scanned true, .manifest, .dirTimes, .finished] ∧ ¬Suppressed trace := by
  unfold Suppressed
  decide

theorem keep_set_suppressed_after_error :
    let cfg : Config := ⟨true,.after,true,false,false,false⟩
    let scans : Scans := ⟨⟨false,false,false⟩,⟨false,false,false⟩,⟨true,false,false⟩⟩
    ¬Leaks cfg scans .pipelined ∧
      ∀ trace, Possible cfg scans .pipelined trace → Suppressed trace := by
  intro cfg scans
  have hleak : ¬Leaks cfg scans .pipelined := by
    unfold Leaks precountErred
    decide
  exact ⟨hleak,(deletion_suppressed_iff cfg scans .pipelined rfl).mpr hleak⟩

end FastSync.DeleteRequests
