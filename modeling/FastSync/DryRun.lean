import FastSync.ReceiverSession
import FastSync.SaveEscapes

/-!
# A dry run changes nothing

The check of a file and the list of deletions only look, whatever the
configuration. Everything else that a frame may ask for has its own test for the
dry run; with it the whole connection leaves the file system as it is, for any
frames and any interleaving of the threads.
-/

set_option autoImplicit false

namespace FastSync.DryRun
open FiniteTree (DirTree)
open DeletePaths Programs SystemCalls SecureWalk
open DestinationTree IncrementalCheck
open ReceiverSession ReadOnly
open DeletePlan (PlanFrame)
open DeleteCommit (DeleteManifest)
open DeleteSession (DeletePlanSession deletePlanSessionReceive planFrameValid loadConfig)
open DeleteExtras (deleteExtrasList_out)

section Looks

variable {pr : Process} {cfg : SessionConfig} {rq : CheckRequest}

theorem reads_granted : Reads granted := by
  refine reads_bind reads_answer ?_
  rintro (_ | ⟨e,n⟩)
  · exact reads_pure _
  · exact reads_pure _

theorem reads_send : Reads send := reads_granted

theorem reads_answered {outcome : CheckOutcome} : Reads (answered outcome) :=
  reads_bind reads_send fun _ => reads_ite (reads_pure _) (reads_pure _)

theorem reads_openRegular {d : Position} {leaf : Bytes} : Reads (openRegular d leaf) := by
  refine reads_bind reads_statAt fun r => ?_
  split
  · exact reads_pure _
  · exact reads_pure _

theorem reads_openDestination : Reads (incrementalCheckOpenDestination pr cfg rq) := by
  refine reads_bind (reads_fileOpenSecureParent pr _) ?_
  rintro (e | ⟨d,leaf⟩)
  · exact reads_pure _
  · exact reads_bind reads_statAt fun _ =>
      reads_bind reads_openRegular fun _ => reads_pure _

theorem reads_basisOpenRegular {path : Bytes} : Reads (basisOpenRegular pr rq path) := by
  refine reads_bind (reads_fileOpenSecureParent pr path) ?_
  rintro (e | ⟨d,leaf⟩)
  · exact reads_pure _
  refine reads_bind reads_openRegular ?_
  rintro (_ | f)
  · exact reads_pure _
  · exact reads_pure _

theorem reads_basisContentMatches {f : OpenFile} : Reads (basisContentMatches cfg rq f) := by
  refine reads_ite (reads_bind reads_query ?_) (reads_pure _)
  rintro (e | digest)
  · exact reads_pure _
  · exact reads_pure _

theorem reads_basisMatchProbe {type : BasisDestType} {candidate : Bytes} :
    Reads (basisMatchProbe pr cfg rq type candidate) := by
  refine reads_bind reads_basisOpenRegular ?_
  rintro (_ | f)
  · exact reads_pure _
  refine reads_ite (reads_pure _) (reads_bind reads_basisContentMatches fun _ => ?_)
  exact reads_ite (reads_pure _) (reads_pure _)

theorem reads_probeEach {type : BasisDestType} {candidates : List Bytes} :
    Reads (probeEach pr cfg rq type candidates) := by
  induction candidates with
  | nil => exact reads_pure _
  | cons candidate candidates ih =>
    refine reads_bind reads_basisMatchProbe ?_
    rintro (_ | found)
    · exact ih
    · exact reads_pure _

theorem reads_probeDirs {entries : List BasisDest} : Reads (probeDirs pr cfg rq entries) := by
  induction entries with
  | nil => exact reads_pure _
  | cons entry entries ih =>
    refine reads_bind reads_probeEach ?_
    rintro (_ | found)
    · exact ih
    · exact reads_pure _

theorem reads_basisMatchFind {hashContent : Bool} : Reads (basisMatchFind pr cfg rq hashContent) :=
  reads_ite (reads_pure _) reads_probeDirs

theorem reads_linkDestRelink {dest : CheckDestination} :
    Reads (incrementalCheckLinkDestRelink pr cfg rq dest) := by
  refine reads_ite (reads_pure _) ?_
  cases dest.old with
  | none => exact reads_pure _
  | some old =>
    refine reads_bind reads_basisMatchFind ?_
    rintro (_ | found)
    · exact reads_pure _
    · exact reads_ite (reads_bind reads_answered fun _ => reads_pure _) (reads_pure _)

theorem reads_dryRunShortcut {dest : CheckDestination} :
    Reads (incrementalCheckDryRunShortcut pr cfg rq dest) := by
  refine reads_bind (reads_ite (reads_pure _) reads_basisMatchFind) fun _ => ?_
  exact reads_ite reads_answered reads_answered

theorem reads_checkReceive : Reads (incrementalCheckReceive rq) := by
  refine reads_bind reads_send fun _ => reads_ite ?_ (reads_pure _)
  cases rq.transferred with
  | none | some file => exact reads_pure _

theorem reads_tryBasis {dest : CheckDestination} :
    Reads (incrementalCheckTryBasis pr cfg rq dest) := by
  refine reads_bind (reads_ite (reads_pure _) reads_basisMatchFind) ?_
  rintro (_ | m)
  · exact reads_checkReceive
  · exact reads_ite (reads_ite reads_answered reads_checkReceive) reads_answered

theorem reads_receiveIncrementalCheckEx : Reads (receiveIncrementalCheckEx pr cfg rq) := by
  refine reads_ite (reads_pure _) (reads_bind reads_openDestination fun dest => ?_)
  refine reads_bind (reads_ite reads_send (reads_pure _)) fun _ => reads_ite ?_ (reads_pure _)
  refine reads_ite reads_answered (reads_bind reads_linkDestRelink ?_)
  rintro (_ | outcome)
  · exact reads_ite reads_answered
      (reads_ite reads_dryRunShortcut reads_tryBasis)
  · exact reads_pure _

theorem reads_answerBatch {entries : List BatchEntry} : Reads (answerBatch pr cfg entries) := by
  induction entries with
  | nil => exact reads_pure _
  | cons entry entries ih =>
    refine reads_ite (reads_bind reads_send fun _ => reads_pure _) ?_
    refine reads_bind (reads_fileStatSecure pr _) fun _ => reads_bind reads_send fun _ => ?_
    exact reads_ite ih (reads_pure _)

theorem reads_openEach {cs : List Bytes} (fd : Position) : Reads (openEach cs fd) := by
  induction cs generalizing fd with
  | nil => exact reads_pure _
  | cons c cs ih =>
    refine reads_ite (reads_pure _) (reads_ite (ih fd) (reads_bind (reads_openDirAt fd c) ?_))
    rintro (e | next)
    · exact reads_pure _
    · exact ih next

theorem reads_openDestinationRoot {root : Bytes} : Reads (openDestinationRoot pr root) := by
  unfold openDestinationRoot
  cases pr.authorizedRoot with
  | none => exact reads_query
  | some authorized => exact reads_ite (reads_pure _) (reads_openEach _)

theorem reads_onDestination {α : Type} {root : Bytes} {engine : DirTree Name → List Position × α}
    (h : ∀ t, (engine t).1 = []) : Reads (onDestination pr root engine) := by
  refine reads_bind reads_openDestinationRoot ?_
  rintro (e | dir)
  · exact reads_pure _
  refine ⟨fun fs rs => (some (engine (treeBelow fs dir)).2,rs,[]),fun w => ?_,fun _ => rfl⟩
  show ((removeEach dir (engine (treeBelow w.fs dir)).1 >>= fun _ =>
    (pure (some (engine (treeBelow w.fs dir)).2) : Sys (Option α))) w) = _
  rw [h]
  rfl

theorem reads_manifestWouldDeleteList {manifest : DeleteManifest} :
    Reads (manifestWouldDeleteList pr cfg manifest) :=
  reads_onDestination fun t => (deleteExtrasList_out t _).2.2

end Looks

/-- Without a staging context, nothing is changed and none is made. -/
def Quiet (w w' : World) : Prop :=
  w.delayContext = none → w'.fs = w.fs ∧ w'.touched = w.touched ∧ w'.delayContext = none

theorem quiet_composable : Composable Quiet where
  refl := fun _ h => ⟨rfl,rfl,h⟩
  trans := by
    intro w w' w'' h h' hw
    have h1 := h hw
    have h2 := h' h1.2.2
    exact ⟨h2.1.trans h1.1,h2.2.1.trans h1.2.1,h2.2.2⟩

section Rules

variable {α β : Type} {P : α → Prop} {Q : β → Prop}

theorem quiet_pure (a : α) (h : P a) : Effect Quiet (pure a) P := effect_pure quiet_composable h

variable {m : Sys α}

theorem quiet_bind {k : α → Sys β} (hm : Effect Quiet m P)
    (hk : ∀ a, P a → Effect Quiet (k a) Q) : Effect Quiet (m >>= k) Q :=
  effect_bind quiet_composable hm hk

theorem quiet_reads (h : Reads m) : Effect Quiet m fun _ => True := by
  obtain ⟨f,hf⟩ := h
  intro w
  rw [hf.run w]
  exact ⟨fun hw => ⟨rfl,rfl,hw⟩,trivial⟩

theorem quiet_look {k : α → Sys β} (hm : Reads m) (hk : ∀ a, Effect Quiet (k a) Q) :
    Effect Quiet (m >>= k) Q := quiet_bind (quiet_reads hm) fun a _ => hk a

theorem quiet_ite {c : Prop} [Decidable c] {n : Sys α} (hm : Effect Quiet m P)
    (hn : Effect Quiet n P) : Effect Quiet (if c then m else n) P :=
  effect_ite (fun _ => hm) fun _ => hn

end Rules

variable {pr : Process} {cfg : SessionConfig} (hdry : cfg.dryRun = true)

def Idle (st : Pending) : Prop := ∀ s, st.planSession = some s → s.dryRun = true

theorem idle_start : Idle pendingStart := by
  intro s h
  cases h

theorem loadConfig_dryRun (frame : PlanFrame) (s : DeletePlanSession) :
    (loadConfig frame s).dryRun = s.dryRun := by
  unfold loadConfig
  split
  · rfl
  · rfl

theorem planEngine_dryRun {plan : PlanFrame} {s : DeletePlanSession} {t : DirTree Name}
    (h : s.dryRun = true) : (planEngine cfg plan s t).2.1.dryRun = true := by
  have hload := (loadConfig_dryRun plan { s with gone := [] }).trans h
  unfold planEngine deletePlanSessionReceive
  by_cases hv : planFrameValid { s with gone := [] } plan = true
  · simp [hv, hload]
  · simpa only [hv, Bool.not_false, if_true] using h

section Handlers

include hdry

theorem planSession_dryRun {st : Pending} (h : Idle st) : (planSession cfg st).dryRun = true := by
  unfold planSession
  cases hs : st.planSession with
  | none => exact hdry
  | some s => exact h s hs

section
variable {st : Pending} (h : Idle st)
include h

omit hdry in
theorem quiet_dryManifest {manifest : DeleteManifest} :
    Effect Quiet (dryManifest pr cfg st manifest) fun r => Idle r.pending := by
  refine quiet_look (reads_ite reads_manifestWouldDeleteList (reads_pure _))
    fun listed => quiet_ite ?_ (quiet_pure _ h)
  exact quiet_look reads_send fun _ => quiet_ite (quiet_pure _ h) (quiet_pure _ h)

theorem quiet_handleManifest {manifest : Option DeleteManifest} :
    Effect Quiet (receiverHandleManifest pr cfg st manifest) fun r => Idle r.pending := by
  cases manifest with
  | none => exact quiet_pure _ h
  | some manifest =>
    show Effect Quiet (if cfg.dryRun = true then _ else _) _
    rw [if_pos hdry]
    exact quiet_dryManifest h

theorem quiet_handleDeletePlan {plan : Option PlanFrame} :
    Effect Quiet (receiverHandleDeletePlan pr cfg st plan) fun r => Idle r.pending := by
  have hs := planSession_dryRun hdry h
  refine quiet_ite (quiet_pure _ h) ?_
  cases plan with
  | none =>
    refine quiet_pure _ ?_
    rintro s ⟨⟩
    exact hs
  | some plan =>
    have hr : receivePlan pr cfg plan (planSession cfg st) =
        pure (planEngine cfg plan (planSession cfg st) noTree).2 := by
      rw [receivePlan, hs]
      rfl
    have hplan : Effect Quiet (receivePlan pr cfg plan (planSession cfg st)) fun r =>
        r.1.dryRun = true := by
      rw [hr]
      exact quiet_pure _ (planEngine_dryRun hs)
    refine quiet_bind hplan fun r hidle => quiet_pure _ ?_
    rintro s ⟨⟩
    exact hidle

theorem quiet_dispatch {frame : Frame} :
    Effect Quiet (receiverDispatchStatus pr cfg st frame) fun r => Idle r.pending := by
  have hstore : ∀ file, Effect Quiet (storeOne st file) fun r => Idle r.pending := by
    rintro (_ | file)
    · exact quiet_pure _ h
    · exact quiet_pure _ h
  cases frame with
  | keepalive => exact quiet_look reads_send fun _ => quiet_ite (quiet_pure _ h) (quiet_pure _ h)
  | abort | dirTimes dirs complete => exact quiet_pure _ h
  | check request =>
    cases request with
    | none => exact quiet_pure _ h
    | some rq =>
      refine quiet_look reads_receiveIncrementalCheckEx fun outcome => quiet_pure _ ?_
      cases outcome with
      | error | skipped | wouldTransfer => exact h
      | file received =>
        show Idle (if cfg.dryRun = true then _ else _ : Handled).pending
        rw [if_pos hdry]
        exact h
  | chunk files =>
    cases files with
    | none | some files => exact quiet_pure _ h
  | checkBatch entries complete =>
    exact quiet_ite (quiet_pure _ h)
      (quiet_look reads_answerBatch fun _ => quiet_pure _ h)
  | mkdir dir => exact hstore dir
  | hardlink file | symlink file | special file | file file => exact hstore file
  | manifest manifest => exact quiet_handleManifest hdry h
  | deletePlan plan => exact quiet_handleDeletePlan hdry h

end

end Handlers

section SingleThreaded

include hdry

theorem quiet_saveFile {r : Received} {ctx : SaveContext} :
    Effect Quiet (receiverSaveFile pr cfg r ctx) fun _ => True := by
  unfold receiverSaveFile
  rw [if_pos hdry]
  exact quiet_look (reads_pure _) fun _ => quiet_ite (quiet_pure _ trivial) (quiet_pure _ trivial)

theorem quiet_storeEach {rs : List Received} (ctx : SaveContext) :
    Effect Quiet (storeEach pr cfg rs ctx) fun _ => True := by
  induction rs generalizing ctx with
  | nil => exact quiet_pure _ trivial
  | cons r rs ih =>
    refine quiet_bind (quiet_saveFile hdry) fun saved _ => ?_
    exact quiet_ite (ih saved.1) (quiet_pure _ trivial)

/-- The receive loop, by induction on the messages; the plan session stays idle. -/
theorem quiet_receiverProcess {evs : List Event} (clock : Option Clock) (st : Pending)
    (ctx : SaveContext) (h : Idle st) :
    Effect Quiet (receiverProcess pr cfg evs clock st ctx) fun _ => True := by
  induction evs generalizing clock st ctx with
  | nil => exact quiet_pure _ trivial
  | cons ev evs ih =>
    rw [receiverProcess]
    cases receiverNoteStatus clock ev with
    | none => exact quiet_pure _ trivial
    | some clock =>
      cases ev.message with
      | finished | unexpected => exact quiet_pure _ trivial
      | frame frame =>
        refine quiet_bind (quiet_dispatch hdry h) fun handled hidle => ?_
        refine quiet_bind (quiet_storeEach hdry ctx) fun stored _ => ?_
        exact quiet_ite (ih _ _ _ hidle) (quiet_pure _ trivial)

theorem quiet_commitManifest {st : Pending} :
    Effect Quiet (commitDeferredManifest pr cfg st) fun _ => True := by
  unfold commitDeferredManifest
  cases st.deferredManifest with
  | none => exact quiet_pure _ trivial
  | some manifest =>
    dsimp only [commitManifest]
    rw [if_pos hdry]
    exact quiet_pure _ trivial

theorem quiet_commitPlans {st : Pending} :
    Effect Quiet (commitDeferredPlans pr cfg st) fun _ => True := by
  unfold commitDeferredPlans
  cases st.planSession with
  | none => exact quiet_pure _ trivial
  | some session =>
    dsimp only
    rw [if_pos hdry]
    exact quiet_pure _ trivial

theorem quiet_successFrame {ctx : SaveContext} :
    Effect Quiet (receiverSendSuccessFrame pr cfg ctx) fun _ => True := by
  refine quiet_look (reads_ite reads_send (reads_pure _)) fun _ => quiet_ite ?_ (quiet_pure _ trivial)
  rw [if_pos hdry]
  exact quiet_reads reads_send

theorem quiet_finish {st : Pending} {ctx : SaveContext} :
    Effect Quiet (receiverFinish pr cfg st ctx) fun _ => True := by
  refine quiet_bind (quiet_commitManifest hdry) fun _ _ => quiet_ite ?_ (quiet_pure _ trivial)
  refine quiet_bind (quiet_commitPlans hdry) fun _ _ => quiet_ite ?_ (quiet_pure _ trivial)
  exact quiet_successFrame hdry

omit hdry in
theorem quiet_cleanup : Effect Quiet (delayUpdatesCleanup cfg) fun _ => True := by
  intro w
  refine ⟨fun hw => ?_,trivial⟩
  unfold delayUpdatesCleanup
  rw [hw]
  exact ⟨rfl,rfl,hw⟩

theorem quiet_receiveFiles {evs : List Event} :
    Effect Quiet (receiverReceiveFiles pr cfg evs) fun _ => True := by
  refine quiet_bind (quiet_receiverProcess hdry none _ contextStart idle_start)
    fun finished _ => ?_
  have hcleanup : ∀ ok : Bool, Effect Quiet
      (if !ok && cfg.delayUpdates then delayUpdatesCleanup cfg else pure ()) fun _ => True :=
    fun _ => quiet_ite quiet_cleanup (quiet_pure _ trivial)
  rcases finished with _ | ⟨st,ctx⟩
  · exact quiet_bind (quiet_pure (P := fun _ => True) _ trivial) fun ok _ => hcleanup ok
  · exact quiet_bind (quiet_finish hdry) fun ok _ => hcleanup ok

end SingleThreaded

section MultiThreaded

include hdry

theorem quiet_readMessage {p : Pipeline} (h : Idle p.pending) {ev : Event} {evs : List Event} :
    Effect Quiet (readMessage pr cfg p ev evs) fun p' => Idle p'.pending := by
  have hfail : Idle (receiverThreadFail p).pending := by
    rintro s ⟨⟩
  unfold readMessage
  cases receiverNoteStatus p.clock ev with
  | none => exact quiet_pure _ hfail
  | some clock =>
    cases ev.message with
    | finished => exact quiet_pure _ h
    | unexpected => exact quiet_pure _ hfail
    | frame frame =>
      exact quiet_bind (quiet_dispatch hdry h) fun _ hidle => quiet_pure _ hidle

theorem quiet_receiveTurn {p : Pipeline} (h : Idle p.pending) :
    Effect Quiet (receiveTurn pr cfg p) fun p' => Idle p'.pending := by
  have hfail : Idle (receiverThreadFail p).pending := by
    rintro s ⟨⟩
  unfold receiveTurn
  cases p.receiver with
  | ended ok => exact quiet_pure _ h
  | storing files step =>
    cases files with
    | nil => exact quiet_ite (quiet_pure _ h) (quiet_pure _ hfail)
    | cons r rs => exact quiet_ite (quiet_pure _ hfail) (quiet_pure _ h)
  | reading =>
    cases p.events with
    | nil => exact quiet_pure _ hfail
    | cons ev evs => exact quiet_readMessage hdry h

theorem quiet_writeFile {r : Received} {p : Pipeline} (h : Idle p.pending) :
    Effect Quiet (writeFile pr cfg r p) fun p' => Idle p'.pending := by
  unfold writeFile
  rw [if_neg (by simp [hdry])]
  exact quiet_look (reads_pure _) fun _ => quiet_ite (quiet_pure _ h) (quiet_pure _ h)

theorem quiet_takeTurn (turn : Turn) (p : Pipeline) (h : Idle p.pending) :
    Effect Quiet (takeTurn pr cfg turn p) fun p' => Idle p'.pending := by
  cases turn with
  | receive => exact quiet_receiveTurn hdry h
  | write =>
    show Effect Quiet (writeTurn pr cfg p) _
    unfold writeTurn
    cases p.writer with
    | absent | ended ok => exact quiet_pure _ h
    | running =>
      cases p.queue with
      | nil =>
        refine quiet_pure _ ?_
        split
        · exact h
        · exact h
      | cons r rs => exact quiet_writeFile hdry h
  | cancel =>
    refine quiet_pure _ ?_
    split
    · exact h
    · exact h

theorem quiet_join {p : Pipeline} {transferOk : Bool} :
    Effect Quiet (joinPipeline pr cfg p transferOk) fun _ => True := by
  unfold joinPipeline
  rw [if_neg (by simp [hdry])]
  refine quiet_look (reads_pure _) fun _ => quiet_ite ?_ ?_
  · refine quiet_look (reads_ite reads_send (reads_pure _)) fun _ => ?_
    exact quiet_ite (quiet_look reads_send fun _ => quiet_pure _ trivial) (quiet_pure _ trivial)
  · exact quiet_look reads_send fun _ => quiet_pure _ trivial

theorem quiet_mtReceiver {evs : List Event} {schedule : List Turn} :
    Effect Quiet (serverRunMtReceiver pr cfg evs schedule) fun _ => True := by
  refine quiet_look reads_granted fun _ => quiet_ite ?_ (quiet_pure _ trivial)
  refine quiet_look reads_granted fun writer => ?_
  refine quiet_bind (effect_fold quiet_composable (quiet_takeTurn hdry) _ idle_start)
    fun p _ => ?_
  split
  · exact quiet_bind (quiet_join hdry) fun _ _ => quiet_pure _ trivial
  · exact quiet_pure _ trivial
  · exact quiet_pure _ trivial

end MultiThreaded

section Connection

theorem quiet_configDelete : Effect Quiet (configDelete cfg) fun _ => True := by
  refine quiet_bind quiet_cleanup fun _ _ w => ?_
  exact ⟨fun _ => ⟨rfl,rfl,rfl⟩,trivial⟩

include hdry

theorem quiet_prepare {srv : Server} :
    Effect Quiet (serverPrepareSession pr cfg srv) fun _ => True := by
  unfold serverPrepareSession
  rw [if_pos hdry, if_neg (by simp [hdry])]
  refine quiet_look (reads_fileDirectoryExistsSecure pr _) fun _ => quiet_ite ?_ (quiet_pure _ trivial)
  refine quiet_look (reads_pure _) fun _ => quiet_ite ?_ (quiet_pure _ trivial)
  exact quiet_ite (quiet_reads reads_send) (quiet_pure _ trivial)

theorem quiet_runTransfer {evs : List Event} {schedule : List Turn} :
    Effect Quiet (serverRunTransfer pr cfg evs schedule) fun _ => True := by
  refine quiet_ite (quiet_mtReceiver hdry) ?_
  exact quiet_bind (quiet_receiveFiles hdry) fun _ _ => quiet_pure _ trivial

theorem quiet_serve {srv : Server} {evs : List Event} {schedule : List Turn} :
    Effect Quiet (serveAccepted pr cfg srv evs schedule) fun _ => True := by
  refine quiet_bind (quiet_prepare hdry) fun _ _ => quiet_ite ?_ quiet_configDelete
  refine quiet_bind (quiet_runTransfer hdry) fun _ _ => ?_
  exact quiet_ite quiet_configDelete (quiet_pure _ trivial)

omit hdry in
theorem gates_dryRun {pr : Process} {srv : Server} {cfg cfg' : SessionConfig}
    (h : serverApplySecurityGates pr cfg srv = some cfg') : cfg'.dryRun = cfg.dryRun := by
  unfold serverApplySecurityGates at h
  cases hroot : pr.authorizedRoot with
  | none =>
    rw [hroot] at h
    cases h
  | some root =>
    rw [hroot] at h
    dsimp only at h
    split_ifs at h
    all_goals
      cases h
      rfl

end Connection

/-- For every configuration with `--dry-run`, every operator policy, every
sequence of messages, and every interleaving of the threads, a connection leaves
the file system as it is and touches no object at any time. -/
theorem dry_run_changes_nothing (pr : Process) (cfg : SessionConfig) (srv : Server)
    (events : List Event) (schedule : List Turn) (w : World) (hdry : cfg.dryRun = true)
    (hw : w.delayContext = none) :
    (handler pr cfg srv events schedule w).2.fs = w.fs ∧
      (handler pr cfg srv events schedule w).2.touched = w.touched := by
  have h : Effect Quiet (handler pr cfg srv events schedule) fun _ => True := by
    unfold handler
    cases hg : serverApplySecurityGates pr cfg srv with
    | none => exact quiet_configDelete
    | some cfg' =>
      refine quiet_serve ?_
      exact (gates_dryRun hg).trans hdry
  have hq := (h w).1 hw
  exact ⟨hq.1,hq.2.1⟩

/-- Deletion during the transfer and delayed updates, below the authorized root. -/
def sessionConfig (dryRun useMultithreading : Bool) : SessionConfig :=
  { SaveEscapes.delayConfig with
    dryRun := dryRun
    receiveRootDirectory := []
    mkpath := true
    saveToDisk := true
    removeSourceFiles := false
    useMultithreading := useMultithreading
    reportStats := false
    reportDestInfo := false
    useDelete := true
    deleteMissingArgs := true
    deleteBefore := false
    deleteDuring := true
    deleteDelay := false
    maxDelete := -1
    protectRules := none
    preserveOwner := false
    preserveGroup := false
    preserveXattrs := false
    preserveAcls := false
    checksum := false
    digest := id
    digestLength := 0
    ignoreTimes := false
    sizeOnly := false
    modifyWindow := 0
    verifyBasis := false
    basisDirs := []
    relative := false
    filesFrom := false
    sendDirectory := none }

def openServer : Server := ⟨false,true,true,false,false⟩

def sentFile : Received := ⟨SaveEscapes.stagedFile,false⟩

def sentMessages : List Event :=
  [⟨.frame (.file (some sentFile)),0⟩,
    ⟨.frame (.mkdir (some ⟨{ SaveEscapes.plainFile [98] [] with isDir := true },false⟩)),1⟩,
    ⟨.frame (.manifest (some ⟨[],[],[],[]⟩)),2⟩,
    ⟨.frame (.deletePlan (some ⟨none,true,[dot],[],[]⟩)),3⟩,
    ⟨.finished,4⟩]

/-- A dry run leaves the file system alone under frames that make another run
write into the root and delete from it. -/
theorem dry_run_of_sent_messages :
    ((handler SaveEscapes.plainProcess (sessionConfig true true) openServer sentMessages
      [.receive,.receive,.write,.receive,.receive,.write] SaveEscapes.startWorld).2.fs =
        SaveEscapes.startWorld.fs) ∧
    (handler SaveEscapes.plainProcess (sessionConfig true false) openServer sentMessages []
      SaveEscapes.startWorld).2.touched = SaveEscapes.startWorld.touched ∧
    (handler SaveEscapes.plainProcess (sessionConfig false false) openServer sentMessages []
      SaveEscapes.startWorld).2.touched ≠ SaveEscapes.startWorld.touched :=
  ⟨(dry_run_changes_nothing _ _ _ _ _ _ rfl (by decide +kernel)).1,
    (dry_run_changes_nothing _ _ _ _ _ _ rfl (by decide +kernel)).2,by decide +kernel⟩

end FastSync.DryRun
