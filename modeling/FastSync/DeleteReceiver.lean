import FastSync.DeleteBound

/-!
# The deletions of one connection

The receive loop commits a manifest at once, holds it until the stream has
finished, or drops it, and it feeds every plan frame to one session. Other
frames count with what their handler answers only; between two frames the
destination may change in any way.
-/

set_option autoImplicit false

namespace FastSync.DeleteReceiver
open FiniteTree DeletePaths DeleteWalk DeletePlan
open DeleteCommit DeleteSession DeleteBound DeleteSpec

inductive ReceiverStep where
  | next
  | fail
  | error
deriving DecidableEq, Repr

inductive Frame where
  | manifest (manifest : DeleteManifest)
  | deletePlan (plan : PlanFrame)
  | other (step : ReceiverStep)
  | finished

/-- A frame, the destination when it has been read, and whether a reply to it
can be sent. -/
structure Event where
  tree : DirTree Name
  frame : Frame
  sent : Bool

def configDeleteTimingEarly (cfg : Config) : Bool := cfg.deleteBefore

def configDeleteTimingPerDir (cfg : Config) : Bool := cfg.deleteDuring || cfg.deleteDelay

/-- The pending deletions of a connection, and how many entries its deletion
phases have removed. -/
structure ReceiverPendingState where
  deferredManifest : Option DeleteManifest
  planSession : Option DeletePlanSession
  removed : ℕ

def receiverStart : ReceiverPendingState := ⟨none,none,0⟩

def receiverHandleManifest (cfg : Config) (t : DirTree Name) (manifest : DeleteManifest) (sent : Bool)
    (st : ReceiverPendingState) : ReceiverPendingState × ReceiverStep :=
  if cfg.dryRun then (st, if configDeleteTimingEarly cfg && !sent then .fail else .next)
  else if configDeleteTimingEarly cfg then
    if cfg.useDelete || cfg.deleteMissingArgs then
      let r := manifestDeleteAllObserved cfg t manifest
      ({ st with removed := st.removed+r.1.gone.length },
        if r.2 = .error then .fail else if sent then .next else .fail)
    else (st, if sent then .next else .fail)
  else if cfg.useDelete || cfg.deleteMissingArgs then
    if st.deferredManifest.isSome then ({ st with deferredManifest := none }, .fail)
    else ({ st with deferredManifest := some manifest }, .next)
  else (st, .next)

def receiverHandleDeletePlan (cfg : Config) (t : DirTree Name) (plan : PlanFrame)
    (st : ReceiverPendingState) : ReceiverPendingState × ReceiverStep :=
  if !configDeleteTimingPerDir cfg then (st, .fail)
  else
    let s := st.planSession.getD (deletePlanSessionCreate cfg)
    let r := deletePlanSessionReceive cfg t plan { s with gone := [] }
    ({ st with planSession := some r.1, removed := st.removed+r.1.gone.length },
      if r.2 then .next else .fail)

/-- Who commits what is pending once the stream has finished: the receive loop
itself, or its caller once the disk writer has drained. -/
inductive ReceiverSink where
  | single
  | threaded (writerOk : Bool)

def commitManifest (cfg : Config) (t : DirTree Name) (manifest : Option DeleteManifest) :
    List Position × DeleteCommitResult :=
  match manifest with
  | none => ([], .ok)
  | some manifest =>
    let r := manifestDeleteAllObserved cfg t manifest
    (r.1.gone, r.2)

def commitPlans (cfg : Config) (t : DirTree Name) (session : Option DeletePlanSession) :
    List Position :=
  match session with
  | none => []
  | some s => if cfg.dryRun then [] else (deletePlanSessionCommit cfg t { s with gone := [] }).1.gone

/-- The entries the commits after `STATUS_FINISHED` remove. A failed manifest
commit drops the plan session of the single-threaded receiver only. -/
def finishRemoved (cfg : Config) (sink : ReceiverSink) (t : DirTree Name)
    (st : ReceiverPendingState) : ℕ :=
  let m := commitManifest cfg t st.deferredManifest
  let plans := (commitPlans cfg (prune t m.1) st.planSession).length
  match sink with
  | .single => if m.2 = .error then m.1.length else m.1.length+plans
  | .threaded writerOk => if writerOk && !cfg.dryRun then m.1.length+plans else 0

/-- The receive loop: how many entries the deletion phases of a connection
remove. A list of events that stops short is a disconnect. -/
def receiverProcessPending (cfg : Config) (sink : ReceiverSink) :
    List Event → ReceiverPendingState → ℕ
  | [], st => st.removed
  | ev::evs, st =>
    match ev.frame with
    | .manifest manifest =>
      let r := receiverHandleManifest cfg ev.tree manifest ev.sent st
      if r.2 = .next then receiverProcessPending cfg sink evs r.1 else r.1.removed
    | .deletePlan plan =>
      let r := receiverHandleDeletePlan cfg ev.tree plan st
      if r.2 = .next then receiverProcessPending cfg sink evs r.1 else r.1.removed
    | .other step => if step = .next then receiverProcessPending cfg sink evs st else st.removed
    | .finished => st.removed+finishRemoved cfg sink ev.tree st

def Event.isManifest (ev : Event) : Bool :=
  match ev.frame with
  | .manifest _ => true
  | _ => false

def Event.isPlan (ev : Event) : Bool :=
  match ev.frame with
  | .deletePlan _ => true
  | _ => false

section Allowance
variable (cfg : Config)

/-- What manifests may still remove: a bound for each one committed at once, or
one bound for the one that is held. -/
def manifestAllowance (held : Bool) (evs : List Event) : ℕ :=
  if configDeleteTimingEarly cfg then effectiveMaxDelete cfg*evs.countP Event.isManifest
  else if held || evs.any Event.isManifest then effectiveMaxDelete cfg else 0

def planAllowance (session : Option DeletePlanSession) (evs : List Event) : ℕ :=
  match session with
  | some s => s.maxDelete-s.planned
  | none => if configDeleteTimingPerDir cfg && evs.any Event.isPlan then effectiveMaxDelete cfg else 0

structure Sane (st : ReceiverPendingState) : Prop where
  early : configDeleteTimingEarly cfg = true → st.deferredManifest = none
  session : ∀ s, st.planSession = some s → s.planned ≤ s.maxDelete

variable {cfg}

theorem manifestAllowance_tail (held : Bool) (ev : Event) (evs : List Event) :
    manifestAllowance cfg held evs ≤ manifestAllowance cfg held (ev::evs) := by
  unfold manifestAllowance
  split_ifs with h1 h2 h3 h4
  · rw [List.countP_cons]
    exact Nat.mul_le_mul_left _ (Nat.le_add_right _ _)
  · exact le_rfl
  · exact absurd (by simp only [List.any_cons, Bool.or_eq_true] at *; tauto) h3
  · exact Nat.zero_le _
  · exact le_rfl

theorem planAllowance_tail (session : Option DeletePlanSession) (ev : Event) (evs : List Event) :
    planAllowance cfg session evs ≤ planAllowance cfg session (ev::evs) := by
  cases session with
  | some s => exact le_rfl
  | none =>
    unfold planAllowance
    split_ifs with h1 h2
    · exact le_rfl
    · exact absurd (by simp only [List.any_cons, Bool.and_eq_true, Bool.or_eq_true] at *; tauto) h2
    · exact Nat.zero_le _
    · exact le_rfl

theorem receiverHandleManifest_cases (t : DirTree Name) (manifest : DeleteManifest) (sent : Bool)
    (st : ReceiverPendingState) :
    let r := (receiverHandleManifest cfg t manifest sent st).1
    r = st ∨
      (configDeleteTimingEarly cfg = true ∧ r = { st with
        removed := st.removed+(manifestDeleteAllObserved cfg t manifest).1.gone.length }) ∨
      (configDeleteTimingEarly cfg = false ∧ ∃ m, r = { st with deferredManifest := m }) := by
  intro r
  simp only [r, receiverHandleManifest]
  by_cases hearly : configDeleteTimingEarly cfg = true
  · simp only [hearly, if_true]
    split_ifs <;> simp
  · rw [Bool.not_eq_true] at hearly
    simp only [hearly, Bool.false_eq_true, if_false]
    split_ifs <;> simp

variable {st : ReceiverPendingState}

theorem receiverHandleManifest_allowance (h : Sane cfg st)
    (ev : Event) (manifest : DeleteManifest) (hev : ev.frame = .manifest manifest)
    (evs : List Event) :
    let r := (receiverHandleManifest cfg ev.tree manifest ev.sent st).1
    Sane cfg r ∧ r.planSession = st.planSession ∧
      r.removed+manifestAllowance cfg r.deferredManifest.isSome evs ≤
        st.removed+manifestAllowance cfg st.deferredManifest.isSome (ev::evs) := by
  intro r
  have htail := @manifestAllowance_tail cfg st.deferredManifest.isSome ev evs
  have hkind : ev.isManifest = true := by
    rw [Event.isManifest, hev]
  rcases @receiverHandleManifest_cases cfg ev.tree manifest ev.sent st with
    hr | ⟨hearly,hr⟩ | ⟨hearly,m,hr⟩
  · rw [show r = st from hr]
    exact ⟨h,rfl,by omega⟩
  · rw [show r = _ from hr]
    have hcommit := manifestDeleteAllObserved_bound cfg ev.tree manifest
    refine ⟨⟨h.early,h.session⟩,rfl,?_⟩
    simp only [manifestAllowance, hearly, if_true, List.countP_cons, hkind, Nat.mul_add]
    omega
  · rw [show r = _ from hr]
    refine ⟨⟨fun he => absurd (hearly.symm.trans he) Bool.false_ne_true,h.session⟩,rfl,?_⟩
    simp only [manifestAllowance, hearly, List.any_cons, hkind, Bool.true_or, Bool.or_true,
      Bool.false_eq_true, if_false, if_true]
    split_ifs <;> omega

theorem planAllowance_session (s : DeletePlanSession) (evs : List Event) :
    planAllowance cfg (some s) evs = s.maxDelete-s.planned := rfl

def nextSession (cfg : Config) (t : DirTree Name) (plan : PlanFrame) (st : ReceiverPendingState) :
    DeletePlanSession :=
  (deletePlanSessionReceive cfg t plan
    { st.planSession.getD (deletePlanSessionCreate cfg) with gone := [] }).1

theorem receiverHandleDeletePlan_cases (t : DirTree Name) (plan : PlanFrame)
    (st : ReceiverPendingState) :
    let r := (receiverHandleDeletePlan cfg t plan st).1
    r = st ∨ (configDeleteTimingPerDir cfg = true ∧ r = { st with
      planSession := some (nextSession cfg t plan st)
      removed := st.removed+(nextSession cfg t plan st).gone.length }) := by
  intro r
  simp only [r, receiverHandleDeletePlan]
  cases hper : configDeleteTimingPerDir cfg with
  | false => exact .inl rfl
  | true => exact .inr ⟨rfl,rfl⟩

theorem receiverHandleDeletePlan_allowance (h : Sane cfg st)
    (ev : Event) (plan : PlanFrame) (hev : ev.frame = .deletePlan plan) (evs : List Event) :
    let r := (receiverHandleDeletePlan cfg ev.tree plan st).1
    Sane cfg r ∧ r.deferredManifest = st.deferredManifest ∧
      r.removed+planAllowance cfg r.planSession evs ≤
        st.removed+planAllowance cfg st.planSession (ev::evs) := by
  intro r
  have htail := @planAllowance_tail cfg st.planSession ev evs
  rcases @receiverHandleDeletePlan_cases cfg ev.tree plan st with hr | ⟨hper,hr⟩
  · rw [show r = st from hr]
    exact ⟨h,rfl,by omega⟩
  · rw [show r = _ from hr]
    have hspend := spends_receive cfg ev.tree plan
      { st.planSession.getD (deletePlanSessionCreate cfg) with gone := [] }
    set s := st.planSession.getD (deletePlanSessionCreate cfg) with hs
    have hstart : s.planned ≤ s.maxDelete ∧
        s.maxDelete-s.planned ≤ planAllowance cfg st.planSession (ev::evs) := by
      cases hsess : st.planSession with
      | some s' =>
        rw [hs, hsess]
        exact ⟨h.session s' hsess,le_rfl⟩
      | none =>
        have hplan : ev.isPlan = true := by
          rw [Event.isPlan, hev]
        rw [hs, hsess]
        refine ⟨Nat.zero_le _,?_⟩
        simp [planAllowance, hplan, hper, deletePlanSessionCreate]
    have hbound : (nextSession cfg ev.tree plan st).maxDelete = s.maxDelete := hspend.bound
    have hgone : (nextSession cfg ev.tree plan st).gone.length+s.planned =
      0+(nextSession cfg ev.tree plan st).planned := hspend.gone
    have hwithin : (nextSession cfg ev.tree plan st).planned ≤ s.maxDelete :=
      hspend.within hstart.1
    refine ⟨⟨h.early,fun x hx => ?_⟩,rfl,?_⟩
    · cases hx
      exact hbound.symm ▸ hwithin
    · rw [planAllowance_session, hbound]
      dsimp only
      omega

theorem finishRemoved_le (h : Sane cfg st) (sink : ReceiverSink)
    (t : DirTree Name) (evs : List Event) :
    finishRemoved cfg sink t st ≤ manifestAllowance cfg st.deferredManifest.isSome evs+
      planAllowance cfg st.planSession evs := by
  have hm : (commitManifest cfg t st.deferredManifest).1.length ≤
      manifestAllowance cfg st.deferredManifest.isSome evs := by
    cases hheld : st.deferredManifest with
    | none => exact Nat.zero_le _
    | some manifest =>
      have hearly : configDeleteTimingEarly cfg = false := by
        rw [← Bool.not_eq_true]
        intro he
        rw [h.early he] at hheld
        cases hheld
      rw [manifestAllowance, hearly]
      exact manifestDeleteAllObserved_bound cfg t manifest
  have hp : ∀ u, (commitPlans cfg u st.planSession).length ≤
      planAllowance cfg st.planSession evs := by
    intro u
    cases hsess : st.planSession with
    | none => exact Nat.zero_le _
    | some s =>
      unfold commitPlans
      dsimp only
      split_ifs
      · exact Nat.zero_le _
      · have hspend := spends_commit cfg u { s with gone := [] }
        have hgone : _+s.planned = 0+_ := hspend.gone
        have hwithin := hspend.within (h.session s hsess)
        rw [planAllowance_session]
        dsimp only at hwithin
        omega
  have hp' := hp (prune t (commitManifest cfg t st.deferredManifest).1)
  unfold finishRemoved
  cases sink with
  | single | threaded writerOk =>
    dsimp only
    split_ifs <;> omega

/-- On every connection, whatever the peer sends, the deletion phases remove at
most one bound for each manifest that is committed at once, one for a manifest
that is held, and one for the plan session. -/
theorem receiverProcessPending_le (sink : ReceiverSink) (evs : List Event)
    (st : ReceiverPendingState) (h : Sane cfg st) :
    receiverProcessPending cfg sink evs st ≤ st.removed+
      (manifestAllowance cfg st.deferredManifest.isSome evs+planAllowance cfg st.planSession evs) := by
  induction evs generalizing st with
  | nil => exact Nat.le_add_right _ _
  | cons ev evs ih =>
    have htm := @manifestAllowance_tail cfg st.deferredManifest.isSome ev evs
    have htp := @planAllowance_tail cfg st.planSession ev evs
    rw [receiverProcessPending]
    split
    · rename_i manifest hev
      obtain ⟨h1,hsess,hle⟩ := receiverHandleManifest_allowance h ev manifest hev evs
      have hrest := ih _ h1
      rw [hsess] at hrest
      dsimp only
      split_ifs <;> omega
    · rename_i plan hev
      obtain ⟨h1,hheld,hle⟩ := receiverHandleDeletePlan_allowance h ev plan hev evs
      have hrest := ih _ h1
      rw [hheld] at hrest
      dsimp only
      split_ifs <;> omega
    · have hrest := ih st h
      split_ifs <;> omega
    · have hfin := finishRemoved_le h sink ev.tree (ev::evs)
      omega

variable (cfg)

/-- The frames of a connection open one budget at most: no second manifest that
would be committed at once, and no manifest beside the plans of a session. -/
def SingleBudget (evs : List Event) : Prop :=
  (configDeleteTimingEarly cfg = true → evs.countP Event.isManifest ≤ 1) ∧
    (configDeleteTimingPerDir cfg = true →
      ¬(evs.any Event.isManifest = true ∧ evs.any Event.isPlan = true))

/-- A connection that opens one budget at most never removes more than its
bound, whatever else the peer sends and however the stream ends. -/
theorem receiverProcessPending_bound (sink : ReceiverSink) (evs : List Event)
    (h : SingleBudget cfg evs) :
    (receiverProcessPending cfg sink evs receiverStart : ℤ) ≤
      if 0 ≤ cfg.maxDelete ∧ cfg.maxDelete < 100000 then cfg.maxDelete else 100000 := by
  have hsane : Sane cfg receiverStart := ⟨fun _ => rfl,fun s hs => by cases hs⟩
  have hle := receiverProcessPending_le sink evs receiverStart hsane
  have hallow : manifestAllowance cfg false evs+planAllowance cfg none evs ≤
      effectiveMaxDelete cfg := by
    obtain ⟨hearly,hper⟩ := h
    unfold manifestAllowance planAllowance
    dsimp only
    by_cases hm : evs.any Event.isManifest = true
    · have hplan : (configDeleteTimingPerDir cfg && evs.any Event.isPlan) = false := by
        rw [← Bool.not_eq_true, Bool.and_eq_true]
        exact fun hp => hper hp.1 ⟨hm,hp.2⟩
      rw [hplan, if_neg Bool.false_ne_true, Nat.add_zero]
      split_ifs with he
      · exact (Nat.mul_le_mul_left (effectiveMaxDelete cfg) (hearly he)).trans_eq (Nat.mul_one _)
      · exact le_rfl
      · exact Nat.zero_le _
    · have hcount : evs.countP Event.isManifest = 0 := by
        rw [List.countP_eq_zero]
        intro ev hev hk
        exact hm (List.any_eq_true.mpr ⟨ev,hev,hk⟩)
      rw [hcount, Bool.false_or, if_neg hm]
      split_ifs <;> omega
  have hbound : (effectiveMaxDelete cfg : ℤ) =
      if 0 ≤ cfg.maxDelete ∧ cfg.maxDelete < 100000 then cfg.maxDelete else 100000 := by
    unfold effectiveMaxDelete maxServerDeleteCount
    split_ifs <;> omega
  rw [← hbound]
  have htotal := hle.trans (Nat.add_le_add_left hallow _)
  simpa [receiverStart] using htotal

end Allowance

def boundedConfig (before during : Bool) : Config where
  receiveRootDirectory := []
  delayUpdates := false
  basisDirs := []
  protectRules := none
  useDelete := true
  deleteMissingArgs := false
  forceDelete := false
  dryRun := false
  deleteBefore := before
  deleteDuring := during
  deleteDelay := false
  maxDelete := 1

def nameB : Name := ⟨[98],by decide⟩

def twoFiles : DirTree Name where
  entries d := if d = [] then [⟨nameA,false⟩,⟨nameB,false⟩] else []
  height _ := 0
  names_nodup d := by
    split_ifs
    · decide
    · exact List.nodup_nil
  height_lt d e he hdir := by
    split_ifs at he
    · simp only [List.mem_cons, List.not_mem_nil, or_false] at he
      rcases he with rfl | rfl <;> cases hdir
    · exact absurd he List.not_mem_nil

def emptyManifest : DeleteManifest := ⟨[],[],[],[[dot]]⟩

/-- With a bound of one, two manifests under `--delete-before` remove both files
of the destination, and so do a plan and a manifest under `--delete-during`. -/
theorem receiverProcessPending_second_budget :
    receiverProcessPending (boundedConfig true false) .single
        [⟨twoFiles,.manifest emptyManifest,true⟩,
          ⟨prune twoFiles [[nameA]],.manifest emptyManifest,true⟩,
          ⟨prune twoFiles [[nameA],[nameB]],.finished,true⟩] receiverStart = 2 ∧
      receiverProcessPending (boundedConfig false true) .single
        [⟨twoFiles,.deletePlan ⟨some ⟨[],[],[]⟩,true,[dot],[],[]⟩,true⟩,
          ⟨prune twoFiles [[nameA]],.manifest emptyManifest,true⟩,
          ⟨prune twoFiles [[nameA]],.finished,true⟩] receiverStart = 2 := by
  decide +kernel

/-- One manifest after a keepalive stays within the bound. -/
theorem receiverProcessPending_bound_single :
    (receiverProcessPending (boundedConfig true false) .single
      [⟨twoFiles,.other .next,true⟩,⟨twoFiles,.manifest emptyManifest,true⟩,
        ⟨prune twoFiles [[nameA]],.finished,true⟩] receiverStart : ℤ) ≤ 1 := by
  have h := receiverProcessPending_bound (boundedConfig true false) .single
    [⟨twoFiles,.other .next,true⟩,⟨twoFiles,.manifest emptyManifest,true⟩,
      ⟨prune twoFiles [[nameA]],.finished,true⟩] ⟨fun _ => by decide,fun hp => by cases hp⟩
  simpa [boundedConfig] using h

end FastSync.DeleteReceiver
