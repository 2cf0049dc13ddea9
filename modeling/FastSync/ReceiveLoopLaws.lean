import FastSync.ReceiveLoop
import FastSync.SessionAccounts

/-!
# What the receive loop does with what it parks

Up to the end of the stream nothing is committed and nothing is handed over. After it
a parked manifest and a plan session each meet one fate. An object is released once,
by whoever owns it last.
-/

set_option autoImplicit false

namespace FastSync.ReceiveLoopLaws
open FiniteTree DeletePaths DeletePlan DeleteCommit
open DeleteSession DelayedPlans ReceiveLoop
open DeleteReceiver (ReceiverStep configDeleteTimingEarly configDeleteTimingPerDir)
open ReceiverSession (Clock)

def isCreated (o : Object) : Event → Bool
  | .created o' => o' = o
  | _ => false

def isDestroyed (o : Object) : Event → Bool
  | .destroyed o' => o' = o
  | _ => false

def isHandedOver (o : Object) : Event → Bool
  | .handedOver o' => o' = o
  | _ => false

def isManifestDeleted : Event → Bool
  | .manifestDeleted _ => true
  | _ => false

def isPlanCommitted : Event → Bool
  | .planCommitted _ _ => true
  | _ => false

def isDispatched : Event → Bool
  | .keepaliveDispatched => true
  | _ => false

def isReply : Event → Bool
  | .keepaliveSent _ => true
  | _ => false

def isDelivered : Event → Bool
  | .keepaliveSent delivered => delivered
  | _ => false

def Late (cfg : Config) : Event → Prop
  | .manifestDeleted _ => configDeleteTimingEarly cfg = false
  | .planCommitted _ _ => True
  | .handedOver _ => True
  | _ => False

/-- A plan that is applied under `--delete-delay` removes only what is in the way. -/
def Spares (cfg : Config) : Event → Prop
  | .planApplied _ t plan removed => cfg.deleteDelay = true → ∀ p ∈ removed, Blocks t plan p
  | _ => True

structure Early (cfg : Config) (e : Event) : Prop where
  notLate : ¬ Late cfg e
  spares : Spares cfg e

/-! ## Owners -/

def Object.id : Object → ℕ
  | .manifest id => id
  | .session id => id

/-- Every object created is owned by one of `owners` or released. -/
structure Owned (owners : List Object) (nextId : ℕ) (log : List Event) : Prop where
  once : ∀ o, log.countP (isCreated o) ≤ 1
  settled : ∀ o, log.countP (isDestroyed o)+log.countP (isHandedOver o)+owners.count o =
    log.countP (isCreated o)
  fresh : ∀ o, nextId ≤ Object.id o → log.countP (isCreated o) = 0

section Ledger
variable {owners owners' : List Object} {nextId : ℕ} {log : List Event}

theorem owned_nil : Owned [] 0 [] :=
  ⟨fun _ => Nat.zero_le _,fun _ => rfl,fun _ _ => rfl⟩

theorem owned_create {o : Object} (h : Owned owners nextId log) (ho : Object.id o = nextId) :
    Owned (o::owners) (nextId+1) (log++[.created o]) := by
  have hcount : ∀ x, (log++[Event.created o]).countP (isCreated x) =
      log.countP (isCreated x)+if o = x then 1 else 0 := by
    intro x
    simp [List.countP_append,List.countP_cons,isCreated]
  apply Owned.mk
  · intro x
    rw [hcount]
    split_ifs with hx
    · rw [h.fresh x (by rw [← hx, ho])]
    · exact h.once x
  · intro x
    have hs := h.settled x
    rw [hcount,List.countP_append,List.countP_append,List.count_cons]
    by_cases hx : o = x
    · simp [hx,isDestroyed,isHandedOver]
      omega
    · simp [hx,isDestroyed,isHandedOver]
      omega
  · intro x hx
    rw [hcount,h.fresh x (by omega),if_neg]
    intro heq
    rw [← heq,ho] at hx
    omega

theorem owned_other {e : Event} (h : Owned owners nextId log)
    (he : ∀ o, isCreated o e = false ∧ isDestroyed o e = false ∧ isHandedOver o e = false) :
    Owned owners nextId (log++[e]) := by
  apply Owned.mk
  · intro o
    simpa [List.countP_append,List.countP_cons,he] using h.once o
  · intro o
    simpa [List.countP_append,List.countP_cons,he] using h.settled o
  · intro o ho
    simpa [List.countP_append,List.countP_cons,he] using h.fresh o ho

section
variable {o : Object} {e : Event} (h : Owned (o::owners) nextId log)
include h

theorem owned_release (he : e = .destroyed o ∨ e = .handedOver o) :
    Owned owners nextId (log++[e]) := by
  have hcreated : ∀ x, isCreated x e = false := by
    intro x
    apply he.elim <;> (intro he; rw [he]; rfl)
  have hreleased : ∀ x, [e].countP (isDestroyed x)+[e].countP (isHandedOver x) =
      if o = x then 1 else 0 := by
    intro x
    apply he.elim <;> (intro he; rw [he]; simp [List.countP_cons,isDestroyed,isHandedOver])
  apply Owned.mk
  · intro x
    simpa [List.countP_append,List.countP_cons,hcreated] using h.once x
  · intro x
    have hs := h.settled x
    have hr := hreleased x
    rw [List.count_cons] at hs
    rw [List.countP_append,List.countP_append,List.countP_append,
      show [e].countP (isCreated x) = 0 by simp [hcreated]]
    by_cases hx : o = x
    · simp only [hx,beq_self_eq_true,if_true] at hs hr
      omega
    · simp only [hx,beq_iff_eq,if_false] at hs hr
      omega
  · intro x hx
    simpa [List.countP_append,List.countP_cons,hcreated] using h.fresh x hx

theorem owned_used
    (he : ∀ o, isCreated o e = false ∧ isDestroyed o e = false ∧ isHandedOver o e = false) :
    Owned owners nextId (log++[e,.destroyed o]) := by
  rw [List.append_cons]
  exact owned_release (owned_other h he) (.inl rfl)

end

theorem owned_perm (h : Owned owners nextId log) (hp : owners.Perm owners') :
    Owned owners' nextId log :=
  ⟨h.once,fun o => by rw [← hp.count_eq]; exact h.settled o,h.fresh⟩

end Ledger

def held (st : State) : List Object :=
  (st.deferredManifest.map fun m => Object.manifest m.1).toList++
    (st.planSession.map fun s => Object.session s.1).toList

/-! ## While the stream lasts -/

/-- `slack` counts the replies to a keepalive that could not be sent. -/
structure Parked (cfg : Config) (slack : ℕ) (st : State) : Prop where
  early : ∀ e ∈ st.log, Early cfg e
  owned : Owned (held st) st.nextId st.log
  nothingOut : st.pendingManifest = none ∧ st.pendingPlans = none
  replies : st.log.countP isReply = st.log.countP isDispatched
  delivered : st.log.countP isDelivered+slack = st.log.countP isDispatched
  defers : ∀ id s, st.planSession = some (id,s) → cfg.deleteDelay = true → s.defer = true

theorem parked_start {cfg : Config} : Parked cfg 0 start where
  early := by
    intro e he
    cases he
  owned := owned_nil
  nothingOut := ⟨rfl,rfl⟩
  replies := rfl
  delivered := rfl
  defers := by
    intro id s h
    cases h

section Steps
variable {cfg : Config} {slack : ℕ} {st st' : State}

def Calm (e : Event) : Prop := isReply e = false ∧ isDelivered e = false ∧ isDispatched e = false

theorem calm_countP {events : List Event} (h : ∀ e ∈ events, Calm e) :
    events.countP isReply = 0 ∧ events.countP isDelivered = 0 ∧ events.countP isDispatched = 0 := by
  refine ⟨List.countP_eq_zero.mpr ?_,List.countP_eq_zero.mpr ?_,List.countP_eq_zero.mpr ?_⟩
  · exact fun e he => by simp [(h e he).1]
  · exact fun e he => by simp [(h e he).2.1]
  · exact fun e he => by simp [(h e he).2.2]

theorem parked_next (events : List Event) (h : Parked cfg slack st)
    (hlog : st'.log = st.log++events) (hquiet : ∀ e ∈ events, Early cfg e ∧ Calm e)
    (howned : Owned (held st') st'.nextId st'.log)
    (hout : st'.pendingManifest = st.pendingManifest ∧ st'.pendingPlans = st.pendingPlans)
    (hdefers : ∀ id s, st'.planSession = some (id,s) →
      cfg.deleteDelay = true → s.defer = true) : Parked cfg slack st' := by
  obtain ⟨hreply,hdelivered,hdispatched⟩ := calm_countP fun e he => (hquiet e he).2
  apply Parked.mk
  · intro e he
    rw [hlog,List.mem_append] at he
    exact he.elim (h.early e) fun he => (hquiet e he).1
  · exact howned
  · rw [hout.1,hout.2]
    exact h.nothingOut
  · rw [hlog,List.countP_append,List.countP_append,hreply,hdispatched]
    exact h.replies
  · rw [hlog,List.countP_append,List.countP_append,hdelivered,hdispatched]
    exact h.delivered
  · exact hdefers

theorem parked_keepalive {sent : Bool} (h : Parked cfg 0 st) :
    Parked cfg (if sent then 0 else 1)
      (receiverHandleKeepalive sent (emit st [.keepaliveDispatched])).1 := by
  have hlog : (receiverHandleKeepalive sent (emit st [.keepaliveDispatched])).1.log =
      st.log++[.keepaliveDispatched]++[.keepaliveSent sent] := rfl
  have hreplies := h.replies
  have hdelivered := h.delivered
  apply Parked.mk
  · intro e he
    rw [hlog,List.append_assoc,List.mem_append] at he
    apply he.elim (h.early e)
    intro he
    simp only [List.cons_append,List.nil_append,List.mem_cons,List.not_mem_nil,or_false] at he
    apply he.elim <;> (intro he; rw [he]; exact ⟨not_false,trivial⟩)
  · rw [hlog]
    apply owned_other (owned_other h.owned _) _ <;> exact fun _ => ⟨rfl,rfl,rfl⟩
  · exact h.nothingOut
  · simp only [hlog,List.countP_append,hreplies]
    rfl
  · simp only [hlog,List.countP_append]
    cases sent with
    | false | true => exact congrArg (·+1) hdelivered
  · exact h.defers

theorem quiet_created {o : Object} : Early cfg (.created o) ∧ Calm (.created o) :=
  ⟨⟨not_false,trivial⟩,rfl,rfl,rfl⟩

theorem quiet_destroyed {o : Object} : Early cfg (.destroyed o) ∧ Calm (.destroyed o) :=
  ⟨⟨not_false,trivial⟩,rfl,rfl,rfl⟩

theorem parked_limitNoted {noted : Bool} (h : Parked cfg slack st) :
    Parked cfg slack { emit st [.deleteLimitNoted] with deleteLimitNoted := noted } := by
  refine parked_next _ h rfl (List.forall_mem_singleton.mpr ?_) ?_ ⟨rfl,rfl⟩ h.defers
  · exact ⟨⟨not_false,trivial⟩,rfl,rfl,rfl⟩
  · exact owned_other h.owned fun _ => ⟨rfl,rfl,rfl⟩

theorem parked_limit {sink : Sink} (h : Parked cfg slack st) :
    Parked cfg slack (noteDeleteLimit sink st) := by
  unfold noteDeleteLimit
  split_ifs
  · exact parked_limitNoted h
  · exact h

theorem parked_limitOnce (sink : Sink) {limit : Bool} (h : Parked cfg slack st) :
    Parked cfg slack (noteDeleteLimitOnce sink limit st) := by
  unfold noteDeleteLimitOnce
  split_ifs
  · exact parked_limitNoted h
  · exact h

theorem parked_manifest (uses : List Event) (h : Parked cfg slack st)
    (hquiet : ∀ e ∈ uses, Early cfg e ∧ Calm e)
    (hother : ∀ log, Owned (.manifest st.nextId::held st) (st.nextId+1) log →
      Owned (.manifest st.nextId::held st) (st.nextId+1) (log++uses)) :
    Parked cfg slack (emit (create st .manifest) (uses++[.destroyed (.manifest st.nextId)])) := by
  refine parked_next (.created (.manifest st.nextId)::
    (uses++[.destroyed (.manifest st.nextId)])) h ?_ ?_ ?_ ⟨rfl,rfl⟩ h.defers
  · simp [emit,create]
  · rw [List.forall_mem_cons,List.forall_mem_append,List.forall_mem_singleton]
    exact ⟨quiet_created,hquiet,quiet_destroyed⟩
  · have howned := hother _ (owned_create (o := .manifest st.nextId) h.owned rfl)
    have hreleased := owned_release howned (.inl rfl)
    rw [List.append_assoc] at hreleased
    exact hreleased

theorem parked_discardManifest (h : Parked cfg slack st) :
    Parked cfg slack (discardManifest st) := by
  apply parked_manifest [] h (List.forall_mem_nil _)
  intro log hlog
  rw [List.append_nil]
  exact hlog

section
variable {sink : Sink} {t : DirTree Name}

theorem parked_deleteAtOnce {manifest : DeleteManifest} {sent : Bool}
    (htiming : configDeleteTimingEarly cfg = true) (h : Parked cfg slack st) :
    Parked cfg slack (deleteAtOnce cfg sink t manifest sent st).1 := by
  have hused : Parked cfg slack (emit (create st .manifest)
      [.manifestDeleted st.nextId,.destroyed (.manifest st.nextId)]) := by
    have hnotLate : ¬ Late cfg (.manifestDeleted st.nextId) :=
      fun hlate => Bool.noConfusion (htiming.symm.trans hlate)
    apply parked_manifest [.manifestDeleted st.nextId] h
    · exact List.forall_mem_singleton.mpr ⟨⟨hnotLate,trivial⟩,rfl,rfl,rfl⟩
    · exact fun log hlog => owned_other hlog fun _ => ⟨rfl,rfl,rfl⟩
  unfold deleteAtOnce
  by_cases herror : (manifestDeleteAllObserved cfg t manifest).2 = .error
  · rw [if_pos herror]
    exact hused
  · rw [if_neg herror]
    show Parked cfg slack (if (manifestDeleteAllObserved cfg t manifest).2 = .limitReached then
      noteDeleteLimit sink _ else _)
    split_ifs
    · exact parked_limit hused
    · exact hused

theorem parked_holdManifest {manifest : DeleteManifest} (h : Parked cfg slack st) :
    Parked cfg slack (holdManifest manifest st).1 := by
  have hnew : Owned (.manifest st.nextId::held st) (st.nextId+1)
      (st.log++[.created (.manifest st.nextId)]) := owned_create h.owned rfl
  unfold holdManifest
  split
  · rename_i first _ hfirst
    refine parked_next [.created (.manifest st.nextId),.destroyed (.manifest first),
      .destroyed (.manifest st.nextId)] h ?_ ?_ ?_ ⟨rfl,rfl⟩ h.defers
    · simp [emit,create]
    · exact List.forall_mem_cons.mpr ⟨quiet_created,List.forall_mem_cons.mpr
        ⟨quiet_destroyed,List.forall_mem_singleton.mpr quiet_destroyed⟩⟩
    · have hheld : held st = .manifest first::
          (st.planSession.map fun s => Object.session s.1).toList := by
        rw [held,hfirst]
        rfl
      rw [hheld] at hnew
      have hswap := owned_perm hnew (List.Perm.swap _ _ _)
      have hboth := owned_release (owned_release hswap (.inl rfl)) (.inl rfl)
      simp only [List.append_assoc,List.cons_append,List.nil_append] at hboth
      simp only [emit,create,List.append_assoc,List.cons_append,List.nil_append]
      exact hboth
  · rename_i hnone
    have hheld : held st = (st.planSession.map fun s => Object.session s.1).toList := by
      rw [held,hnone]
      rfl
    rw [hheld] at hnew
    exact parked_next [.created (.manifest st.nextId)] h rfl
      (List.forall_mem_singleton.mpr quiet_created) hnew ⟨rfl,rfl⟩ h.defers

theorem parked_receiverHandleManifest {manifest : Option DeleteManifest} {sent : Bool}
    (h : Parked cfg slack st) :
    Parked cfg slack (receiverHandleManifest cfg sink t manifest sent st).1 := by
  cases manifest with
  | none => exact h
  | some manifest =>
    unfold receiverHandleManifest
    dsimp only
    by_cases hdry : cfg.dryRun = true
    · rw [if_pos hdry]
      exact parked_discardManifest h
    rw [if_neg hdry]
    by_cases htiming : configDeleteTimingEarly cfg = true
    · rw [if_pos htiming]
      by_cases hdelete : (cfg.useDelete || cfg.deleteMissingArgs) = true
      · rw [if_pos hdelete]
        exact parked_deleteAtOnce htiming h
      · rw [if_neg hdelete]
        exact parked_discardManifest h
    · rw [if_neg htiming]
      by_cases hdelete : (cfg.useDelete || cfg.deleteMissingArgs) = true
      · rw [if_pos hdelete]
        exact parked_holdManifest h
      · rw [if_neg hdelete]
        exact parked_discardManifest h

theorem parked_openPlanSession (sessionCreated : Bool) (h : Parked cfg slack st) :
    Parked cfg slack (openPlanSession cfg sessionCreated st) := by
  unfold openPlanSession
  split
  · exact h
  · rename_i hnone
    split_ifs
    · refine parked_next [.created (.session st.nextId)] h rfl
        (List.forall_mem_singleton.mpr quiet_created) ?_ ⟨rfl,rfl⟩ ?_
      · have hheld : held st = (st.deferredManifest.map fun m => Object.manifest m.1).toList := by
          rw [held,hnone]
          exact List.append_nil _
        have hnew := owned_create (o := .session st.nextId) h.owned rfl
        rw [hheld] at hnew
        have hperm : ([Object.session st.nextId]++
            (st.deferredManifest.map fun m => Object.manifest m.1).toList).Perm _ :=
          List.perm_append_comm
        exact owned_perm hnew hperm
      · intro id s hs
        cases hs
        exact id
    · exact h

theorem parked_receiverHandleDeletePlan {plan : Option PlanFrame} {sessionCreated : Bool}
    (h : Parked cfg slack st) :
    Parked cfg slack (receiverHandleDeletePlan cfg sink t plan sessionCreated st).1 := by
  unfold receiverHandleDeletePlan
  dsimp only
  by_cases htiming : (!configDeleteTimingPerDir cfg) = true
  · rw [if_pos htiming]
    exact h
  rw [if_neg htiming]
  have hopen := parked_openPlanSession sessionCreated h
  split
  · exact hopen
  · exact hopen
  · rename_i id s plan hs
    have happlied := deferring_receive cfg t plan { s with gone := [] }
    have hdefer := hopen.defers id s hs
    have hparked : Parked cfg slack
        { emit (openPlanSession cfg sessionCreated st) [.planApplied id t plan
            (deletePlanSessionReceive cfg t plan { s with gone := [] }).1.gone] with
          planSession := some (id,(deletePlanSessionReceive cfg t plan { s with gone := [] }).1) } := by
      refine parked_next _ hopen rfl (List.forall_mem_singleton.mpr ⟨⟨not_false,?_⟩,rfl,rfl,rfl⟩)
        ?_ ⟨rfl,rfl⟩ ?_
      · intro hdelay p hp
        exact (happlied.gone (hdefer hdelay) p hp).resolve_left List.not_mem_nil
      · have howned := owned_other (e := .planApplied id t plan
          (deletePlanSessionReceive cfg t plan { s with gone := [] }).1.gone) hopen.owned
          fun _ => ⟨rfl,rfl,rfl⟩
        rw [held,hs] at howned
        exact howned
      · intro id' s' hs'
        cases hs'
        exact fun hdelay => happlied.defers (hdefer hdelay)
    by_cases hok : (deletePlanSessionReceive cfg t plan { s with gone := [] }).2 = true
    · rw [if_pos hok]
      exact parked_limitOnce sink hparked
    · rw [if_neg hok]
      exact hparked

/-- A frame leaves nothing but the reply to a keepalive unsettled, and only when the
connection ends with it. -/
theorem parked_dispatch {frame : Frame} (h : Parked cfg 0 st) :
    ∃ slack, slack ≤ 1 ∧ Parked cfg slack (receiverDispatchStatus cfg sink t frame st).1 ∧
      ((receiverDispatchStatus cfg sink t frame st).2 = .next → slack = 0) := by
  cases frame with
  | keepalive sent =>
    refine ⟨_,?_,parked_keepalive h,?_⟩
    · split_ifs <;> omega
    · cases sent with
      | false =>
        intro hstep
        cases hstep
      | true => exact fun _ => rfl
  | manifest manifest sent =>
    exact ⟨0,Nat.zero_le _,parked_receiverHandleManifest h,fun _ => rfl⟩
  | deletePlan plan sessionCreated =>
    exact ⟨0,Nat.zero_le _,parked_receiverHandleDeletePlan h,
      fun _ => rfl⟩
  | _ => exact ⟨0,Nat.zero_le _,h,fun _ => rfl⟩

end

theorem receiverDropPending_eq (st : State) :
    receiverDropPending st =
      { emit st ((held st).map .destroyed) with
        deferredManifest := none
        planSession := none } := by
  unfold receiverDropPending held
  cases hm : st.deferredManifest with
  | none =>
    cases hs : st.planSession with
    | none =>
      cases st
      cases hm
      cases hs
      simp [emit]
    | some p => simp [emit,hs,hm]
  | some m =>
    cases hs : st.planSession with
    | none | some p => simp [emit,hs]

theorem owned_drop {owners : List Object} {nextId : ℕ} {log : List Event}
    (h : Owned owners nextId log) : Owned [] nextId (log++owners.map .destroyed) := by
  induction owners generalizing log with
  | nil =>
    rw [List.map_nil,List.append_nil]
    exact h
  | cons o owners ih =>
    have hrest := ih (owned_release h (.inl rfl))
    rw [List.append_assoc] at hrest
    exact hrest

theorem mem_map_destroyed {owners : List Object} {e : Event}
    (h : e ∈ owners.map Event.destroyed) : ∃ o, e = .destroyed o := by
  obtain ⟨o,_,ho⟩ := List.mem_map.mp h
  exact ⟨o,ho.symm⟩

theorem parked_drop (h : Parked cfg slack st) : Parked cfg slack (receiverDropPending st) := by
  rw [receiverDropPending_eq]
  refine parked_next _ h rfl ?_ (owned_drop h.owned) ⟨rfl,rfl⟩ ?_
  · intro e he
    obtain ⟨o,ho⟩ := mem_map_destroyed he
    rw [ho]
    exact quiet_destroyed
  · intro id s hs
    cases hs

end Steps

/-! ## After the stream -/

/-- The stream has finished; `after` has happened since. -/
structure Closing (cfg : Config) (before after : List Event) (st : State) : Prop where
  log : st.log = before++.finishedRead::after
  early : ∀ e ∈ before, Early cfg e
  spares : ∀ e ∈ after, Spares cfg e
  deletions : after.countP isManifestDeleted+st.deferredManifest.toList.length ≤ 1
  commits : after.countP isPlanCommitted+st.planSession.toList.length ≤ 1
  owned : Owned (held st) st.nextId st.log
  outManifest : ∀ id, st.pendingManifest = some id ↔ .handedOver (.manifest id) ∈ after
  outPlans : ∀ id, st.pendingPlans = some id ↔ .handedOver (.session id) ∈ after
  unset : (st.deferredManifest = none ∨ st.pendingManifest = none) ∧
    (st.planSession = none ∨ st.pendingPlans = none)
  replies : st.log.countP isReply = st.log.countP isDispatched
  delivered : st.log.countP isDelivered = st.log.countP isDispatched

section Closing
variable {cfg : Config} {before after : List Event} {st st' : State}

theorem closing_finished (h : Parked cfg 0 st) :
    Closing cfg st.log [] (emit st [.finishedRead]) := by
  apply Closing.mk rfl h.early
  · intro e he
    cases he
  · have hlength : st.deferredManifest.toList.length ≤ 1 := by
      cases st.deferredManifest <;> simp
    rw [List.countP_nil,Nat.zero_add]
    exact hlength
  · have hlength : st.planSession.toList.length ≤ 1 := by
      cases st.planSession <;> simp
    rw [List.countP_nil,Nat.zero_add]
    exact hlength
  · exact owned_other h.owned fun _ => ⟨rfl,rfl,rfl⟩
  · intro id
    rw [show (emit st [.finishedRead]).pendingManifest = none from h.nothingOut.1]
    simp
  · intro id
    rw [show (emit st [.finishedRead]).pendingPlans = none from h.nothingOut.2]
    simp
  · exact ⟨.inr h.nothingOut.1,.inr h.nothingOut.2⟩
  · simp only [emit,List.countP_append,h.replies]
    rfl
  · have hdelivered := h.delivered
    simp only [emit,List.countP_append,← hdelivered]
    rfl

theorem closing_next (events : List Event) (h : Closing cfg before after st)
    (hlog : st'.log = st.log++events) (hquiet : ∀ e ∈ events, Calm e ∧ Spares cfg e)
    (hdeletions : events.countP isManifestDeleted+st'.deferredManifest.toList.length ≤
      st.deferredManifest.toList.length)
    (hcommits : events.countP isPlanCommitted+st'.planSession.toList.length ≤
      st.planSession.toList.length)
    (howned : Owned (held st') st'.nextId st'.log)
    (hmanifest : ∀ id, st'.pendingManifest = some id ↔
      st.pendingManifest = some id ∨ .handedOver (.manifest id) ∈ events)
    (hplans : ∀ id, st'.pendingPlans = some id ↔
      st.pendingPlans = some id ∨ .handedOver (.session id) ∈ events)
    (hunset : (st'.deferredManifest = none ∨ st'.pendingManifest = none) ∧
      (st'.planSession = none ∨ st'.pendingPlans = none)) :
    Closing cfg before (after++events) st' := by
  obtain ⟨hreply,hdelivered,hdispatched⟩ := calm_countP fun e he => (hquiet e he).1
  have hd := h.deletions
  have hc := h.commits
  apply Closing.mk
  · rw [hlog,h.log,List.append_assoc,List.cons_append]
  · exact h.early
  · intro e he
    exact (List.mem_append.mp he).elim (h.spares e) fun he => (hquiet e he).2
  · rw [List.countP_append]
    omega
  · rw [List.countP_append]
    omega
  · exact howned
  · intro id
    rw [hmanifest,h.outManifest,List.mem_append]
  · intro id
    rw [hplans,h.outPlans,List.mem_append]
  · exact hunset
  · rw [hlog,List.countP_append,List.countP_append,hreply,hdispatched]
    exact h.replies
  · rw [hlog,List.countP_append,List.countP_append,hdelivered,hdispatched]
    exact h.delivered

theorem closing_drop (h : Closing cfg before after st) :
    Closing cfg before (after++(held st).map .destroyed) (receiverDropPending st) := by
  have hnone : ∀ p : Event → Bool, (∀ o, p (.destroyed o) = false) →
      ((held st).map Event.destroyed).countP p = 0 := by
    intro p hp
    apply List.countP_eq_zero.mpr
    intro e he
    obtain ⟨o,ho⟩ := mem_map_destroyed he
    rw [ho,hp]
    decide
  have hkept : ∀ o, Event.handedOver o ∉ (held st).map Event.destroyed := by
    intro o he
    obtain ⟨o',ho⟩ := mem_map_destroyed he
    cases ho
  rw [receiverDropPending_eq]
  refine closing_next _ h rfl ?_ ?_ ?_ (owned_drop h.owned) ?_ ?_ ⟨.inl rfl,.inl rfl⟩
  · intro e he
    obtain ⟨o,ho⟩ := mem_map_destroyed he
    rw [ho]
    exact ⟨⟨rfl,rfl,rfl⟩,trivial⟩
  · rw [hnone _ fun _ => rfl]
    exact Nat.zero_le _
  · rw [hnone _ fun _ => rfl]
    exact Nat.zero_le _
  · intro id
    simp [hkept,emit]
  · intro id
    simp [hkept,emit]

theorem closing_limit {sink : Sink} (h : Closing cfg before after st) :
    ∃ after', Closing cfg before after' (noteDeleteLimit sink st) := by
  unfold noteDeleteLimit
  split_ifs
  · refine ⟨_,closing_next [.deleteLimitNoted] h rfl ?_ ?_ ?_ ?_ ?_ ?_ h.unset⟩
    · intro e he
      rw [List.mem_singleton.mp he]
      exact ⟨⟨rfl,rfl,rfl⟩,trivial⟩
    · exact Nat.le_of_eq (Nat.zero_add _)
    · exact Nat.le_of_eq (Nat.zero_add _)
    · exact owned_other h.owned fun _ => ⟨rfl,rfl,rfl⟩
    · simp [emit]
    · simp [emit]
  · exact ⟨after,h⟩

theorem closing_manifestOut {m : ℕ × DeleteManifest} (events : List Event) (out : Option ℕ)
    (h : Closing cfg before after st) (hm : st.deferredManifest = some m)
    (hquiet : ∀ e ∈ events, Calm e ∧ Spares cfg e)
    (hdeletions : events.countP isManifestDeleted ≤ 1)
    (hcommits : events.countP isPlanCommitted = 0)
    (howned : Owned (.manifest m.1::(st.planSession.map fun s => Object.session s.1).toList)
        st.nextId st.log →
      Owned (st.planSession.map fun s => Object.session s.1).toList st.nextId (st.log++events))
    (hout : ∀ id, out = some id ↔ .handedOver (.manifest id) ∈ events)
    (hkept : ∀ id, .handedOver (.session id) ∉ events) :
    Closing cfg before (after++events) { emit st events with
        deferredManifest := none
        pendingManifest := out } := by
  have hunset : st.pendingManifest = none := h.unset.1.resolve_left (by simp [hm])
  have hheld := h.owned
  rw [held,hm] at hheld
  refine closing_next events h rfl hquiet ?_ ?_ (howned hheld) ?_ ?_ ⟨.inl rfl,h.unset.2⟩
  · rw [hm]
    exact hdeletions
  · rw [hcommits]
    exact Nat.le_of_eq (Nat.zero_add _)
  · simp [hunset,hout]
  · simp [hkept,emit]

theorem closing_finishManifest {sink : Sink} {t : DirTree Name} (h : Closing cfg before after st) :
    ∃ after', Closing cfg before after' (finishManifest cfg sink t st).1 ∧
      (finishManifest cfg sink t st).1.deferredManifest = none := by
  unfold finishManifest
  cases hm : st.deferredManifest with
  | none => exact ⟨after,h,hm⟩
  | some m =>
    have hunset : st.pendingManifest = none := h.unset.1.resolve_left (by simp [hm])
    have hdeleted := closing_manifestOut [.manifestDeleted m.1,.destroyed (.manifest m.1)]
      st.pendingManifest h hm (by simp [Calm,isReply,isDelivered,isDispatched,Spares])
      (Nat.le_refl 1) rfl ?_ (by simp [hunset]) (by simp)
    dsimp only
    split_ifs with htakes herror hlimit
    · refine ⟨_,closing_manifestOut [.handedOver (.manifest m.1)] (some m.1) h hm
        (by simp [Calm,isReply,isDelivered,isDispatched,Spares]) (Nat.zero_le 1) rfl
        (fun howned => owned_release howned (.inr rfl)) ?_ (by simp),rfl⟩
      simp [eq_comm]
    · exact ⟨_,hdeleted,rfl⟩
    · obtain ⟨after',hafter⟩ := closing_limit hdeleted
      refine ⟨after',hafter,?_⟩
      unfold noteDeleteLimit
      split_ifs <;> rfl
    · exact ⟨_,hdeleted,rfl⟩
    · exact fun howned => owned_used howned fun _ => ⟨rfl,rfl,rfl⟩

theorem closing_plansOut {p : ℕ × DeletePlanSession} (events : List Event) (out : Option ℕ)
    (h : Closing cfg before after st) (hs : st.planSession = some p)
    (hquiet : ∀ e ∈ events, Calm e ∧ Spares cfg e)
    (hdeletions : events.countP isManifestDeleted = 0)
    (hcommits : events.countP isPlanCommitted ≤ 1)
    (howned : ∀ owners, Owned (.session p.1::owners) st.nextId st.log →
      Owned owners st.nextId (st.log++events))
    (hout : ∀ id, out = some id ↔ .handedOver (.session id) ∈ events)
    (hkept : ∀ id, .handedOver (.manifest id) ∉ events) :
    Closing cfg before (after++events) { emit st events with
        planSession := none
        pendingPlans := out } := by
  have hunset : st.pendingPlans = none := h.unset.2.resolve_left (by simp [hs])
  have hheld := owned_perm h.owned (List.perm_append_comm :
    (held st).Perm ((st.planSession.map fun s => Object.session s.1).toList++
      (st.deferredManifest.map fun m => Object.manifest m.1).toList))
  rw [hs] at hheld
  refine closing_next events h rfl hquiet ?_ ?_ ?_ ?_ ?_ ⟨h.unset.1,.inl rfl⟩
  · rw [hdeletions]
    exact Nat.le_of_eq (Nat.zero_add _)
  · rw [hs]
    exact hcommits
  · have hrest := howned _ hheld
    rw [← List.append_nil (Option.toList _)] at hrest
    exact hrest
  · simp [hkept,emit]
  · simp [hunset,hout]

theorem closing_finishPlans {sink : Sink} {t : DirTree Name} (h : Closing cfg before after st) :
    ∃ after', Closing cfg before after' (finishPlans cfg sink t st).1 ∧
      (finishPlans cfg sink t st).1.planSession = none ∧
      (finishPlans cfg sink t st).1.deferredManifest = st.deferredManifest := by
  unfold finishPlans
  cases hs : st.planSession with
  | none => exact ⟨after,h,hs,rfl⟩
  | some p =>
    have hunset : st.pendingPlans = none := h.unset.2.resolve_left (by simp [hs])
    have hcommitted := closing_plansOut [.planCommitted p.1
        (deletePlanSessionCommit cfg t { p.2 with gone := [] }).1.gone,.destroyed (.session p.1)]
      st.pendingPlans h hs (by simp [Calm,isReply,isDelivered,isDispatched,Spares])
      rfl (Nat.le_refl 1) ?_ (by simp [hunset]) (by simp)
    dsimp only
    split_ifs with htakes hdry herror hlimit
    · refine ⟨_,closing_plansOut [.handedOver (.session p.1)] (some p.1) h hs
        (by simp [Calm,isReply,isDelivered,isDispatched,Spares]) rfl (Nat.zero_le 1)
        (fun _ howned => owned_release howned (.inr rfl)) ?_ (by simp),rfl,rfl⟩
      simp [eq_comm]
    · exact ⟨_,closing_plansOut [.destroyed (.session p.1)] st.pendingPlans h hs
        (by simp [Calm,isReply,isDelivered,isDispatched,Spares]) rfl (Nat.zero_le 1)
        (fun _ howned => owned_release howned (.inl rfl)) (by simp [hunset]) (by simp),rfl,rfl⟩
    · exact ⟨_,hcommitted,rfl,rfl⟩
    · obtain ⟨after',hafter⟩ := closing_limit hcommitted
      refine ⟨after',hafter,?_,?_⟩ <;> (unfold noteDeleteLimit; split_ifs <;> rfl)
    · exact ⟨_,hcommitted,rfl,rfl⟩
    · exact fun _ howned => owned_used howned fun _ => ⟨rfl,rfl,rfl⟩

end Closing

/-! ## The whole call -/

structure Settled (cfg : Config) (st : State) (ok : Bool) : Prop where
  afterFinished : ∀ before e after, st.log = before++e::after → Late cfg e →
    .finishedRead ∈ before
  spares : ∀ e ∈ st.log, Spares cfg e
  oneDeletion : configDeleteTimingEarly cfg = false → st.log.countP isManifestDeleted ≤ 1
  oneCommit : st.log.countP isPlanCommitted ≤ 1
  unfinished : ok = false → .finishedRead ∉ st.log →
    (∀ e ∈ st.log, ¬ Late cfg e) ∧ st.pendingManifest = none ∧ st.pendingPlans = none
  releasedOnce : ∀ o, st.log.countP (isCreated o) ≤ 1 ∧
    st.log.countP (isDestroyed o)+st.log.countP (isHandedOver o) = st.log.countP (isCreated o)
  outManifest : ∀ id, st.pendingManifest = some id ↔ .handedOver (.manifest id) ∈ st.log
  outPlans : ∀ id, st.pendingPlans = some id ↔ .handedOver (.session id) ∈ st.log
  replies : st.log.countP isReply = st.log.countP isDispatched
  delivered : st.log.countP isDelivered ≤ st.log.countP isDispatched ∧
    st.log.countP isDispatched ≤ st.log.countP isDelivered+1 ∧
    (ok = true → st.log.countP isDelivered = st.log.countP isDispatched)

section Whole
variable {cfg : Config} {slack : ℕ} {before after : List Event} {st : State}

theorem held_drop {st : State} : held (receiverDropPending st) = [] := by
  rw [receiverDropPending_eq]
  rfl

theorem early_countP {log : List Event} (h : ∀ e ∈ log, Early cfg e) :
    (configDeleteTimingEarly cfg = false → log.countP isManifestDeleted = 0) ∧
      log.countP isPlanCommitted = 0 := by
  constructor
  · intro htiming
    apply List.countP_eq_zero.mpr
    intro e he hdeleted
    cases e with
    | manifestDeleted id => exact (h _ he).notLate htiming
    | _ => cases hdeleted
  · apply List.countP_eq_zero.mpr
    intro e he hcommitted
    cases e with
    | planCommitted id removed => exact (h _ he).notLate trivial
    | _ => cases hcommitted

theorem owned_nobody {nextId : ℕ} {log : List Event} (h : Owned [] nextId log) (o : Object) :
    log.countP (isCreated o) ≤ 1 ∧
      log.countP (isDestroyed o)+log.countP (isHandedOver o) = log.countP (isCreated o) :=
  ⟨h.once o,h.settled o⟩

theorem settled_parked (hslack : slack ≤ 1) (h : Parked cfg slack st) :
    Settled cfg (receiverDropPending st) false := by
  have hdrop := parked_drop h
  have howned := hdrop.owned
  rw [held_drop] at howned
  generalize receiverDropPending st = st' at hdrop howned
  have hnotLate : ∀ e ∈ st'.log, ¬ Late cfg e := fun e he => (hdrop.early e he).notLate
  have hkept : ∀ o, Event.handedOver o ∉ st'.log := fun o he => hnotLate _ he trivial
  have hdelivered := hdrop.delivered
  apply Settled.mk
  · intro front e back hlog hlate
    exact absurd hlate (hnotLate e (by rw [hlog]; simp))
  · exact fun e he => (hdrop.early e he).spares
  · exact fun htiming => by rw [(early_countP hdrop.early).1 htiming]; exact Nat.zero_le _
  · rw [(early_countP hdrop.early).2]
    exact Nat.zero_le _
  · exact fun _ _ => ⟨hnotLate,hdrop.nothingOut⟩
  · exact owned_nobody howned
  · intro id
    simp [hdrop.nothingOut.1,hkept]
  · intro id
    simp [hdrop.nothingOut.2,hkept]
  · exact hdrop.replies
  · refine ⟨by omega,by omega,?_⟩
    intro hok
    cases hok

theorem settled_closing {ok : Bool} (h : Closing cfg before after st) (hheld : held st = []) :
    Settled cfg st ok := by
  have howned := h.owned
  rw [hheld] at howned
  have hkept : ∀ o, Event.handedOver o ∉ before := fun o he => (h.early _ he).notLate trivial
  have hcount := early_countP h.early
  have hdeletions := h.deletions
  have hcommits := h.commits
  have hdelivered := h.delivered
  apply Settled.mk
  · intro front e back hlog hlate
    rw [h.log] at hlog
    -- a late event is no event of `before`, and the end of the stream comes first after it
    apply (List.append_eq_append_iff.mp hlog).elim
    · intro hsplit
      obtain ⟨more,hfront,hrest⟩ := hsplit
      rw [hfront]
      cases more with
      | nil =>
        have he := (List.cons.inj hrest).1
        rw [← he] at hlate
        exact absurd hlate not_false
      | cons x more =>
        rw [← (List.cons.inj hrest).1]
        simp
    · intro hsplit
      obtain ⟨more,hbefore,hrest⟩ := hsplit
      cases more with
      | nil =>
        have he := (List.cons.inj hrest).1
        rw [he] at hlate
        exact absurd hlate not_false
      | cons x more =>
        have he := (List.cons.inj hrest).1
        exact absurd hlate (h.early e (by rw [hbefore,he]; simp)).notLate
  · intro e he
    rw [h.log,List.mem_append,List.mem_cons] at he
    apply he.elim
    · exact fun he => (h.early e he).spares
    · intro he
      apply he.elim
      · intro he
        rw [he]
        trivial
      · exact h.spares e
  · intro htiming
    rw [h.log,List.countP_append,hcount.1 htiming,List.countP_cons]
    simp only [isManifestDeleted]
    simp
    omega
  · rw [h.log,List.countP_append,hcount.2,List.countP_cons]
    simp only [isPlanCommitted]
    simp
    omega
  · intro _ hnot
    exact absurd (by rw [h.log]; simp) hnot
  · exact owned_nobody howned
  · intro id
    rw [h.outManifest,h.log,List.mem_append,List.mem_cons]
    simp [hkept]
  · intro id
    rw [h.outPlans,h.log,List.mem_append,List.mem_cons]
    simp [hkept]
  · exact h.replies
  · exact ⟨by omega,by omega,fun _ => hdelivered⟩

theorem settled_finish {sink : Sink} {t : DirTree Name} (h : Closing cfg before after st) :
    Settled cfg (receiverFinish cfg sink t st).1 (receiverFinish cfg sink t st).2 := by
  obtain ⟨afterManifest,hmanifest,hnoManifest⟩ := closing_finishManifest h
  obtain ⟨afterPlans,hplans,hnoPlans,hsame⟩ := closing_finishPlans hmanifest
  unfold receiverFinish
  dsimp only
  split_ifs
  · exact settled_closing (closing_drop hmanifest) held_drop
  · exact settled_closing (closing_drop hplans) held_drop
  · exact settled_closing (closing_drop hplans) held_drop
  · apply settled_closing hplans
    rw [held,hnoPlans,hsame,hnoManifest]
    rfl

theorem settled_loop {sink : Sink} (clock : Clock) {inputs : List Input} (h : Parked cfg 0 st) :
    Settled cfg (receiveLoop cfg sink clock inputs st).1
      (receiveLoop cfg sink clock inputs st).2 := by
  induction inputs generalizing clock st with
  | nil => exact settled_parked (Nat.zero_le 1) h
  | cons input rest ih =>
    by_cases hfinished : isFinished input.frame = true
    · have hread : readStatus input.frame st = emit st [.finishedRead] := if_pos hfinished
      have hclosing := closing_finished h
      rw [receiveLoop]
      rw [hread]
      cases receiverNoteStatus clock input with
      | none => exact settled_closing (closing_drop hclosing) held_drop
      | some clock' =>
        cases hframe : input.frame with
        | finished => exact settled_finish hclosing
        | _ =>
          rw [hframe] at hfinished
          cases hfinished
    · have hread : readStatus input.frame st = st := if_neg hfinished
      have hhandled : ∀ clock', Settled cfg
          (if (receiverDispatchStatus cfg sink input.tree input.frame st).2 = .next then
            receiveLoop cfg sink clock' rest
              (receiverDispatchStatus cfg sink input.tree input.frame st).1
          else (receiverDropPending
            (receiverDispatchStatus cfg sink input.tree input.frame st).1,false)).1
          (if (receiverDispatchStatus cfg sink input.tree input.frame st).2 = .next then
            receiveLoop cfg sink clock' rest
              (receiverDispatchStatus cfg sink input.tree input.frame st).1
          else (receiverDropPending
            (receiverDispatchStatus cfg sink input.tree input.frame st).1,false)).2 := by
        intro clock'
        obtain ⟨slack',hslack,hparked,hnext⟩ := parked_dispatch h
        split_ifs with hstep
        · rw [hnext hstep] at hparked
          exact ih clock' hparked
        · exact settled_parked hslack hparked
      rw [receiveLoop]
      rw [hread]
      cases receiverNoteStatus clock input with
      | none => exact settled_parked (Nat.zero_le 1) h
      | some clock' =>
        have hclock := hhandled clock'
        cases hframe : input.frame with
        | finished =>
          rw [hframe] at hfinished
          exact absurd rfl hfinished
        | unexpected => exact settled_parked (Nat.zero_le 1) h
        | _ =>
          rw [hframe] at hclock
          exact hclock

end Whole

/-- Whatever frames arrive and whatever ends them: late deletions follow
`STATUS_FINISHED` and happen once, a call that fails before it commits nothing and
hands nothing over, every manifest and session is released once, and each keepalive
has its reply. A plan under `--delete-delay` removes at once only what is in the way
of a source entry of the other kind. -/
theorem pending_settled (cfg : Config) (sink : Sink) (sessionStart : ℤ) (inputs : List Input) :
    Settled cfg (receiverProcessPending cfg sink sessionStart inputs).1
      (receiverProcessPending cfg sink sessionStart inputs).2 :=
  settled_loop _ parked_start

def isFinishedRead : Event → Bool
  | .finishedRead => true
  | _ => false

def removedByPlan : Event → List Position
  | .planApplied _ _ _ removed => removed
  | _ => []

/-- The file `f` stands where the source has a directory of that name. Under
`--delete-delay` the plan removes it, and the connection breaks off. -/
theorem blocking_file_removed :
    let r := receiverProcessPending SessionAccounts.delayConfig ⟨false,false,false,true,true⟩ 0
      [⟨.deletePlan (some ⟨none,true,[dot],[[102]],[]⟩) true,SessionAccounts.singleTree,some 0⟩]
    SessionAccounts.delayConfig.deleteDelay = true ∧ r.2 = false ∧
      r.1.log.any isFinishedRead = false ∧
      r.1.log.flatMap removedByPlan = [[MissingArtifacts.leafName]] := by
  decide +kernel

end FastSync.ReceiveLoopLaws
