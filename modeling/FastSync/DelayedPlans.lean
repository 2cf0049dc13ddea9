import FastSync.DeletePlanActs

/-!
# What a plan removes at once under `--delete-delay`

A deferring session only notes what its plans find extraneous. One kind of entry goes
at once all the same: a directory in the place of a file of the source, or a file in
the place of a directory, with what lies below it.
-/

set_option autoImplicit false

namespace FastSync.DelayedPlans
open FiniteTree DeletePaths DeleteWalk
open DeletePlan DeleteCommit DeleteSession

/-- The entry at `p` is, or lies below, an entry of the plan's directory that stands in
the place of a source entry of the other kind. -/
def Blocks (t : DirTree Name) (plan : PlanFrame) (p : Position) : Prop :=
  ∃ d, ∃ e ∈ t.entries d, resolve (components plan.dir) = some d ∧
    forced (some ⟨plan.dirs,plan.files⟩) e = true ∧ (d++[e.name]) <+: p

/-- The session defers and has removed nothing but entries of `R`. -/
structure Deferring (R : Position → Prop) (s s' : DeletePlanSession) : Prop where
  defers : s.defer = true → s'.defer = true
  gone : s.defer = true → ∀ p ∈ s'.gone, p ∈ s.gone ∨ R p

section Rules
variable {R S : Position → Prop} {s s' s'' : DeletePlanSession}

theorem deferring_refl {R : Position → Prop} {s : DeletePlanSession} : Deferring R s s :=
  ⟨id,fun _ _ hp => .inl hp⟩

theorem deferring_trans (h : Deferring R s s') (h' : Deferring R s' s'') : Deferring R s s'' := by
  apply Deferring.mk
  · exact fun hs => h'.defers (h.defers hs)
  · intro hs p hp
    apply (h'.gone (h.defers hs) p hp).elim
    · exact h.gone hs p
    · exact .inr

theorem deferring_mono (h : Deferring R s s') (hsub : ∀ p, R p → S p) : Deferring S s s' :=
  ⟨h.defers,fun hs p hp => (h.gone hs p hp).imp_right (hsub p)⟩

theorem deferring_deferAdd {s : DeletePlanSession} {rel : Bytes} :
    Deferring R s (deferAdd s rel) := by
  unfold deferAdd noteSkipped
  split_ifs
  · exact ⟨id,fun _ _ hp => .inl hp⟩
  · exact ⟨id,fun _ _ hp => .inl hp⟩

theorem deferring_notePlanned {s : DeletePlanSession} {p : Position} {spelled : Bytes}
    (hr : s.defer = true → R p) : Deferring R s (notePlanned s (s.gone++[p]) spelled) := by
  refine ⟨id,?_⟩
  intro hs x hx
  apply (List.mem_append.mp hx).imp_right
  intro hx
  rw [List.mem_singleton.mp hx]
  exact hr hs

end Rules

section Passes
variable {R : Position → Prop} {t : DirTree Name} {dir : Position} {dirRel : Bytes}
variable {children : Position → Bytes → Bool → DeletePlanSession → DeletePlanSession × Bool}

theorem forced_of_defer {defer force : Bool} (h : ¬(defer && !force) = true) (hd : defer = true) :
    force = true := by
  rw [hd] at h
  simpa using h

section
variable (p : Position) (rel : Bytes) {force : Bool} (hforce : force = true → R p)
include hforce

theorem deferring_processExtraFile {s : DeletePlanSession} :
    Deferring R s (processExtraFile p rel force s) := by
  unfold processExtraFile
  split_ifs with hdefer hbudget
  · exact deferring_deferAdd
  · exact ⟨id,fun _ _ hp => .inl hp⟩
  · cases hun : unlink s.gone p with
    | error e => exact deferring_refl
    | ok gone =>
      rw [(unlink_eq_ok hun).2]
      exact deferring_notePlanned fun hs => hforce (forced_of_defer hdefer hs)

theorem deferring_disposeExtraDir {s : DeletePlanSession} :
    Deferring R s (disposeExtraDir t p rel force s).1 := by
  unfold disposeExtraDir
  split_ifs with hdefer hbudget
  · exact deferring_deferAdd
  · exact ⟨id,fun _ _ hp => .inl hp⟩
  · cases hrm : rmdir t s.gone p with
    | error e => cases e <;> exact deferring_refl
    | ok gone =>
      rw [(rmdir_eq_ok t hrm).2]
      exact deferring_notePlanned fun hs => hforce (forced_of_defer hdefer hs)

theorem deferring_processExtraDir (hc : ∀ s, Deferring R s (children p rel force s).1)
    (s : DeletePlanSession) : Deferring R s (processExtraDir t children p rel force s).1 := by
  unfold processExtraDir
  dsimp only
  split_ifs
  · exact hc s
  · exact deferring_trans (hc s) (deferring_disposeExtraDir p rel hforce)

end

section
variable {keep : Option KeepLists} {forceNow : Bool} {es : List DeleteDirEntry}
  (hforce : ∀ e ∈ es, (forced keep e || forceNow) = true → R (dir++[e.name]))
include hforce

theorem deferring_planDirPass
    (hc : ∀ e ∈ es, ∀ s, Deferring R s (children (dir++[e.name]) (planChildRel dirRel e.name.1) (forced keep e || forceNow) s).1)
    (s : DeletePlanSession) (survives : Bool) :
    Deferring R s (planDirPass t dir dirRel keep forceNow children es (s, survives)).1 := by
  induction es generalizing s survives with
  | nil => exact deferring_refl
  | cons e es ih =>
    have hfirst := @deferring_processExtraDir R t children (dir++[e.name])
      (planChildRel dirRel e.name.1) _ (hforce e List.mem_cons_self) (hc e List.mem_cons_self) s
    exact deferring_trans hfirst (ih (fun x hx => hforce x (List.mem_cons_of_mem e hx))
      (fun x hx => hc x (List.mem_cons_of_mem e hx)) _ _)

theorem deferring_planFilePass (s : DeletePlanSession) :
    Deferring R s (planFilePass dir dirRel keep forceNow es s) := by
  induction es generalizing s with
  | nil => exact deferring_refl
  | cons e es ih =>
    exact deferring_trans (deferring_processExtraFile _ _ (hforce e List.mem_cons_self))
      (ih (fun x hx => hforce x (List.mem_cons_of_mem e hx)) _)

end

end Passes

/-- What may go at once in a directory: everything below it when it goes itself, and
otherwise the entries in the way. -/
def AtOnce (t : DirTree Name) (dir : Position) (keep : Option KeepLists) (forceNow : Bool)
    (p : Position) : Prop :=
  ∃ e ∈ t.entries dir, (forced keep e || forceNow) = true ∧ (dir++[e.name]) <+: p

theorem deferring_processChildren {t : DirTree Name} {skips : PlanSkips} {fuel : ℕ}
    (dir : Position) (dirRel : Bytes) (keep : Option KeepLists) (atRoot forceNow : Bool)
    (s : DeletePlanSession) :
    Deferring (AtOnce t dir keep forceNow) s
      (processChildren t skips fuel dir dirRel keep atRoot forceNow s).1 := by
  induction fuel generalizing dir dirRel keep atRoot forceNow s with
  | zero => exact deferring_refl
  | succ fuel ih =>
    have hlisted : ∀ e ∈ sortEntries (readdir t s.gone dir), e ∈ t.entries dir := fun e he =>
      (List.mem_filter.mp ((mem_sortEntries _).mp he)).1
    have hforce : ∀ es, List.Sublist es (sortEntries (readdir t s.gone dir)) →
        ∀ e ∈ es, (forced keep e || forceNow) = true →
          AtOnce t dir keep forceNow (dir++[e.name]) :=
      fun es hes e he hf => ⟨e,hlisted e (hes.subset he),hf,List.prefix_refl _⟩
    have hdirs := (List.filter_sublist (p := fun e =>
      decide (planVerdict skips dirRel keep atRoot e = .extra))).trans
        (List.takeWhile_sublist (l := sortEntries (readdir t s.gone dir)) fun e => e.isDir)
    have hfiles := (List.filter_sublist (p := fun e =>
      decide (planVerdict skips dirRel keep atRoot e = .extra))).trans
        (List.dropWhile_sublist (l := sortEntries (readdir t s.gone dir)) fun e => e.isDir)
    apply deferring_trans (deferring_planDirPass (hforce _ hdirs) _ s _)
      (deferring_planFilePass (hforce _ hfiles) _)
    intro e he s'
    apply deferring_mono (ih (dir++[e.name]) (planChildRel dirRel e.name.1) none false
      (forced keep e || forceNow) s')
    intro p hp
    obtain ⟨x,hx,hf,hpre⟩ := hp
    -- nothing is in the way below an extra, so the child goes because the extra does
    have hnone : forced none x = false := by
      unfold forced
      split_ifs <;> rfl
    rw [hnone, Bool.false_or] at hf
    exact ⟨e,hlisted e (hdirs.subset he),hf,(List.prefix_append _ _).trans hpre⟩

section
variable (cfg : Config) (t : DirTree Name) (plan : PlanFrame) (s : DeletePlanSession)

theorem deferring_applyPlanDir :
    Deferring (Blocks t plan) s (applyPlanDir cfg t plan.dir plan.dirs plan.files s) := by
  unfold applyPlanDir
  cases hopen : openPlanDir t s.gone plan.dir with
  | none => exact deferring_refl
  | some d =>
    apply deferring_mono (deferring_processChildren d
      plan.dir (some ⟨plan.dirs,plan.files⟩) (decide (plan.dir = [dot])) false s)
    intro p hp
    obtain ⟨e,he,hf,hpre⟩ := hp
    rw [Bool.or_false] at hf
    have hres : resolve (components plan.dir) = some d := by
      unfold openPlanDir at hopen
      split at hopen
      · cases hopen
      · split_ifs at hopen
        cases hopen
        assumption
    exact ⟨d,e,he,hres,hf,hpre⟩

/-- A deferring session removes at once only what blocks a source entry. -/
theorem deferring_receive :
    Deferring (Blocks t plan) s (deletePlanSessionReceive cfg t plan s).1 := by
  have hload : Deferring (Blocks t plan) s (loadConfig plan s) ∧
      (loadConfig plan s).defer = s.defer := by
    unfold loadConfig readConfig
    split
    · exact ⟨deferring_refl,rfl⟩
    · exact ⟨⟨id,fun _ _ hp => .inl hp⟩,rfl⟩
  by_cases hs : s.defer = true
  · unfold deletePlanSessionReceive
    dsimp only
    rw [hload.2, if_pos hs]
    split_ifs
    · exact deferring_refl
    · exact hload.1
    · exact hload.1
    · exact deferring_trans hload.1 (deferring_applyPlanDir cfg t plan _)
    · exact hload.1
  · exact ⟨fun h => absurd h hs,fun h => absurd h hs⟩

end

end FastSync.DelayedPlans
