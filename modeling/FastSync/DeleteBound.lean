import FastSync.DeleteSpec
import FastSync.DeleteSessionRun

/-!
# What a deletion phase may remove

A commit charges every removed entry to its budget, those of a missing
argument's directory included, and a session charges every entry it removes to
the one budget of the session. Both stay within their bound on every tree.
-/

set_option autoImplicit false

namespace FastSync.DeleteBound
open FiniteTree DeletePaths DeleteWalk DeleteExtras
open DeleteSpec DeletePlan DeleteCommit DeleteSession
open DeleteSessionRun CheckedMemory

section Bare
variable (t : DirTree Name)

/-- Without manifest, skips and rules the walk takes every entry. -/
theorem removable_bare (d : Position) (hd : IsDir t d) (e : DeleteDirEntry)
    (he : e ∈ t.entries d) : d++[e.name] ∈ removable t bareRun [] := by
  induction hk : t.height d using Nat.strong_induction_on generalizing d e with
  | _ k ih =>
    have hopen : ¬Shielded t bareRun (d++[e.name]) := by
      rintro ⟨d',e',q,-,-,hs⟩
      simp [shielded, bareRun, pathUnderSkipPrefix, ruleProtects] at hs
    have hsynced : syncedAbove bareRun (d++[e.name]) = true := by
      rw [syncedAbove_child]
      simp [bareRun, isSyncedDir]
    have hunkept : Unkept bareRun (d++[e.name]) e.isDir := by
      simp [Unkept, bareRun]
    refine (mem_removable t bareRun d hd e he).mpr ⟨hopen,hsynced,hunkept,fun hdir c hc => ?_⟩
    exact ih _ (hk ▸ t.height_lt d e he hdir) _ (.child d e hd he hdir) c hc rfl

theorem bareWalk_empties (gone : List Position) (p : Position) (n : ℕ)
    (h : (deleteExtrasLimitedObserved (subtree (prune t gone) p) bareRun n).1.budget.limitHit =
      false) :
    readdir t (gone++(deleteExtrasLimitedObserved (subtree (prune t gone) p) bareRun
      n).1.gone.map (p++·)) p = [] := by
  obtain ⟨hgone,-,-,hlim⟩ := deleteExtrasLimitedObserved_gone (subtree (prune t gone) p) bareRun n
  rw [h] at hlim
  rw [hgone, List.take_of_length_le (not_lt.mp (of_decide_eq_false hlim.symm)), allExtras_positions,
    readdir_eq_nil]
  intro c hc
  rw [List.mem_append]
  by_cases hp : p++[c.name] ∈ gone
  · exact .inl hp
  · have hmem : c ∈ (subtree (prune t gone) p).entries [] := by
      show c ∈ readdir t gone (p++[])
      rw [List.append_nil]
      exact mem_readdir t hc hp
    exact .inr (List.mem_map_of_mem (removable_bare _ [] .root c hmem))

theorem content_nil {u : DirTree Name} {p : Position} (h : u.entries p = []) (fuel : ℕ) :
    content u fuel p = [] := by
  cases fuel <;> simp [content, h]

def missingWalk (p : Position) (st : CommitState) : DeleteWalkState :=
  (deleteExtrasLimitedObserved (subtree (prune t st.gone) p) bareRun
    (st.budget.maxDelete-st.budget.deleted)).1

def afterWalk (rel : Bytes) (p : Position) (st : CommitState) : CommitState where
  budget := ⟨st.budget.maxDelete,st.budget.deleted+(missingWalk t p st).budget.deleted,
    st.budget.skipped+(missingWalk t p st).budget.skipped,st.budget.limitHit⟩
  gone := st.gone++(missingWalk t p st).gone.map (p++·)
  observed := st.observed++(missingWalk t p st).observed.map (pathCat rel)
  ok := st.ok

theorem removeMissingDir_eq {cfg : Config} (hrec : (cfg.useDelete || cfg.forceDelete) = true)
    (rel : Bytes) (p : Position) (st : CommitState) :
    removeMissingDir cfg t rel p st =
      if (missingWalk t p st).budget.limitHit then
        ⟨{(afterWalk t rel p st).budget with limitHit := true},(afterWalk t rel p st).gone,
          (afterWalk t rel p st).observed,st.ok⟩
      else if (afterWalk t rel p st).budget.deleted ≥ st.budget.maxDelete then
        noteLimit (afterWalk t rel p st)
      else noteRemoved (afterWalk t rel p st) ((afterWalk t rel p st).gone++[p]) rel := by
  have hempty := bareWalk_empties t st.gone p (st.budget.maxDelete-st.budget.deleted)
  have hres : ∀ u run n, (deleteExtrasLimitedObserved u run n).2 =
      if (deleteExtrasLimitedObserved u run n).1.budget.limitHit then .limitReached else .ok :=
    fun _ _ _ => rfl
  rw [removeMissingDir, if_pos hrec]
  dsimp only
  rw [hres]
  unfold afterWalk missingWalk
  generalize deleteExtrasLimitedObserved _ _ _ = walk at *
  cases hlim : walk.1.budget.limitHit with
  | true => rfl
  | false =>
    simp only [Bool.false_eq_true, if_false]
    rw [content_nil (u := prune t _) (hempty hlim), List.append_nil]

end Bare

/-- Every entry gone since there were `n` is charged, and the charge is within
the bound. -/
structure Charged (n m : ℕ) (st : CommitState) : Prop where
  bound : st.budget.maxDelete = m
  gone : st.gone.length = n+st.budget.deleted
  within : st.budget.deleted ≤ m

section Commit
variable (cfg : Config) (t : DirTree Name) {n m : ℕ} {st : CommitState}

section
variable (h : Charged n m st)
include h

theorem charged_noteLimit : Charged n m (noteLimit st) :=
  ⟨h.bound,h.gone,h.within⟩

theorem charged_noteRemoved (hlt : st.budget.deleted < m) {p : Position} {rel : Bytes} :
    Charged n m (noteRemoved st (st.gone++[p]) rel) := by
  refine ⟨h.bound,?_,hlt⟩
  simp only [noteRemoved, List.length_append, List.length_singleton, h.gone]
  omega

theorem charged_walk {u : DirTree Name} {run : DeleteRun} {f : Position → Position}
    {st1 : CommitState} (hmax : st1.budget.maxDelete = st.budget.maxDelete)
    (hgone : st1.gone = st.gone++(deleteExtrasLimitedObserved u run (m-st.budget.deleted)).1.gone.map f)
    (hdel : st1.budget.deleted = st.budget.deleted+(deleteExtrasLimitedObserved u run (m-st.budget.deleted)).1.budget.deleted) :
    Charged n m st1 := by
  obtain ⟨hw,-,hd,-⟩ := deleteExtrasLimitedObserved_gone u run (m-st.budget.deleted)
  have hlen : (deleteExtrasLimitedObserved u run (m-st.budget.deleted)).1.gone.length =
      (deleteExtrasLimitedObserved u run (m-st.budget.deleted)).1.budget.deleted := by
    rw [hw, hd, List.length_map, List.length_take]
  have hle := h.within
  refine ⟨hmax.trans h.bound,?_,?_⟩
  · rw [hgone, List.length_append, List.length_map, hlen, hdel, h.gone, Nat.add_assoc]
  · rw [hdel, hd]
    omega

theorem charged_removeMissingDir {rel : Bytes} {p : Position} :
    Charged n m (removeMissingDir cfg t rel p st) := by
  obtain rfl := h.bound
  by_cases hrec : (cfg.useDelete || cfg.forceDelete) = true
  · have hwalk : Charged n st.budget.maxDelete (afterWalk t rel p st) :=
      charged_walk h rfl rfl rfl
    rw [removeMissingDir_eq t hrec]
    split_ifs with hlim hfull
    · exact ⟨hwalk.bound,hwalk.gone,hwalk.within⟩
    · exact charged_noteLimit hwalk
    · exact charged_noteRemoved hwalk (not_le.mp hfull)
  · rw [removeMissingDir, if_neg hrec]
    exact h

theorem charged_missingArg (skips : List DeleteSkipEntry) (rel : Bytes) :
    Charged n m (deleteMissingArg cfg t skips rel st).1 := by
  have hok : Charged n m { st with ok := false } := ⟨h.bound,h.gone,h.within⟩
  unfold deleteMissingArg
  by_cases hfull : st.budget.deleted ≥ st.budget.maxDelete
  · have hlimit := charged_noteLimit h
    split_ifs
    · exact hok
    · exact h
    · split
      · exact h
      · exact hlimit
      · exact hlimit
  · have hlt : st.budget.deleted < m := h.bound ▸ not_le.mp hfull
    split_ifs
    · exact hok
    · exact h
    · split
      · exact h
      · exact hok
      · split
        · split
          · rename_i hrm
            rw [(rmdir_eq_ok t hrm).2]
            exact charged_noteRemoved h hlt
          · exact charged_removeMissingDir cfg t h
          · exact h
        · split
          · rename_i hul
            rw [(unlink_eq_ok hul).2]
            exact charged_noteRemoved h hlt
          · exact h

end

theorem charged_missingLoop {skips : List DeleteSkipEntry} {rels : List Bytes}
    (h : Charged n m st) : Charged n m (deleteMissingLoop cfg t skips rels st) := by
  induction rels generalizing st with
  | nil => exact h
  | cons rel rels ih =>
    have h1 := charged_missingArg cfg t h skips rel
    rw [deleteMissingLoop]
    split_ifs
    · exact h1
    · exact ih h1

theorem charged_missingArgs (missing : List Bytes) (h : Charged n m st) :
    Charged n m (deleteMissingArgsBudgetedObserved cfg t missing st) := by
  unfold deleteMissingArgsBudgetedObserved
  split_ifs
  · exact h
  · exact charged_missingLoop cfg t h

theorem charged_extras {manifest : DeleteManifest} (hm : m ≠ sizeMax) (h : Charged n m st) :
    Charged n m (deleteExtrasBudgetedObserved cfg t manifest st) := by
  rw [deleteExtrasBudgetedObserved_eq]
  have hwalk : extrasWalk cfg t manifest st = (deleteExtrasLimitedObserved (prune t st.gone)
      ⟨⟨manifest.keeps⟩,some ⟨manifest.dirs⟩,deleteSkipsBuild cfg manifest.protectedPaths [] true,
        cfg.protectRules⟩ (m-st.budget.deleted)).1 := by
    rw [extrasWalk, h.bound, if_neg hm]
  rw [hwalk]
  exact charged_walk h rfl (by rw [List.map_id]) rfl

theorem manifestDeleteAllObserved_bound (manifest : DeleteManifest) :
    (manifestDeleteAllObserved cfg t manifest).1.gone.length ≤ effectiveMaxDelete cfg := by
  have hm := effectiveMaxDelete_ne_sizeMax cfg
  have h0 : Charged 0 (effectiveMaxDelete cfg) ⟨⟨effectiveMaxDelete cfg,0,0,false⟩,[],[],true⟩ :=
    ⟨rfl,rfl,Nat.zero_le _⟩
  have hfinal : ∀ {st}, Charged 0 (effectiveMaxDelete cfg) st →
      st.gone.length ≤ effectiveMaxDelete cfg := by
    intro st h
    rw [h.gone, Nat.zero_add]
    exact h.within
  obtain ⟨st1,e1,h1⟩ : ∃ st1, (if cfg.deleteMissingArgs then
      deleteMissingArgsBudgetedObserved cfg t manifest.missing
        ⟨⟨effectiveMaxDelete cfg,0,0,false⟩,[],[],true⟩ else
          ⟨⟨effectiveMaxDelete cfg,0,0,false⟩,[],[],true⟩) = st1 ∧
      Charged 0 (effectiveMaxDelete cfg) st1 := by
    refine ⟨_,rfl,?_⟩
    split_ifs
    · exact charged_missingArgs cfg t _ h0
    · exact h0
  obtain ⟨st2,e2,h2⟩ : ∃ st2, (if cfg.useDelete then deleteExtrasBudgetedObserved cfg t manifest st1
      else st1) = st2 ∧ Charged 0 (effectiveMaxDelete cfg) st2 := by
    refine ⟨_,rfl,?_⟩
    split_ifs
    · exact charged_extras cfg t hm h1
    · exact h1
  rw [manifestDeleteAllObserved]
  simp only [e1, e2]
  split_ifs
  all_goals first | exact hfinal h0 | exact hfinal h1 | exact hfinal h2

end Commit

/-- What a session removes on the way from `s` to `s'` is charged to its budget,
and the budget is kept. -/
structure Spends (s s' : DeletePlanSession) : Prop where
  bound : s'.maxDelete = s.maxDelete
  gone : s'.gone.length+s.planned = s.gone.length+s'.planned
  within : s.planned ≤ s.maxDelete → s'.planned ≤ s.maxDelete

theorem Spends.refl (s : DeletePlanSession) : Spends s s := ⟨rfl,rfl,fun h => h⟩

theorem Spends.trans {a b c : DeletePlanSession} (h1 : Spends a b) (h2 : Spends b c) :
    Spends a c := by
  refine ⟨h2.bound.trans h1.bound,?_,fun h => ?_⟩
  · have e1 := h1.gone
    have e2 := h2.gone
    omega
  · have hb := h1.within h
    rw [← h1.bound] at hb ⊢
    exact h2.within hb

theorem spends_of_moves {s s' : DeletePlanSession} (h : Moves s s') : Spends s s' := by
  induction h with
  | refl => exact .refl s
  | tail _ hm ih =>
    refine ih.trans ?_
    cases hm with
    | skip | note rel _ => exact ⟨rfl,rfl,fun h => h⟩
    | remove p spelled hb _ =>
      have hlt := of_decide_eq_true hb
      refine ⟨rfl,?_,fun _ => hlt⟩
      simp only [notePlanned, List.length_append, List.length_singleton]
      omega

section Session
variable (cfg : Config) (t : DirTree Name)

theorem spends_applyMissing {s : DeletePlanSession} : Spends s (applyMissing cfg t s).1 := by
  unfold applyMissing
  split_ifs with h1 h2 hb
  · exact .refl s
  · exact ⟨rfl,rfl,fun h => h⟩
  all_goals
    dsimp only
  · have hlt : s.planned < s.maxDelete := of_decide_eq_true hb
    have h0 : Charged s.gone.length (s.maxDelete-s.planned)
        ⟨⟨s.maxDelete-s.planned,0,0,false⟩,s.gone,s.observed,true⟩ := ⟨rfl,rfl,Nat.zero_le _⟩
    have h := charged_missingArgs cfg t s.missing h0
    have hg := h.gone
    have hw := h.within
    exact ⟨rfl,by dsimp only; omega,fun _ => by dsimp only; omega⟩
  · have h0 : Charged s.gone.length 0 ⟨⟨0,0,0,false⟩,s.gone,s.observed,true⟩ :=
      ⟨rfl,rfl,Nat.zero_le _⟩
    have h := charged_missingArgs cfg t s.missing h0
    have hg := h.gone
    have hw := h.within
    exact ⟨rfl,by dsimp only; omega,fun _ => by dsimp only; omega⟩

section
variable (frame : PlanFrame) (s : DeletePlanSession)

theorem spends_loadConfig : Spends s (loadConfig frame s) := by
  unfold loadConfig
  split <;> exact ⟨rfl,rfl,fun h => h⟩

theorem spends_receive : Spends s (deletePlanSessionReceive cfg t frame s).1 := by
  have h1 := spends_loadConfig frame s
  have h2 := h1.trans (spends_applyMissing cfg t)
  unfold deletePlanSessionReceive
  dsimp only
  split_ifs
  all_goals first
    | exact .refl s
    | exact h1
    | exact h2
    | exact h1.trans (spends_of_moves (moves_applyPlanDir cfg t))
    | exact h2.trans (spends_of_moves (moves_applyPlanDir cfg t))

end

theorem spends_commit (s : DeletePlanSession) : Spends s (deletePlanSessionCommit cfg t s).1 := by
  have h1 := spends_of_moves (moves_applyDeferred cfg t s.deferred s)
  unfold deletePlanSessionCommit
  dsimp only
  split_ifs
  all_goals first
    | exact .refl s
    | exact h1
    | exact h1.trans (spends_applyMissing cfg t)
    | exact spends_applyMissing cfg t

end Session

end FastSync.DeleteBound
