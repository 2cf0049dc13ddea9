import FastSync.DeleteSession
import FastSync.DeleteExtras
import Mathlib.Logic.Relation

/-!
# What a plan removes or notes

While its limit is not reached, a session treats the extras of a directory as
one list: it removes them in this order, or notes their paths. Once a limit
stops it, the session says so and never takes that back.
-/

set_option autoImplicit false

namespace FastSync.DeleteSessionRun
open FiniteTree DeletePaths DeleteWalk DeleteExtras
open DeleteCommit DeleteSession

def effect (now : Bool) (s : DeletePlanSession) (xs : List Extra) : DeletePlanSession :=
  if now then
    { s with
      gone := s.gone++xs.map Prod.fst
      deleted := s.deleted+xs.length
      planned := s.planned+xs.length
      observed := s.observed++xs.map spell }
  else { s with deferred := s.deferred++xs.map fun x => relPath x.1 }

def Fits (now : Bool) (s : DeletePlanSession) (n : ℕ) : Prop :=
  if now then s.planned+n ≤ s.maxDelete else s.deferred.length+n ≤ s.deferCap

/-- A step that treats `xs` and answers `flag`, or reaches a limit. -/
structure Ran (now : Bool) (s : DeletePlanSession) (xs : List Extra) (flag : Bool)
    (r : DeletePlanSession × Bool) : Prop where
  fits : Fits now s xs.length → r = (effect now s xs, flag)
  overflows : Fits now s 0 → ¬Fits now s xs.length → r.1.limitHit = true

section
variable (now : Bool) (s : DeletePlanSession)

theorem effect_nil : effect now s [] = s := by
  cases now <;> simp [effect]

theorem effect_append (xs ys : List Extra) :
    effect now (effect now s xs) ys = effect now s (xs++ys) := by
  cases now <;> simp [effect, Nat.add_assoc]

theorem fits_effect {xs : List Extra} {n : ℕ} :
    Fits now (effect now s xs) n ↔ Fits now s (xs.length+n) := by
  cases now <;> simp [effect, Fits, Nat.add_assoc]

end

variable {s : DeletePlanSession}

theorem fits_le {now : Bool} {m n : ℕ} (h : Fits now s n) (hmn : m ≤ n) : Fits now s m := by
  unfold Fits at *
  split_ifs at * <;> omega

theorem effect_defer {now : Bool} {s : DeletePlanSession} {xs : List Extra} :
    (effect now s xs).defer = s.defer := by cases now <;> rfl

theorem effect_gone (now : Bool) (s : DeletePlanSession) (xs : List Extra) :
    (effect now s xs).gone = s.gone++(if now then xs.map Prod.fst else []) := by
  cases now <;> simp [effect]

def Keeps (s s' : DeletePlanSession) : Prop := s.limitHit = true → s'.limitHit = true

theorem ran_append {now : Bool} {xs ys : List Extra} {f g : Bool}
    {r1 r2 : DeletePlanSession × Bool} (h1 : Ran now s xs f r1) (hk : Keeps r1.1 r2.1)
    (h2 : Fits now s xs.length → r1 = (effect now s xs, f) → Ran now (effect now s xs) ys g r2) :
    Ran now s (xs++ys) g r2 := by
  by_cases hf : Fits now s xs.length
  · have hr := h2 hf (h1.fits hf)
    constructor
    · intro hall
      rw [List.length_append, ← fits_effect] at hall
      rw [hr.fits hall, effect_append]
    · intro _ hall
      rw [List.length_append, ← fits_effect] at hall
      exact hr.overflows ((fits_effect _ _).mpr hf) hall
  · exact ⟨fun hall => absurd (fits_le hall (by simp)) hf,fun h0 _ => hk (h1.overflows h0 hf)⟩

/-- The single changes the plan engine makes to its session: it counts an entry
a limit keeps, notes a path, or removes an entry within the budget. -/
inductive Move : DeletePlanSession → DeletePlanSession → Prop where
  | skip (s : DeletePlanSession) : Move s (noteSkipped s)
  | note (s : DeletePlanSession) (rel : Bytes) : s.deferred.length < s.deferCap →
      Move s { s with deferred := s.deferred++[rel] }
  | remove (s : DeletePlanSession) (p : Position) (spelled : Bytes) : budgetAvailable s = true →
      p ∉ s.gone → Move s (notePlanned s (s.gone++[p]) spelled)

abbrev Moves : DeletePlanSession → DeletePlanSession → Prop := Relation.ReflTransGen Move

theorem keeps_of_moves {s' : DeletePlanSession} (h : Moves s s') : Keeps s s' := by
  induction h with
  | refl => exact fun h => h
  | tail _ hm ih => exact fun h => by cases hm <;> simp [noteSkipped, notePlanned, ih h]

theorem moves_deferAdd {s : DeletePlanSession} {rel : Bytes} : Moves s (deferAdd s rel) := by
  unfold deferAdd
  split_ifs with h
  · exact .single (.skip s)
  · exact .single (.note s rel (not_le.mp h))

theorem moves_unlink {s : DeletePlanSession} {p : Position} {spelled : Bytes}
    (hb : budgetAvailable s = true) :
    Moves s (match unlink s.gone p with
      | .ok gone => notePlanned s gone spelled
      | .error _ => s) := by
  split
  · rename_i h
    obtain ⟨hp,rfl⟩ := unlink_eq_ok h
    exact .single (.remove s p spelled hb hp)
  · exact .refl

theorem moves_processExtraFile {p : Position} {rel : Bytes} {f : Bool} {s : DeletePlanSession} :
    Moves s (processExtraFile p rel f s) := by
  unfold processExtraFile
  split_ifs with h1 h2
  · exact moves_deferAdd
  · exact .single (.skip s)
  · exact moves_unlink (by simpa using h2)

theorem moves_planFilePass {dir : Position} {dirRel : Bytes} {keep : Option KeepLists} {f : Bool}
    {es : List DeleteDirEntry} (s : DeletePlanSession) :
    Moves s (planFilePass dir dirRel keep f es s) := by
  induction es generalizing s with
  | nil => exact .refl
  | cons e es ih => exact moves_processExtraFile.trans (ih _)

theorem moves_disposeExtraDir {t : DirTree Name} {p : Position} {rel : Bytes} {f : Bool}
    {s : DeletePlanSession} : Moves s (disposeExtraDir t p rel f s).1 := by
  unfold disposeExtraDir
  split_ifs with h1 h2
  · exact moves_deferAdd
  · exact .single (.skip s)
  · split
    · rename_i h
      obtain ⟨hp,rfl⟩ := rmdir_eq_ok t h
      exact .single (.remove s p _ (by simpa using h2) hp)
    · exact .refl
    · exact .refl

section Moving
variable (t : DirTree Name)
variable (children : Position → Bytes → Bool → DeletePlanSession → DeletePlanSession × Bool)
variable (hc : ∀ p rel f s, Moves s (children p rel f s).1)
include hc

theorem moves_processExtraDir {p : Position} {rel : Bytes} {f : Bool} {s : DeletePlanSession} :
    Moves s (processExtraDir t children p rel f s).1 := by
  unfold processExtraDir
  dsimp only
  split_ifs
  · exact hc p rel f s
  · exact (hc p rel f s).trans moves_disposeExtraDir

theorem moves_planDirPass {dir : Position} {dirRel : Bytes} {keep : Option KeepLists} {f : Bool}
    {es : List DeleteDirEntry} (s : DeletePlanSession) (survives : Bool) :
    Moves s (planDirPass t dir dirRel keep f children es (s, survives)).1 := by
  induction es generalizing s survives with
  | nil => exact .refl
  | cons e es ih => exact (moves_processExtraDir t children hc).trans (ih _ _)

end Moving

theorem moves_processChildren (t : DirTree Name) (skips : PlanSkips) (fuel : ℕ) (dir : Position)
    (dirRel : Bytes) (keep : Option KeepLists) (atRoot forceNow : Bool) (s : DeletePlanSession) :
    Moves s (processChildren t skips fuel dir dirRel keep atRoot forceNow s).1 := by
  induction fuel generalizing dir dirRel keep atRoot forceNow s with
  | zero => exact .refl
  | succ fuel ih =>
    exact (moves_planDirPass t _ (fun p rel f s => ih p rel none false f s) s _).trans (moves_planFilePass _)

section Sessions
variable (cfg : Config) (t : DirTree Name)

theorem moves_applyPlanDir {dir : Bytes} {dirs files : List Bytes} {s : DeletePlanSession} :
    Moves s (applyPlanDir cfg t dir dirs files s) := by
  unfold applyPlanDir
  split
  · exact .refl
  · exact moves_processChildren _ _ _ _ _ _ _ _ _

theorem moves_applyDeferredPath {rel : Bytes} {s : DeletePlanSession} :
    Moves s (applyDeferredPath cfg t rel s).1 := by
  unfold applyDeferredPath
  split
  · exact .refl
  · exact .refl
  · rename_i p isDir _
    have hc := moves_processChildren t (buildPlanSkips cfg s) (t.height p+1) p rel none false true s
    dsimp only
    split_ifs with h1 h2 h3 h4
    · exact .single (.skip s)
    · exact hc
    · exact hc.tail (.skip _)
    · split
      · rename_i h
        obtain ⟨hp,rfl⟩ := rmdir_eq_ok t h
        exact hc.tail (.remove _ p _ (by simpa using h4) hp)
      · exact hc
    · split
      · rename_i h
        obtain ⟨hp,rfl⟩ := unlink_eq_ok h
        exact .single (.remove s p rel (by simpa using h1) hp)
      · exact .refl

theorem moves_applyDeferred (rels : List Bytes) (s : DeletePlanSession) :
    Moves s (applyDeferred cfg t rels s).1 := by
  induction rels generalizing s with
  | nil => exact .refl
  | cons rel rels ih =>
    rw [applyDeferred]
    split_ifs
    · exact (moves_applyDeferredPath cfg t).trans (ih _)
    · exact moves_applyDeferredPath cfg t

end Sessions

theorem fits_noted {n : ℕ} : Fits false s n ↔ s.deferred.length+n ≤ s.deferCap := by simp [Fits]

theorem deferAdd_ran {s : DeletePlanSession} {x : Extra} {flag : Bool} :
    Ran false s [x] flag (deferAdd s (relPath x.1), flag) := by
  constructor
  · intro hf
    have hlt : ¬s.deferred.length ≥ s.deferCap := by
      rw [fits_noted, List.length_singleton] at hf
      omega
    rw [deferAdd, if_neg hlt]
    rfl
  · intro _ hf
    have hge : s.deferred.length ≥ s.deferCap := by
      rw [fits_noted, List.length_singleton] at hf
      omega
    rw [deferAdd, if_pos hge]
    rfl

theorem budgetAvailable_iff {s : DeletePlanSession} : budgetAvailable s = true ↔ Fits true s 1 := by
  simp only [budgetAvailable, decide_eq_true_eq, Fits, if_true]
  omega

theorem removal_ran (s : DeletePlanSession) (x : Extra) (flag : Bool) (r : DeletePlanSession × Bool)
    (hr : budgetAvailable s = true → r = (notePlanned s (s.gone++[x.1]) (spell x), flag))
    (hskip : budgetAvailable s = false → r.1.limitHit = true) : Ran true s [x] flag r := by
  constructor
  · intro hf
    rw [hr (budgetAvailable_iff.mpr hf)]
    rfl
  · intro _ hf
    apply hskip
    rw [← Bool.not_eq_true, budgetAvailable_iff]
    exact hf

section Passes
variable (t : DirTree Name) (dir : Position) (dirRel : Bytes) (keep : Option KeepLists)
variable (forceNow now defer : Bool)
variable (children : Position → Bytes → Bool → DeletePlanSession → DeletePlanSession × Bool)
variable (sub : DeleteDirEntry → List Extra × Bool)

/-- What a pass needs of the treatment of one subdirectory. -/
structure Treats (e : DeleteDirEntry) : Prop where
  ran : ∀ s, s.defer = defer → Fresh s.gone (dir++[e.name]) →
    Ran now s (sub e).1 (!(sub e).2)
      (children (dir++[e.name]) (planChildRel dirRel e.name.1) (forced keep e || forceNow) s)
  below : ∀ x ∈ (sub e).1, Below (dir++[e.name]) x.1
  covers : (sub e).2 = true → ∀ c ∈ t.entries (dir++[e.name]),
    ∃ x ∈ (sub e).1, x.1 = dir++[e.name]++[c.name]

theorem effect_fresh {xs : List Extra} {n : Name} (hq : Fresh s.gone (dir++[n]))
    (hx : ∀ x ∈ xs, ∃ m, m ≠ n ∧ (Below (dir++[m]) x.1 ∨ x.1 = dir++[m])) :
    Fresh (effect now s xs).gone (dir++[n]) := by
  rw [effect_gone]
  have hout : ∀ p ∈ (if now then xs.map Prod.fst else []),
      ¬p = dir++[n] ∧ ¬Below (dir++[n]) p := by
    intro p hp
    cases now with
    | false => simp at hp
    | true =>
      obtain ⟨x,hxs,rfl⟩ := List.mem_map.mp hp
      obtain ⟨m,hmn,hb | he⟩ := hx x hxs
      · exact ⟨fun he => hmn (below_sibling hb (.inr he)),
          fun hb' => hmn (below_sibling hb (.inl hb'))⟩
      · refine ⟨fun he' => ?_,fun hb' => hmn (below_sibling hb' (.inr he)).symm⟩
        rw [he] at he'
        exact hmn (List.cons.inj (List.append_cancel_left he')).1
  constructor
  · intro hmem
    rcases List.mem_append.mp hmem with hmem | hmem
    · exact hq.1 hmem
    · exact (hout _ hmem).1 rfl
  · intro p hp
    rcases List.mem_append.mp hp with hp | hp
    · exact hq.2 p hp
    · exact (hout p hp).2

variable {t dir dirRel keep forceNow now defer children sub}

theorem disposeExtraDir_ran {p : Position} {f : Bool} {s : DeletePlanSession}
    (hnow : (s.defer && !f) = !now) (hrm : now = true → rmdir t s.gone p = .ok (s.gone++[p])) :
    Ran now s [(p, true)] true (disposeExtraDir t p (relPath p) f s) := by
  unfold disposeExtraDir
  rw [hnow]
  cases now with
  | false => exact deferAdd_ran
  | true =>
    apply removal_ran
    · intro hb
      simp [hb, hrm rfl, spell]
    · intro hb
      simp [hb, noteSkipped]

theorem processExtraDir_ran {e : DeleteDirEntry}
    (hrel : planChildRel dirRel e.name.1 = relPath (dir++[e.name]))
    (ht : Treats t dir dirRel keep forceNow now defer children sub e)
    (hnow : (defer && !(forced keep e || forceNow)) = !now) {s : DeletePlanSession}
    (hd : s.defer = defer) (hfresh : Fresh s.gone (dir++[e.name])) :
    Ran now s (emptied (dir++[e.name]) (sub e)) (sub e).2
      (processExtraDir t children (dir++[e.name]) (planChildRel dirRel e.name.1)
        (forced keep e || forceNow) s) := by
  have hran := ht.ran s hd hfresh
  rw [hrel] at hran ⊢
  unfold processExtraDir
  set r := children (dir++[e.name]) (relPath (dir++[e.name])) (forced keep e || forceNow) s
  have hkeep : Keeps r.1 (if r.2 then (r.1, false) else
      disposeExtraDir t (dir++[e.name]) (relPath (dir++[e.name]))
        (forced keep e || forceNow) r.1).1 := by
    split_ifs
    · exact fun h => h
    · exact keeps_of_moves moves_disposeExtraDir
  refine ran_append hran hkeep fun hf hr => ?_
  rw [hr]
  cases hsub : (sub e).2 with
  | false =>
    refine ⟨fun _ => ?_,fun h0 hn => absurd h0 hn⟩
    simp [effect_nil]
  | true =>
    refine disposeExtraDir_ran (by rw [effect_defer, hd, hnow]) fun hn => ?_
    subst hn
    apply rmdir_ok
    · intro hmem
      rcases List.mem_append.mp hmem with hmem | hmem
      · exact hfresh.1 hmem
      · obtain ⟨x,hx,hxe⟩ := List.mem_map.mp hmem
        have hb := ht.below x hx
        rw [hxe] at hb
        exact below_irrefl hb
    · intro c hce
      obtain ⟨x,hx,hxc⟩ := ht.covers hsub c hce
      rw [← hxc]
      exact List.mem_append_right _ (List.mem_map_of_mem hx)

theorem treats_within (e : DeleteDirEntry)
    (ht : Treats t dir dirRel keep forceNow now defer children sub e) :
    ∀ x ∈ emptied (dir++[e.name]) (sub e), Below (dir++[e.name]) x.1 ∨ x.1 = dir++[e.name] := by
  intro x hx
  rcases List.mem_append.mp hx with hx | hx
  · exact .inl (ht.below x hx)
  · split at hx
    · rw [List.mem_singleton.mp hx]
      exact .inr rfl
    · exact absurd hx List.not_mem_nil

theorem planDirPass_ran (hc : ∀ p rel f s, Moves s (children p rel f s).1)
    {es : List DeleteDirEntry} (hn : (es.map Entry.name).Nodup)
    (hrel : ∀ n : Name, planChildRel dirRel n.1 = relPath (dir++[n]))
    (ht : ∀ e ∈ es, Treats t dir dirRel keep forceNow now defer children sub e)
    (hnow : ∀ e ∈ es, (defer && !(forced keep e || forceNow)) = !now) (s : DeletePlanSession)
    (survives : Bool) (hd : s.defer = defer) (hfresh : ∀ e ∈ es, Fresh s.gone (dir++[e.name])) :
    Ran now s (es.flatMap fun e => emptied (dir++[e.name]) (sub e))
      (survives || !es.all fun e => (sub e).2)
      (planDirPass t dir dirRel keep forceNow children es (s, survives)) := by
  induction es generalizing s survives with
  | nil =>
    refine ⟨fun _ => ?_,fun h0 h => absurd h0 h⟩
    simp [planDirPass, effect_nil]
  | cons e es ih =>
    rw [List.map_cons, List.nodup_cons] at hn
    have hstep := processExtraDir_ran (hrel e.name) (ht e (by simp)) (hnow e (by simp)) hd
      (hfresh e (by simp))
    rw [List.flatMap_cons, planDirPass]
    refine ran_append hstep (keeps_of_moves (moves_planDirPass t children hc _ _)) fun hf hr => ?_
    rw [hr]
    have hrest := ih hn.2 (fun e he => ht e (List.mem_cons_of_mem _ he))
      (fun e he => hnow e (List.mem_cons_of_mem _ he))
      (effect now s (emptied (dir++[e.name]) (sub e))) (survives || !(sub e).2)
      (effect_defer.trans hd) fun e' he' => ?_
    · simpa [Bool.or_assoc] using hrest
    · refine effect_fresh dir now (hfresh e' (List.mem_cons_of_mem _ he')) fun x hx => ?_
      exact ⟨e.name,fun h => hn.1 (h ▸ List.mem_map_of_mem he'),
        treats_within e (ht e (by simp)) x hx⟩

theorem processExtraFile_ran (p : Position) (f : Bool) (s : DeletePlanSession) (flag : Bool)
    (hnow : (s.defer && !f) = !now) (hp : now = true → p ∉ s.gone) :
    Ran now s [(p, false)] flag (processExtraFile p (relPath p) f s, flag) := by
  unfold processExtraFile
  rw [hnow]
  cases now with
  | false =>
    exact deferAdd_ran
  | true =>
    apply removal_ran
    · intro hb
      simp [hb, unlink_ok (hp rfl), spell]
    · intro hb
      simp [hb, noteSkipped]

theorem planFilePass_ran {es : List DeleteDirEntry} (hn : (es.map Entry.name).Nodup)
    (hrel : ∀ n : Name, planChildRel dirRel n.1 = relPath (dir++[n]))
    (hnow : ∀ e ∈ es, (defer && !(forced keep e || forceNow)) = !now) (s : DeletePlanSession)
    {flag : Bool} (hd : s.defer = defer) (hfresh : ∀ e ∈ es, Fresh s.gone (dir++[e.name])) :
    Ran now s (es.map fun e => (dir++[e.name], false)) flag
      (planFilePass dir dirRel keep forceNow es s, flag) := by
  induction es generalizing s with
  | nil =>
    refine ⟨fun _ => ?_,fun h0 h => absurd h0 h⟩
    simp [planFilePass, effect_nil]
  | cons e es ih =>
    rw [List.map_cons, List.nodup_cons] at hn
    have hstep := processExtraFile_ran (dir++[e.name]) (forced keep e || forceNow) s flag
      (by rw [hd, hnow e (by simp)]) fun _ => (hfresh e (by simp)).1
    rw [List.map_cons, planFilePass, hrel]
    refine @ran_append _ _ [(dir++[e.name], false)] _ _ _ _ _ hstep
      (keeps_of_moves (moves_planFilePass _)) fun hf hr => ?_
    rw [(Prod.mk.inj hr).1]
    refine ih hn.2 (fun e he => hnow e (List.mem_cons_of_mem _ he)) _
      (effect_defer.trans hd) fun e' he' => ?_
    refine effect_fresh dir now (hfresh e' (List.mem_cons_of_mem _ he')) fun x hx => ?_
    rw [List.mem_singleton.mp hx]
    exact ⟨e.name,fun h => hn.1 (h ▸ List.mem_map_of_mem he'),.inr rfl⟩

theorem passes_ran (hc : ∀ p rel f s, Moves s (children p rel f s).1)
    (v : DeleteDirEntry → Verdict) (hv : ∀ e, v e ≠ .kept) (entries : List DeleteDirEntry)
    (hs : DirsFirst entries) (hn : (entries.map Entry.name).Nodup)
    (hrel : ∀ n : Name, planChildRel dirRel n.1 = relPath (dir++[n]))
    (ht : ∀ e ∈ entries, e.isDir = true → v e = .extra →
      Treats t dir dirRel keep forceNow now defer children sub e)
    (hnow : ∀ e ∈ entries, v e = .extra → (defer && !(forced keep e || forceNow)) = !now)
    (s : DeletePlanSession) (hd : s.defer = defer) (hwhole : Untouched s.gone dir) :
    let acc := planDirPass t dir dirRel keep forceNow children
      ((entries.takeWhile fun e => e.isDir).filter fun e => decide (v e = .extra))
      (s, entries.any fun e => decide (v e ≠ .extra))
    Ran now s (entriesExtras v dir sub entries).1 (!(entriesExtras v dir sub entries).2)
      (planFilePass dir dirRel keep forceNow
        ((entries.dropWhile fun e => e.isDir).filter fun e => decide (v e = .extra)) acc.1,
        acc.2) := by
  intro acc
  have hkept : ((entries.takeWhile fun e => e.isDir).reverse.filter
      fun e => decide (v e = .kept)) = [] := by
    rw [List.filter_eq_nil_iff]
    intro e _
    simp [hv e]
  have hnodup := passes_nodup v (entries.takeWhile fun e => e.isDir)
    (entries.dropWhile fun e => e.isDir) (by rw [List.takeWhile_append_dropWhile]; exact hn)
  rw [hkept, List.append_nil, List.map_append, List.nodup_append] at hnodup
  obtain ⟨hn1,hn2,hn12⟩ := hnodup
  have hmem1 : ∀ e ∈ (entries.takeWhile fun e => e.isDir).filter fun e => decide (v e = .extra),
      e ∈ entries ∧ e.isDir = true ∧ v e = .extra := fun e he =>
    ⟨(List.takeWhile_sublist _).subset (List.mem_of_mem_filter he),
      List.mem_takeWhile_imp (List.mem_of_mem_filter he),
      of_decide_eq_true (List.mem_filter.mp he).2⟩
  have hmem2 : ∀ e ∈ (entries.dropWhile fun e => e.isDir).filter fun e => decide (v e = .extra),
      e ∈ entries ∧ v e = .extra := fun e he =>
    ⟨(List.dropWhile_sublist _).subset (List.mem_of_mem_filter he),
      of_decide_eq_true (List.mem_filter.mp he).2⟩
  have h1 := planDirPass_ran hc hn1 hrel (fun e he => ht e (hmem1 e he).1 (hmem1 e he).2.1
    (hmem1 e he).2.2) (fun e he => hnow e (hmem1 e he).1 (hmem1 e he).2.2) s
    (entries.any fun e => decide (v e ≠ .extra)) hd fun e _ => untouched_fresh hwhole e.name
  rw [entriesExtras_passes v dir sub entries hs, entriesExtras_flag v dir sub entries hs, hkept,
    List.flatMap_nil, List.append_nil, List.isEmpty_nil, Bool.and_true, Bool.not_and, Bool.not_not]
  refine ran_append h1 (keeps_of_moves (moves_planFilePass _)) fun hf hr => ?_
  rw [show acc = _ from hr]
  refine planFilePass_ran hn2 hrel (fun e he => hnow e (hmem2 e he).1 (hmem2 e he).2) _
    (effect_defer.trans hd) fun e he => ?_
  refine effect_fresh dir now (untouched_fresh hwhole e.name) fun x hx => ?_
  obtain ⟨c,hc',hx⟩ := List.mem_flatMap.mp hx
  exact ⟨c.name,hn12 _ (List.mem_map_of_mem hc') _ (List.mem_map_of_mem he),
    treats_within c (ht c (hmem1 c hc').1 (hmem1 c hc').2.1 (hmem1 c hc').2.2) x hx⟩

end Passes

theorem planChildRel_dirName {d : Position} (n : Name) :
    planChildRel (dirName d) n.1 = relPath (d++[n]) := by
  unfold planChildRel dirName
  by_cases hd : d = []
  · subst hd
    rfl
  · rw [if_neg hd, if_neg (relPath_ne_dot d), relPath_child]

theorem planVerdict_ne_kept (skips : PlanSkips) (dirRel : Bytes) (keep : Option KeepLists)
    (atRoot : Bool) (e : DeleteDirEntry) : planVerdict skips dirRel keep atRoot e ≠ .kept := by
  unfold planVerdict
  dsimp only
  split_ifs <;> simp

theorem planVerdict_unshielded {skips : PlanSkips} {dirRel : Bytes} {keep : Option KeepLists}
    {atRoot : Bool} {e : DeleteDirEntry} : planVerdict skips dirRel keep atRoot e ≠ .shielded ↔
      planVerdict skips dirRel keep atRoot e = .extra := by
  have hk := planVerdict_ne_kept skips dirRel keep atRoot e
  cases hv : planVerdict skips dirRel keep atRoot e <;> simp_all

/-- Inside an extra directory the plan engine works like a walk without any
manifest. -/
def strictRun (skips : PlanSkips) : DeleteRun := ⟨⟨[]⟩,none,skips.entries,skips.protectRules⟩

theorem planVerdict_strict {skips : PlanSkips} {d : Position} (hd : d ≠ []) :
    planVerdict skips (dirName d) none false = classify (strictRun skips) (relPath d) true := by
  funext e
  have hroot : decide (relPath d = []) = false := by
    rw [decide_eq_false_iff_not, relPath_eq_nil]
    exact hd
  rw [planVerdict, planChildRel_dirName, relPath_child, classify, hroot]
  simp [strictRun, listContainsStr, childSynced, keepIsDir, keepIsFile, pathIndexContains, pathIndexHasDescendant]

section Run
variable (t : DirTree Name) (skips : PlanSkips)

def levelExtras (fuel : ℕ) (d : Position) (keep : Option KeepLists) (atRoot : Bool) :
    List Extra × Bool :=
  entriesExtras (planVerdict skips (dirName d) keep atRoot) d
    (fun e => extrasBelow t (strictRun skips) fuel (d++[e.name]) (relPath (d++[e.name])) true)
    (sortEntries (t.entries d))

theorem levelExtras_strict {fuel : ℕ} {d : Position} (hd : d ≠ []) :
    levelExtras t skips fuel d none false =
      extrasBelow t (strictRun skips) (fuel+1) d (relPath d) true := by
  simp [levelExtras, extrasBelow, planVerdict_strict hd, relPath_child]

variable {t skips}

/-- Extra directories that are still whole are treated like extras of the walk. -/
def TreatsWhole (t : DirTree Name) (skips : PlanSkips) (now defer : Bool) (fuel : ℕ) : Prop :=
  ∀ p f s, p ≠ [] → t.height p < fuel → s.defer = defer → (defer && !f) = !now →
    Untouched s.gone p → Ran now s (extrasBelow t (strictRun skips) fuel p (relPath p) true).1
      (!(extrasBelow t (strictRun skips) fuel p (relPath p) true).2)
      (processChildren t skips fuel p (dirName p) none false f s)

section
variable {now defer : Bool} {d : Position} {keep : Option KeepLists} {atRoot f : Bool}

theorem processChildren_step {fuel : ℕ} (ih : TreatsWhole t skips now defer fuel)
    {s : DeletePlanSession}
    (hnow : ∀ e ∈ t.entries d, planVerdict skips (dirName d) keep atRoot e = .extra →
      (defer && !(forced keep e || f)) = !now)
    (hfuel : t.height d < fuel+1) (hd : s.defer = defer) (hwhole : Untouched s.gone d) :
    Ran now s (levelExtras t skips fuel d keep atRoot).1
      (!(levelExtras t skips fuel d keep atRoot).2)
      (processChildren t skips (fuel+1) d (dirName d) keep atRoot f s) := by
  rw [processChildren, readdir_untouched t hwhole]
  refine @passes_ran _ _ _ _ _ _ defer _ _
    (fun p rel f s => moves_processChildren t skips fuel p rel none false f s) _
    (planVerdict_ne_kept skips _ _ _) _ (sortEntries_dirsFirst _)
    (sortEntries_nodup _ (t.names_nodup d)) planChildRel_dirName (fun e he hdir hv => ?_)
    (fun e he hv => hnow e ((mem_sortEntries _).mp he) hv) s hd hwhole
  have hmem := (mem_sortEntries _).mp he
  have hh := t.height_lt d e hmem hdir
  refine ⟨fun s hs hfresh => ?_,extrasBelow_below t _ fuel _ _ _,
    extrasBelow_covers t _ fuel _ _ _⟩
  have hname : planChildRel (dirName d) e.name.1 = dirName (d++[e.name]) := by
    rw [planChildRel_dirName, dirName, if_neg (by simp)]
  rw [hname]
  exact ih _ _ s (by simp) (by omega) hs (hnow e hmem hv) hfresh.2

theorem processChildren_strict {fuel : ℕ} : TreatsWhole t skips now defer fuel := by
  induction fuel with
  | zero => exact fun p f s _ hfuel => absurd hfuel (Nat.not_lt_zero _)
  | succ fuel ih =>
    intro p f s hp hfuel hd hnow hwhole
    rw [← levelExtras_strict t skips hp]
    apply processChildren_step ih _ hfuel hd hwhole
    intro e _ _
    rw [show forced none e = false by unfold forced; split_ifs <;> rfl, Bool.false_or]
    exact hnow

theorem processChildren_ran {s : DeletePlanSession}
    (hnow : ∀ e ∈ t.entries d, planVerdict skips (dirName d) keep atRoot e = .extra →
      (defer && !(forced keep e || f)) = !now)
    (hd : s.defer = defer) (hwhole : Untouched s.gone d) :
    Ran now s (levelExtras t skips (t.height d) d keep atRoot).1
      (!(levelExtras t skips (t.height d) d keep atRoot).2)
      (processChildren t skips (t.height d+1) d (dirName d) keep atRoot f s) :=
  processChildren_step processChildren_strict hnow (by omega) hd hwhole

end

end Run

end FastSync.DeleteSessionRun
