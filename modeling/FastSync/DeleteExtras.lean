import FastSync.DeleteWalk
import Mathlib.Data.List.TakeWhile

/-!
# What the delete walk emits

The extras of a directory form one list, in the order of the three passes and
with every removed directory after its own content. The walk emits this list
up to its budget, in both modes. An entry that is still to be visited is fresh:
neither it nor anything below it has been removed.
-/

set_option autoImplicit false

namespace FastSync.DeleteExtras
open FiniteTree DeletePaths DeleteWalk

abbrev Extra := Position × Bool

def spell (x : Extra) : Bytes := relPath x.1++(if x.2 then [slash] else [])

def emptied (p : Position) (sub : List Extra × Bool) : List Extra :=
  sub.1++(if sub.2 then [(p, true)] else [])

def contribution (v : DeleteDirEntry → Verdict) (dir : Position)
    (sub : DeleteDirEntry → List Extra × Bool) (e : DeleteDirEntry) : List Extra :=
  match v e, e.isDir with
  | .extra, true => emptied (dir++[e.name]) (sub e)
  | .extra, false => [(dir++[e.name], false)]
  | .kept, true => (sub e).1
  | _, _ => []

/-- The entries a walk acts on, in the order of its three passes. -/
def visitOrder (v : DeleteDirEntry → Verdict)
    (entries : List DeleteDirEntry) : List DeleteDirEntry :=
  let dirs := entries.takeWhile fun e => e.isDir
  let files := entries.dropWhile fun e => e.isDir
  (dirs.filter fun e => decide (v e = .extra))++
    (files.filter fun e => decide (v e = .extra))++
    (dirs.reverse.filter fun e => decide (v e = .kept))

def entriesExtras (v : DeleteDirEntry → Verdict) (dir : Position)
    (sub : DeleteDirEntry → List Extra × Bool) (entries : List DeleteDirEntry) :
    List Extra × Bool :=
  ((visitOrder v entries).flatMap (contribution v dir sub),
   entries.all fun e => decide (v e = .extra) && (!e.isDir || (sub e).2))

/-- The extras strictly below a directory, and whether they are all it holds. -/
def extrasBelow (t : DirTree Name) (run : DeleteRun) :
    ℕ → Position → Bytes → Bool → List Extra × Bool
  | 0, _, _, _ => ([], false)
  | fuel+1, dir, rel, parentDeletable =>
    let deletable := parentDeletable || isSyncedDir run.dirs rel
    entriesExtras (classify run rel deletable) dir
      (fun e => extrasBelow t run fuel (dir++[e.name]) (pathCat rel e.name.1) deletable)
      (sortEntries (t.entries dir))

def room (st : DeleteWalkState) : ℕ := st.budget.maxDelete-st.budget.deleted

def fits (st : DeleteWalkState) (n : ℕ) : Bool :=
  match st.mode with
  | .list => true
  | .delete => decide (n ≤ room st)

structure Emitted (st : DeleteWalkState) (xs : List Extra) (st' : DeleteWalkState) : Prop where
  mode : st'.mode = st.mode
  max : st'.budget.maxDelete = st.budget.maxDelete
  listed : st.mode = .list → st'.out = st.out++xs.map spell ∧
    st'.recorded = st.recorded+xs.length ∧ st'.gone = st.gone
  gone : st.mode = .delete → st'.gone = st.gone++(xs.take (room st)).map Prod.fst
  observed : st.mode = .delete → st'.observed = st.observed++(xs.take (room st)).map spell
  deleted : st.mode = .delete → st'.budget.deleted = st.budget.deleted+min (room st) xs.length
  limit : st.mode = .delete →
    st'.budget.limitHit = (st.budget.limitHit || decide (room st < xs.length))

def Fresh (gone : List Position) (p : Position) : Prop := p ∉ gone ∧ Untouched gone p

theorem emitted_nil {st : DeleteWalkState} : Emitted st [] st := by
  constructor <;> simp

variable {st st' : DeleteWalkState} {xs : List Extra}

theorem emitted_room (h : Emitted st xs st')
    (hm : st.mode = .delete) : room st' = room st-xs.length := by
  rw [room,h.max,h.deleted hm,room]
  omega

theorem emitted_fits (h : Emitted st xs st')
    (hf : fits st xs.length = true) {n : ℕ} : fits st' n = fits st (xs.length+n) := by
  unfold fits at *
  rw [h.mode]
  cases hm : st.mode with
  | list => rfl
  | delete =>
    rw [hm,decide_eq_true_eq] at hf
    rw [emitted_room h hm,decide_eq_decide]
    omega

theorem emitted_append {st1 st2 : DeleteWalkState} {ys : List Extra}
    (hx : Emitted st xs st1) (hy : Emitted st1 ys st2) : Emitted st (xs++ys) st2 := by
  have hm : st.mode = .delete → st1.mode = .delete := fun h => hx.mode.trans h
  constructor
  · rw [hy.mode,hx.mode]
  · rw [hy.max,hx.max]
  · intro h
    obtain ⟨ho,hr,hg⟩ := hx.listed h
    obtain ⟨ho',hr',hg'⟩ := hy.listed (hx.mode.trans h)
    rw [ho',ho,hr',hr,hg',hg,List.map_append,List.length_append]
    exact ⟨by simp,by omega,rfl⟩
  · intro h
    rw [hy.gone (hm h),hx.gone h,emitted_room hx h,List.take_append,List.map_append,
      List.append_assoc]
  · intro h
    rw [hy.observed (hm h),hx.observed h,emitted_room hx h,List.take_append,List.map_append,
      List.append_assoc]
  · intro h
    rw [hy.deleted (hm h),hx.deleted h,emitted_room hx h,List.length_append]
    omega
  · intro h
    rw [hy.limit (hm h),hx.limit h,emitted_room hx h,List.length_append,Bool.or_assoc]
    congr 1
    rw [← Bool.decide_or,decide_eq_decide]
    omega

theorem emitted_overflow {ys : List Extra}
    (h : Emitted st xs st') (hf : fits st xs.length = false) : Emitted st (xs++ys) st' := by
  have hm : st.mode = .delete := by
    cases hm : st.mode with
    | list => simp [fits,hm] at hf
    | delete => rfl
  have hr : room st < xs.length := by simpa [fits,hm] using hf
  have htake : (xs++ys).take (room st) = xs.take (room st) :=
    List.take_append_of_le_length hr.le
  refine ⟨h.mode,h.max,fun hl => (by rw [hm] at hl; cases hl),?_,?_,?_,?_⟩
  · rw [htake]
    exact h.gone
  · rw [htake]
    exact h.observed
  · intro h'
    rw [h.deleted h',List.length_append]
    omega
  · intro h'
    rw [h.limit h',List.length_append,decide_eq_true hr,decide_eq_true (by omega)]

section
variable (h : Emitted st xs st')
include h

theorem emitted_gone_mem {p : Position} (hp : p ∈ st'.gone) : p ∈ st.gone ∨ ∃ x ∈ xs, x.1 = p := by
  cases hm : st.mode with
  | list =>
    rw [(h.listed hm).2.2] at hp
    exact .inl hp
  | delete =>
    rw [h.gone hm] at hp
    rcases List.mem_append.mp hp with hp | hp
    · exact .inl hp
    · obtain ⟨x,hx,rfl⟩ := List.mem_map.mp hp
      exact .inr ⟨x,List.mem_of_mem_take hx,rfl⟩

theorem emitted_fresh {q : Position} (hq : Fresh st.gone q) (hx : ∀ x ∈ xs, x.1 ≠ q ∧ ¬Below q x.1) :
    Fresh st'.gone q := by
  constructor
  · intro hmem
    rcases emitted_gone_mem h hmem with hmem | ⟨x,hxs,rfl⟩
    · exact hq.1 hmem
    · exact (hx x hxs).1 rfl
  · intro p hp
    rcases emitted_gone_mem h hp with hp | ⟨x,hxs,rfl⟩
    · exact hq.2 p hp
    · exact (hx x hxs).2

theorem emitted_mem_gone (hm : st.mode = .delete) (hf : fits st xs.length = true) {x : Extra}
    (hx : x ∈ xs) : x.1 ∈ st'.gone := by
  have hr : xs.length ≤ room st := by simpa [fits,hm] using hf
  rw [h.gone hm,List.take_of_length_le hr]
  exact List.mem_append_right _ (List.mem_map_of_mem hx)

end

theorem disposeWith_emitted (st : DeleteWalkState) (attempt : Except Errno (List Position))
    (x : Extra) (h : st.mode = .delete → attempt = .ok (st.gone++[x.1])) :
    Emitted st [x] (disposeWith st attempt (spell x)).1 ∧
      (disposeWith st attempt (spell x)).2 = !fits st 1 := by
  unfold disposeWith fits
  cases hm : st.mode with
  | list =>
    refine ⟨⟨rfl,rfl,fun _ => ⟨rfl,rfl,rfl⟩,?_,?_,?_,?_⟩,rfl⟩ <;>
      exact fun hd => by rw [hm] at hd; cases hd
  | delete =>
    by_cases hfull : st.budget.deleted ≥ st.budget.maxDelete
    · have hr : room st = 0 := Nat.sub_eq_zero_of_le hfull
      simp only [hfull,if_true]
      refine ⟨⟨rfl,rfl,?_,?_,?_,?_,?_⟩,?_⟩
      · exact fun hl => by rw [hm] at hl; cases hl
      all_goals simp [limited,hr]
    · have hr : 1 ≤ room st := by unfold room; omega
      have htake : [x].take (room st) = [x] := List.take_of_length_le hr
      simp only [hfull,if_false,h hm]
      refine ⟨⟨rfl,rfl,?_,?_,?_,?_,?_⟩,?_⟩
      · exact fun hl => by rw [hm] at hl; cases hl
      all_goals simp [removed,htake,hr,Nat.one_le_iff_ne_zero.mp hr]

theorem fits_left {m n : ℕ} (h : fits st m = false) : fits st (m+n) = false := by
  unfold fits at *
  cases hm : st.mode with
  | list => simp [hm] at h
  | delete =>
    rw [hm,decide_eq_false_iff_not] at h
    rw [decide_eq_false_iff_not]
    omega

section Passes
variable (t : DirTree Name) (dir : Position) (rel : Bytes)
variable (walk : Position → Bytes → DeleteWalkState → DeleteWalkState × Bool)
variable (sub : DeleteDirEntry → List Extra × Bool)

/-- What the passes need of the walk of one subdirectory: on a fresh entry it
emits that entry's extras and reports whether the directory is now empty. -/
structure Descends (e : DeleteDirEntry) : Prop where
  emits : ∀ st, Fresh st.gone (dir++[e.name]) →
    Emitted st (sub e).1 (walk (dir++[e.name]) (pathCat rel e.name.1) st).1
  empties : ∀ st, Fresh st.gone (dir++[e.name]) →
    (walk (dir++[e.name]) (pathCat rel e.name.1) st).2 =
      ((sub e).2 && fits st (sub e).1.length)
  below : ∀ x ∈ (sub e).1, Below (dir++[e.name]) x.1
  covers : (sub e).2 = true → ∀ c ∈ t.entries (dir++[e.name]),
    ∃ x ∈ (sub e).1, x.1 = dir++[e.name]++[c.name]

theorem fresh_sibling (h : Emitted st xs st') {n : Name} (hq : Fresh st.gone (dir++[n]))
    (hx : ∀ x ∈ xs, ∃ m, m ≠ n ∧ (Below (dir++[m]) x.1 ∨ x.1 = dir++[m])) :
    Fresh st'.gone (dir++[n]) := by
  refine emitted_fresh h hq fun x hxs => ?_
  obtain ⟨m,hmn,hb | he⟩ := hx x hxs
  · refine ⟨fun he => hmn (below_sibling hb (.inr he)),fun hb' => ?_⟩
    exact hmn (below_sibling hb (.inl hb'))
  · refine ⟨fun he' => ?_,fun hb' => ?_⟩
    · rw [he] at he'
      exact hmn (List.cons.inj (List.append_cancel_left he')).1
    · exact hmn (below_sibling hb' (.inr he)).symm

section
variable (e : DeleteDirEntry)

theorem spell_dir (hrel : rel = relPath dir) :
    pathCat rel e.name.1++[slash] = spell (dir++[e.name], true) := by
  rw [hrel,← relPath_child]
  rfl

theorem spell_file (hrel : rel = relPath dir) :
    pathCat rel e.name.1 = spell (dir++[e.name], false) := by
  rw [hrel,← relPath_child]
  simp [spell]

theorem emptied_below (hd : Descends t dir rel walk sub e) :
    ∀ x ∈ emptied (dir++[e.name]) (sub e), Below (dir++[e.name]) x.1 ∨ x.1 = dir++[e.name] := by
  intro x hx
  rcases List.mem_append.mp hx with hx | hx
  · exact .inl (hd.below x hx)
  · split at hx
    · rw [List.mem_singleton.mp hx]
      exact .inr rfl
    · exact absurd hx List.not_mem_nil

theorem disposeDir_emitted (hrel : rel = relPath dir) (hd : Descends t dir rel walk sub e)
    (hall : (sub e).2 = true) {st : DeleteWalkState} (hfresh : Fresh st.gone (dir++[e.name]))
    (hfit : fits st (sub e).1.length = true) :
    let st1 := (walk (dir++[e.name]) (pathCat rel e.name.1) st).1
    Emitted st1 [(dir++[e.name], true)]
        (disposeDir t st1 (dir++[e.name]) (pathCat rel e.name.1)).1 ∧
      (disposeDir t st1 (dir++[e.name]) (pathCat rel e.name.1)).2 = !fits st1 1 := by
  intro st1
  have he := hd.emits st hfresh
  have hnot : dir++[e.name] ∉ st1.gone := by
    intro hmem
    rcases emitted_gone_mem he hmem with hmem | ⟨x,hx,hxe⟩
    · exact hfresh.1 hmem
    · have hb := hd.below x hx
      rw [hxe] at hb
      exact below_irrefl hb
  unfold disposeDir
  rw [spell_dir dir rel e hrel]
  apply disposeWith_emitted
  intro hm
  apply rmdir_ok t hnot
  intro c hc
  obtain ⟨x,hx,hxc⟩ := hd.covers hall c hc
  rw [← hxc]
  exact emitted_mem_gone he (he.mode.symm.trans hm) hfit hx

section
variable (es : List DeleteDirEntry) (st : DeleteWalkState) (survives : Bool)

theorem extraDirPass_emptied (h : (walk (dir++[e.name]) (pathCat rel e.name.1) st).2 = true) :
    extraDirPass t dir rel true walk (e::es) (st, survives) =
      let r := disposeDir t (walk (dir++[e.name]) (pathCat rel e.name.1) st).1 (dir++[e.name])
        (pathCat rel e.name.1)
      extraDirPass t dir rel true walk es (r.1, survives || r.2) := by
  simp [extraDirPass,h]

theorem extraDirPass_survives (h : (walk (dir++[e.name]) (pathCat rel e.name.1) st).2 = false) :
    extraDirPass t dir rel true walk (e::es) (st, survives) =
      extraDirPass t dir rel true walk es
        ((walk (dir++[e.name]) (pathCat rel e.name.1) st).1, true) := by
  simp [extraDirPass,h]

end

end

section
variable (es : List DeleteDirEntry) (hrel : rel = relPath dir) (hn : (es.map Entry.name).Nodup)
include hrel hn

theorem extraDirPass_emitted (hd : ∀ e ∈ es, Descends t dir rel walk sub e) (st : DeleteWalkState)
    (survives : Bool) (hfresh : ∀ e ∈ es, Fresh st.gone (dir++[e.name])) :
    let r := extraDirPass t dir rel true walk es (st, survives)
    let xs := es.flatMap fun e => emptied (dir++[e.name]) (sub e)
    Emitted st xs r.1 ∧
      r.2 = (survives || !((es.all fun e => (sub e).2) && fits st xs.length)) := by
  induction es generalizing st survives with
  | nil =>
    refine ⟨emitted_nil,?_⟩
    cases hm : st.mode <;> simp [extraDirPass,fits,hm]
  | cons e es ih =>
    rw [List.map_cons,List.nodup_cons] at hn
    have hde := hd e (by simp)
    have hfe := hfresh e (by simp)
    have hne : ∀ e' ∈ es, e.name ≠ e'.name := fun e' he' hname =>
      hn.1 (hname ▸ List.mem_map_of_mem he')
    have hem := hde.emits st hfe
    have hflag := hde.empties st hfe
    -- once the entry itself is settled, the rest of the pass runs on fresh entries
    have rest : ∀ st2 s2, Emitted st (emptied (dir++[e.name]) (sub e)) st2 →
        Emitted st ((e::es).flatMap fun e => emptied (dir++[e.name]) (sub e))
          (extraDirPass t dir rel true walk es (st2, s2)).1 ∧
        (extraDirPass t dir rel true walk es (st2, s2)).2 = (s2 || !((es.all fun e => (sub e).2) &&
          fits st2 (es.flatMap fun e => emptied (dir++[e.name]) (sub e)).length)) := by
      intro st2 s2 h2
      have hfresh2 : ∀ e' ∈ es, Fresh st2.gone (dir++[e'.name]) := fun e' he' =>
        fresh_sibling dir h2 (hfresh e' (by simp [he'])) fun x hx =>
          ⟨e.name,hne e' he',emptied_below t dir rel walk sub e hde x hx⟩
      obtain ⟨h3,h4⟩ := ih hn.2 (fun e' he' => hd e' (by simp [he'])) st2 s2 hfresh2
      refine ⟨?_,h4⟩
      exact emitted_append h2 h3
    dsimp only
    rw [List.flatMap_cons,List.length_append,List.all_cons] at *
    cases hs : (sub e).2 with
    | false =>
      have hemptied : emptied (dir++[e.name]) (sub e) = (sub e).1 := by simp [emptied,hs]
      rw [hs,Bool.false_and] at hflag
      obtain ⟨h3,h4⟩ := rest _ true (hemptied.symm ▸ hem)
      rw [extraDirPass_survives t dir rel walk e es st survives hflag]
      exact ⟨h3,by rw [h4]; simp⟩
    | true =>
      have hemptied : emptied (dir++[e.name]) (sub e) = (sub e).1++[(dir++[e.name], true)] := by
        simp [emptied,hs]
      cases hf : fits st (sub e).1.length with
      | false =>
        rw [hs,hf,Bool.and_false] at hflag
        obtain ⟨h3,h4⟩ := rest _ true (hemptied.symm ▸ emitted_overflow hem hf)
        rw [extraDirPass_survives t dir rel walk e es st survives hflag]
        refine ⟨h3,?_⟩
        rw [h4,hemptied,List.length_append,Nat.add_assoc,fits_left hf]
        simp
      | true =>
        rw [hs,hf,Bool.and_true] at hflag
        obtain ⟨hdisp,hleft⟩ :=
          disposeDir_emitted t dir rel walk sub e hrel hde hs hfe hf
        have h2 := emitted_append hem hdisp
        rw [← hemptied] at h2
        rw [emitted_fits hem hf,← List.length_singleton,← List.length_append,
          ← hemptied] at hleft
        rw [extraDirPass_emptied t dir rel walk e es st survives hflag]
        obtain ⟨h3,h4⟩ := rest _ (survives || _) h2
        refine ⟨h3,?_⟩
        rw [h4,hleft]
        cases hfe2 : fits st (emptied (dir++[e.name]) (sub e)).length with
        | false => simp [fits_left hfe2]
        | true => rw [emitted_fits h2 hfe2]; simp

theorem extraFilePass_emitted (st : DeleteWalkState) (survives : Bool)
    (hfresh : ∀ e ∈ es, Fresh st.gone (dir++[e.name])) :
    let r := extraFilePass dir rel es (st, survives)
    Emitted st (es.map fun e => (dir++[e.name], false)) r.1 ∧
      r.2 = (survives || !fits st es.length) := by
  induction es generalizing st survives with
  | nil =>
    refine ⟨emitted_nil,?_⟩
    cases hm : st.mode <;> simp [extraFilePass,fits,hm]
  | cons e es ih =>
    rw [List.map_cons,List.nodup_cons] at hn
    have hdisp := disposeWith_emitted st (unlink st.gone (dir++[e.name])) (dir++[e.name], false)
      (fun _ => unlink_ok (hfresh e (by simp)).1)
    rw [← spell_file dir rel e hrel] at hdisp
    obtain ⟨h1,hleft⟩ := hdisp
    have hfresh1 : ∀ e' ∈ es, Fresh (disposeFile st (dir++[e.name])
        (pathCat rel e.name.1)).1.gone (dir++[e'.name]) := by
      intro e' he'
      have hne : e.name ≠ e'.name := fun hname => hn.1 (hname ▸ List.mem_map_of_mem he')
      refine fresh_sibling dir h1 (hfresh e' (by simp [he'])) fun x hx => ⟨e.name,hne,?_⟩
      rw [List.mem_singleton.mp hx]
      exact .inr rfl
    obtain ⟨h2,h3⟩ := ih hn.2 _ (survives || !fits st 1) hfresh1
    have hstep : extraFilePass dir rel (e::es) (st, survives) = extraFilePass dir rel es
        ((disposeFile st (dir++[e.name]) (pathCat rel e.name.1)).1, survives || !fits st 1) := by
      rw [← hleft]
      rfl
    rw [hstep]
    refine ⟨emitted_append h1 h2,?_⟩
    rw [h3,List.length_cons,Nat.add_comm]
    cases hf : fits st 1 with
    | false => simp [fits_left hf]
    | true =>
      have hroom : fits (disposeFile st (dir++[e.name]) (pathCat rel e.name.1)).1 es.length =
          fits st (1+es.length) := emitted_fits h1 hf
      rw [hroom]
      simp

end

theorem keptDirPass_emitted {es : List DeleteDirEntry} (hn : (es.map Entry.name).Nodup)
    (hd : ∀ e ∈ es, Descends t dir rel walk sub e) (st : DeleteWalkState) (survives : Bool)
    (hfresh : ∀ e ∈ es, Fresh st.gone (dir++[e.name])) :
    let r := keptDirPass dir rel walk es (st, survives)
    Emitted st (es.flatMap fun e => (sub e).1) r.1 ∧ r.2 = (survives || !es.isEmpty) := by
  induction es generalizing st survives with
  | nil => exact ⟨emitted_nil,by simp [keptDirPass]⟩
  | cons e es ih =>
    rw [List.map_cons,List.nodup_cons] at hn
    have hde := hd e (by simp)
    have h1 := hde.emits st (hfresh e (by simp))
    have hfresh1 : ∀ e' ∈ es, Fresh (walk (dir++[e.name]) (pathCat rel e.name.1) st).1.gone
        (dir++[e'.name]) := by
      intro e' he'
      have hne : e.name ≠ e'.name := fun hname => hn.1 (hname ▸ List.mem_map_of_mem he')
      exact fresh_sibling dir h1 (hfresh e' (by simp [he'])) fun x hx =>
        ⟨e.name,hne,.inl (hde.below x hx)⟩
    obtain ⟨h2,h3⟩ := ih hn.2 (fun e' he' => hd e' (by simp [he'])) _ true hfresh1
    have hstep : keptDirPass dir rel walk (e::es) (st, survives) =
        keptDirPass dir rel walk es
          ((walk (dir++[e.name]) (pathCat rel e.name.1) st).1, true) := rfl
    rw [hstep,List.flatMap_cons]
    exact ⟨emitted_append h1 h2,by rw [h3]; simp⟩

theorem passes_emitted {eds efs kds : List DeleteDirEntry} (hrel : rel = relPath dir)
    (hn : ((eds++efs++kds).map Entry.name).Nodup)
    (hde : ∀ e ∈ eds, Descends t dir rel walk sub e)
    (hdk : ∀ e ∈ kds, Descends t dir rel walk sub e) (st : DeleteWalkState) (survives : Bool)
    (hfresh : ∀ n, Fresh st.gone (dir++[n])) :
    let r := keptDirPass dir rel walk kds (extraFilePass dir rel efs
      (extraDirPass t dir rel true walk eds (st, survives)))
    let xs := eds.flatMap (fun e => emptied (dir++[e.name]) (sub e))++
      efs.map (fun e => (dir++[e.name], false))++kds.flatMap (fun e => (sub e).1)
    Emitted st xs r.1 ∧ (!r.2) = (!survives && (eds.all fun e => (sub e).2) && kds.isEmpty &&
      fits st xs.length) := by
  rw [List.map_append,List.map_append,List.nodup_append,List.nodup_append] at hn
  obtain ⟨⟨hn1,hn2,hn12⟩,hn3,hn123⟩ := hn
  obtain ⟨h1,s1⟩ := extraDirPass_emitted t dir rel walk sub eds hrel hn1 hde st survives
    (fun e _ => hfresh e.name)
  set acc1 := extraDirPass t dir rel true walk eds (st, survives)
  have hfresh1 : ∀ n, n ∉ eds.map Entry.name → Fresh acc1.1.gone (dir++[n]) := by
    intro n hne
    refine fresh_sibling dir h1 (hfresh n) fun x hx => ?_
    obtain ⟨e,he,hx⟩ := List.mem_flatMap.mp hx
    exact ⟨e.name,fun h => hne (h ▸ List.mem_map_of_mem he),
      emptied_below t dir rel walk sub e (hde e he) x hx⟩
  obtain ⟨h2,s2⟩ := extraFilePass_emitted dir rel efs hrel hn2 acc1.1 acc1.2 (fun f hf =>
    hfresh1 f.name fun hmem => hn12 _ hmem _ (List.mem_map_of_mem hf) rfl)
  set acc2 := extraFilePass dir rel efs acc1
  have hfresh2 : ∀ k ∈ kds, Fresh acc2.1.gone (dir++[k.name]) := by
    intro k hk
    have hout := fun m hm => hn123 m hm _ (List.mem_map_of_mem hk)
    refine fresh_sibling dir h2 (hfresh1 k.name fun hmem =>
      hout _ (List.mem_append_left _ hmem) rfl) fun x hx => ?_
    obtain ⟨f,hf,rfl⟩ := List.mem_map.mp hx
    exact ⟨f.name,hout _ (List.mem_append_right _ (List.mem_map_of_mem hf)),.inr rfl⟩
  obtain ⟨h3,s3⟩ := keptDirPass_emitted t dir rel walk sub hn3 hdk acc2.1 acc2.2 hfresh2
  refine ⟨emitted_append (emitted_append h1 h2) h3,?_⟩
  rw [s3,s2,s1]
  cases kds with
  | cons k kds => simp
  | nil =>
    rw [List.flatMap_nil,List.append_nil,List.length_append,List.length_map]
    cases hf : fits st (eds.flatMap fun e => emptied (dir++[e.name]) (sub e)).length with
    | false => rw [fits_left hf]; simp
    | true => rw [emitted_fits h1 hf]; simp

end Passes

theorem classify_extra_deletable {run : DeleteRun} {rel : Bytes} {deletable : Bool}
    {e : DeleteDirEntry} (h : classify run rel deletable e = .extra) : deletable = true := by
  cases deletable with
  | true => rfl
  | false =>
    simp only [classify,Bool.false_and,Bool.false_eq_true,if_false] at h
    split_ifs at h

theorem mem_visitOrder {v : DeleteDirEntry → Verdict}
    {entries : List DeleteDirEntry} (hs : DirsFirst entries) {e : DeleteDirEntry} :
    e ∈ visitOrder v entries ↔ e ∈ entries ∧
      (v e = .extra ∨ v e = .kept ∧ e.isDir = true) := by
  have hmem : e ∈ entries ↔ e ∈ entries.takeWhile (fun e => e.isDir) ∨
      e ∈ entries.dropWhile (fun e => e.isDir) := by
    rw [← List.mem_append,List.takeWhile_append_dropWhile]
  have hd : e ∈ entries.takeWhile (fun e => e.isDir) → e.isDir = true := fun he =>
    List.mem_takeWhile_imp he
  have hf := dirsFirst_files entries hs e
  simp only [visitOrder,List.mem_append,List.mem_filter,List.mem_reverse,decide_eq_true_eq,
    hmem]
  constructor
  · rintro ((⟨h,hv⟩ | ⟨h,hv⟩) | ⟨h,hv⟩)
    · exact ⟨.inl h,.inl hv⟩
    · exact ⟨.inr h,.inl hv⟩
    · exact ⟨.inl h,.inr ⟨hv,hd h⟩⟩
  · rintro ⟨h | h,hv | ⟨hv,hdir⟩⟩
    · exact .inl (.inl ⟨h,hv⟩)
    · exact .inr ⟨h,hv⟩
    · exact .inl (.inr ⟨h,hv⟩)
    · rw [hf h] at hdir
      cases hdir

theorem contribution_within {v : DeleteDirEntry → Verdict} {dir : Position}
    {sub : DeleteDirEntry → List Extra × Bool} {e : DeleteDirEntry}
    (hb : ∀ x ∈ (sub e).1, Below (dir++[e.name]) x.1) :
    ∀ x ∈ contribution v dir sub e, Below (dir++[e.name]) x.1 ∨ x.1 = dir++[e.name] := by
  intro x hx
  unfold contribution at hx
  split at hx
  · rcases List.mem_append.mp hx with hx | hx
    · exact .inl (hb x hx)
    · split at hx
      · rw [List.mem_singleton.mp hx]
        exact .inr rfl
      · exact absurd hx List.not_mem_nil
  · rw [List.mem_singleton.mp hx]
    exact .inr rfl
  · exact .inl (hb x hx)
  · exact absurd hx List.not_mem_nil

section
variable (t : DirTree Name) (run : DeleteRun) (fuel : ℕ) (dir : Position) (rel : Bytes) (pd : Bool)

theorem extrasBelow_below : ∀ x ∈ (extrasBelow t run fuel dir rel pd).1, Below dir x.1 := by
  induction fuel generalizing dir rel pd with
  | zero => simp [extrasBelow]
  | succ fuel ih =>
    intro x hx
    obtain ⟨e,-,hx⟩ := List.mem_flatMap.mp hx
    rcases contribution_within (ih _ _ _) x hx with hb | he
    · exact below_child hb
    · rw [he]
      exact below_self dir e.name

theorem extrasBelow_covers (h : (extrasBelow t run fuel dir rel pd).2 = true) :
    ∀ c ∈ t.entries dir, ∃ x ∈ (extrasBelow t run fuel dir rel pd).1, x.1 = dir++[c.name] := by
  cases fuel with
  | zero => simp [extrasBelow] at h
  | succ fuel =>
    intro c hc
    have hs := (mem_sortEntries _).mpr hc
    have hall := List.all_eq_true.mp h c hs
    rw [Bool.and_eq_true,decide_eq_true_eq] at hall
    obtain ⟨hv,hsub⟩ := hall
    refine ⟨(dir++[c.name], c.isDir),List.mem_flatMap.mpr ⟨c,?_,?_⟩,rfl⟩
    · exact (mem_visitOrder (sortEntries_dirsFirst _)).mpr ⟨hs,.inl hv⟩
    · unfold contribution
      rw [hv]
      cases hd : c.isDir with
      | false => simp
      | true =>
        rw [hd] at hsub
        simp only [Bool.not_true,Bool.false_or] at hsub
        simp [emptied,hsub]

end

theorem untouched_fresh {gone : List Position} {dir : Position} (h : Untouched gone dir)
    (n : Name) : Fresh gone (dir++[n]) :=
  ⟨fun hp => h _ hp (below_self dir n),fun p hp hb => h p hp (below_child hb)⟩

theorem names_nodup_sublist {es fs : List DeleteDirEntry} (h : (es.map Entry.name).Nodup)
    (hs : fs.Sublist es) : (fs.map Entry.name).Nodup := h.sublist (hs.map _)

theorem extraDirPass_deletable (t : DirTree Name) (run : DeleteRun) (dir : Position) (rel : Bytes)
    (deletable : Bool) (walk : Position → Bytes → DeleteWalkState → DeleteWalkState × Bool)
    {es : List DeleteDirEntry} {acc : DeleteWalkState × Bool}
    (h : ∀ e ∈ es, classify run rel deletable e = .extra) :
    extraDirPass t dir rel deletable walk es acc = extraDirPass t dir rel true walk es acc := by
  cases es with
  | nil => rfl
  | cons e es => rw [classify_extra_deletable (h e (by simp))]

section
variable (v : DeleteDirEntry → Verdict)

theorem passes_nodup (dirs files : List DeleteDirEntry) (hn : ((dirs++files).map Entry.name).Nodup) :
    (((dirs.filter fun e => decide (v e = .extra))++
      (files.filter fun e => decide (v e = .extra))++
      (dirs.reverse.filter fun e => decide (v e = .kept))).map Entry.name).Nodup := by
  have hsub : ∀ x y : DeleteDirEntry, x ∈ dirs++files → y ∈ dirs++files → x.name = y.name →
      x = y := fun x y hx hy => List.inj_on_of_nodup_map hn hx hy
  have hn' := hn
  rw [List.map_append,List.nodup_append] at hn'
  obtain ⟨hd,hf,hdf⟩ := hn'
  rw [List.map_append,List.map_append,List.nodup_append,List.nodup_append]
  refine ⟨⟨names_nodup_sublist hd List.filter_sublist,
    names_nodup_sublist hf List.filter_sublist,?_⟩,?_,?_⟩
  · intro a ha b hb
    obtain ⟨x,hx,rfl⟩ := List.mem_map.mp ha
    obtain ⟨y,hy,rfl⟩ := List.mem_map.mp hb
    exact hdf _ (List.mem_map_of_mem (List.mem_of_mem_filter hx)) _
      (List.mem_map_of_mem (List.mem_of_mem_filter hy))
  · refine names_nodup_sublist ?_ List.filter_sublist
    rw [List.map_reverse,List.nodup_reverse]
    exact hd
  · -- a kept directory is no extra entry
    intro a ha b hb hab
    rw [← List.map_append] at ha
    obtain ⟨x,hx,rfl⟩ := List.mem_map.mp ha
    obtain ⟨y,hy,rfl⟩ := List.mem_map.mp hb
    obtain ⟨hy1,hy2⟩ := List.mem_filter.mp hy
    rw [← List.filter_append] at hx
    obtain ⟨hx1,hx2⟩ := List.mem_filter.mp hx
    have hxy := hsub x y hx1 (List.mem_append_left _ (List.mem_reverse.mp hy1)) hab
    rw [decide_eq_true_eq] at hx2 hy2
    rw [hxy,hy2] at hx2
    cases hx2

section
variable (dir : Position) (sub : DeleteDirEntry → List Extra × Bool) (entries : List DeleteDirEntry)
  (hs : DirsFirst entries)
include hs

theorem entriesExtras_passes :
    (entriesExtras v dir sub entries).1 =
      ((entries.takeWhile fun e => e.isDir).filter
        fun e => decide (v e = .extra)).flatMap
          (fun e => emptied (dir++[e.name]) (sub e))++
      ((entries.dropWhile fun e => e.isDir).filter
        fun e => decide (v e = .extra)).map
          (fun e => (dir++[e.name], false))++
      ((entries.takeWhile fun e => e.isDir).reverse.filter
        fun e => decide (v e = .kept)).flatMap (fun e => (sub e).1) := by
  rw [entriesExtras,visitOrder,List.flatMap_append,List.flatMap_append,List.map_eq_flatMap]
  dsimp only
  congr 1
  · congr 1
    · refine List.flatMap_congr fun e he => ?_
      obtain ⟨hd,hv⟩ := List.mem_filter.mp he
      rw [contribution,of_decide_eq_true hv,(List.mem_takeWhile_imp hd : e.isDir = true)]
    · refine List.flatMap_congr fun e he => ?_
      obtain ⟨hd,hv⟩ := List.mem_filter.mp he
      rw [contribution,of_decide_eq_true hv,dirsFirst_files entries hs e hd]
  · refine List.flatMap_congr fun e he => ?_
    obtain ⟨hd,hv⟩ := List.mem_filter.mp he
    rw [contribution,of_decide_eq_true hv,
      (List.mem_takeWhile_imp (List.mem_reverse.mp hd) : e.isDir = true)]

theorem entriesExtras_flag :
    (entriesExtras v dir sub entries).2 =
      ((!entries.any fun e => decide (v e ≠ .extra)) &&
      (((entries.takeWhile fun e => e.isDir).filter
        fun e => decide (v e = .extra)).all fun e => (sub e).2) &&
      ((entries.takeWhile fun e => e.isDir).reverse.filter
        fun e => decide (v e = .kept)).isEmpty) := by
  have hsplit : ∀ e ∈ entries, e.isDir = true → e ∈ entries.takeWhile fun e => e.isDir := by
    intro e he hdir
    rw [← List.takeWhile_append_dropWhile (p := fun e : DeleteDirEntry => e.isDir)
      (l := entries)] at he
    rcases List.mem_append.mp he with he | he
    · exact he
    · rw [dirsFirst_files entries hs e he] at hdir
      cases hdir
  rw [Bool.eq_iff_iff]
  simp only [entriesExtras,List.all_eq_true,Bool.and_eq_true,decide_eq_true_eq,
    Bool.or_eq_true,Bool.not_eq_true',List.any_eq_false,not_not,ne_eq,List.mem_filter,
    List.isEmpty_iff,List.filter_eq_nil_iff,List.mem_reverse]
  constructor
  · intro h
    refine ⟨⟨fun e he => (h e he).1,fun e he => ?_⟩,fun e he hk => ?_⟩
    · have hdir : e.isDir = true := List.mem_takeWhile_imp he.1
      have := (h e ((List.takeWhile_sublist _).subset he.1)).2
      rw [hdir] at this
      simpa using this
    · rw [(h e ((List.takeWhile_sublist _).subset he)).1] at hk
      cases hk
  · rintro ⟨⟨h1,h2⟩,-⟩ e he
    refine ⟨h1 e he,?_⟩
    cases hdir : e.isDir with
    | false => exact .inl rfl
    | true => exact .inr (h2 e ⟨hsplit e he hdir,h1 e he⟩)

end

end

section
variable (t : DirTree Name) (run : DeleteRun)

theorem walkEntries_emitted {dir : Position} {rel : Bytes} {deletable : Bool}
    {walk : Position → Bytes → DeleteWalkState → DeleteWalkState × Bool}
    {sub : DeleteDirEntry → List Extra × Bool} {entries : List DeleteDirEntry}
    {st : DeleteWalkState} (hrel : rel = relPath dir) (hn : (entries.map Entry.name).Nodup)
    (hs : DirsFirst entries) (hd : ∀ e ∈ entries, e.isDir = true → Descends t dir rel walk sub e)
    (hwhole : Untouched st.gone dir) : let r := walkEntries t run dir rel deletable walk entries st
    let xs := entriesExtras (classify run rel deletable) dir sub entries
    Emitted st xs.1 r.1 ∧ r.2 = (xs.2 && fits st xs.1.length) := by
  have hdir : ∀ e ∈ entries.takeWhile fun e => e.isDir, Descends t dir rel walk sub e :=
    fun e he => hd e ((List.takeWhile_sublist _).subset he) (List.mem_takeWhile_imp he)
  have hsplit : (entries.takeWhile fun e => e.isDir)++(entries.dropWhile fun e => e.isDir) =
      entries := List.takeWhile_append_dropWhile
  obtain ⟨h,hflag⟩ := passes_emitted t dir rel walk sub hrel
    (passes_nodup (classify run rel deletable) (entries.takeWhile fun e => e.isDir)
      (entries.dropWhile fun e => e.isDir) (by rw [hsplit]; exact hn))
    (fun e he => hdir e (List.mem_of_mem_filter he))
    (fun e he => hdir e (List.mem_reverse.mp (List.mem_of_mem_filter he))) st
    (entries.any fun e => decide (classify run rel deletable e ≠ .extra))
    (fun n => untouched_fresh hwhole n)
  rw [← extraDirPass_deletable t run dir rel deletable walk
    (fun e he => by simpa using (List.mem_filter.mp he).2)] at h hflag
  rw [← entriesExtras_passes (classify run rel deletable) dir sub entries hs] at h hflag
  rw [← entriesExtras_flag (classify run rel deletable) dir sub entries hs] at hflag
  exact ⟨h,hflag⟩

/-- Each visit of a directory that is still whole emits its extras up to the
budget left, and reports it empty exactly when they are all it held and all of
them fitted. -/
theorem deleteWalkFd_emitted (fuel : ℕ) (dir : Position) (rel : Bytes) (pd : Bool)
    (st : DeleteWalkState) (hfuel : t.height dir < fuel) (hrel : rel = relPath dir)
    (hwhole : Untouched st.gone dir) : let r := deleteWalkFd t run fuel dir rel pd st
    let xs := extrasBelow t run fuel dir rel pd
    Emitted st xs.1 r.1 ∧ r.2 = (xs.2 && fits st xs.1.length) := by
  induction fuel generalizing dir rel pd st with
  | zero => omega
  | succ fuel ih =>
    rw [deleteWalkFd,extrasBelow,readdir_untouched t hwhole]
    apply walkEntries_emitted t run hrel
      (sortEntries_nodup _ (t.names_nodup dir)) (sortEntries_dirsFirst _) _ hwhole
    intro e he hdir
    have hh := t.height_lt dir e ((mem_sortEntries _).mp he) hdir
    have hr : pathCat rel e.name.1 = relPath (dir++[e.name]) := by rw [hrel,relPath_child]
    exact ⟨fun st hf => (ih _ _ _ st (by omega) hr hf.2).1,
      fun st hf => (ih _ _ _ st (by omega) hr hf.2).2,
      extrasBelow_below t run fuel _ _ _,extrasBelow_covers t run fuel _ _ _⟩

def allExtras (t : DirTree Name) (run : DeleteRun) : List Extra :=
  (extrasBelow t run (t.height []+1) [] [] false).1

theorem deleteExtrasList_out :
    (deleteExtrasList t run).out = (allExtras t run).map spell ∧
      (deleteExtrasList t run).recorded = (allExtras t run).length ∧
      (deleteExtrasList t run).gone = [] := by
  have h := (deleteWalkFd_emitted t run (t.height []+1) [] [] false
    ⟨.list,⟨0,0,0,false⟩,[],[],[],0⟩ (by omega) rfl (by simp [Untouched])).1
  have hl := h.listed rfl
  exact ⟨hl.1,hl.2.1.trans (Nat.zero_add _),hl.2.2⟩

theorem deleteExtrasLimitedObserved_gone (maxDelete : ℕ) :
    let r := deleteExtrasLimitedObserved t run maxDelete
    r.1.gone = ((allExtras t run).take maxDelete).map Prod.fst ∧
      r.1.observed = ((allExtras t run).take maxDelete).map spell ∧
      r.1.budget.deleted = min maxDelete (allExtras t run).length ∧
      r.1.budget.limitHit = decide (maxDelete < (allExtras t run).length) := by
  have h := (deleteWalkFd_emitted t run (t.height []+1) [] [] false
    ⟨.delete,⟨maxDelete,0,0,false⟩,[],[],[],0⟩ (by omega) rfl (by simp [Untouched])).1
  exact ⟨h.gone rfl,h.observed rfl,(h.deleted rfl).trans (Nat.zero_add _),
    (h.limit rfl).trans (Bool.false_or _)⟩

end

end FastSync.DeleteExtras
