import FastSync.SessionLimits

/-!
# The accounts of a delete session

Along every run of calls the counters agree with the entries that are gone, and
stay within the budget. A limit is only said to be reached when an entry that is
to go finds the budget spent or the list of noted paths full.
-/

set_option autoImplicit false

namespace FastSync.SessionAccounts
open FiniteTree DeletePaths DeleteExtras
open DeleteSpec DeletePlan DeleteCommit DeleteSession
open DeleteBound DeletePlanActs MissingArtifacts SessionCalls
open SessionLimits

/-- Each entry of the tree is gone at most once. -/
structure Tidy (t : DirTree Name) (gone : List Position) : Prop where
  nodup : gone.Nodup
  listed : ∀ p ∈ gone, Listed t p

variable {gone : List Position}

theorem tidy_append {t : DirTree Name} {ps : List Position} (h : Tidy t gone)
    (hnodup : ps.Nodup) (hlisted : ∀ p ∈ ps, Listed t p) (hfresh : ∀ p ∈ ps, p ∉ gone) :
    Tidy t (gone++ps) := by
  refine ⟨List.nodup_append.mpr ⟨h.nodup,hnodup,?_⟩,fun p hp => ?_⟩
  · rintro p hp q hq rfl
    exact hfresh p hq hp
  · rcases List.mem_append.mp hp with hp | hp
    · exact h.listed p hp
    · exact hlisted p hp

variable {p : Position}

theorem tidy_concat {t : DirTree Name} (h : Tidy t gone)
    (hlisted : Listed t p) (hfresh : p ∉ gone) : Tidy t (gone++[p]) := by
  apply tidy_append h (List.nodup_singleton p)
  · intro q hq
    rwa [List.mem_singleton.mp hq]
  · intro q hq
    rwa [List.mem_singleton.mp hq]

/-- An entry that stays because the budget is spent, or a full list of noted
paths. -/
def Denied (s : DeletePlanSession) (p : Position) : Prop :=
  (p ∉ s.gone ∧ s.planned = s.maxDelete) ∨ s.deferCap ≤ s.deferred.length

/-- What a part of a session that treats the entries of `W` does to the
accounts. -/
structure Accounts (t : DirTree Name) (W : Position → Prop) (s s' : DeletePlanSession) : Prop where
  maxDelete : s'.maxDelete = s.maxDelete
  deferCap : s'.deferCap = s.deferCap
  dryRun : s'.dryRun = s.dryRun
  applied : s.missingApplied = true → s'.missingApplied = true
  noted : s.deferred.length ≤ s'.deferred.length
  gone : ∃ ps, s'.gone = s.gone++ps
  deleted : s'.deleted+s.planned = s.deleted+s'.planned
  charged : s'.gone.length+s.planned = s.gone.length+s'.planned
  within : s.planned ≤ s.maxDelete → s'.planned ≤ s.maxDelete
  tidy : Tidy t s.gone → Tidy t s'.gone
  hit : s.planned ≤ s.maxDelete → Tidy t s.gone → s'.limitHit = true → s.limitHit = true ∨
    ∃ p, W p ∧ p ∉ s.gone ∧ Denied s' p

variable {R : Position → Bytes → Prop}

section Rules
variable {t : DirTree Name} {W V : Position → Prop} {s s' s'' : DeletePlanSession}

theorem accounts_mono (hW : ∀ p, p ∉ s.gone → W p → V p) (h : Accounts t W s s') :
    Accounts t V s s' := by
  refine ⟨h.maxDelete,h.deferCap,h.dryRun,h.applied,h.noted,h.gone,h.deleted,h.charged,h.within,
    h.tidy,fun hle htidy hhit => ?_⟩
  rcases h.hit hle htidy hhit with hbefore | ⟨p,hp,hfresh,hdenied⟩
  · exact .inl hbefore
  · exact .inr ⟨p,hW p hfresh hp,hfresh,hdenied⟩

/-- Who is denied stays denied: a spent budget allows no removal, and the list of
noted paths never gets shorter. -/
theorem denied_stays (h : Accounts t W s s') (hle : s.planned ≤ s.maxDelete)
    (hp : Denied s p) : Denied s' p := by
  rcases hp with ⟨hgone,hspent⟩ | hfull
  · obtain ⟨ps,hps⟩ := h.gone
    have hwithin := h.within hle
    have hcharged := h.charged
    rw [hps,List.length_append] at hcharged
    have hnone : ps = [] := List.length_eq_zero_iff.mp (by omega)
    rw [hnone,List.append_nil] at hps
    refine .inl ⟨by rwa [hps],?_⟩
    rw [h.maxDelete]
    omega
  · refine .inr ?_
    rw [h.deferCap]
    exact le_trans hfull h.noted

theorem accounts_trans (h1 : Accounts t W s s') (h2 : Accounts t V s' s'') :
    Accounts t (fun p => W p ∨ V p) s s'' := by
  have hmid : s.planned ≤ s.maxDelete → s'.planned ≤ s'.maxDelete := by
    intro hle
    rw [h1.maxDelete]
    exact h1.within hle
  obtain ⟨ps,hps⟩ := h1.gone
  obtain ⟨qs,hqs⟩ := h2.gone
  refine ⟨h2.maxDelete.trans h1.maxDelete,h2.deferCap.trans h1.deferCap,h2.dryRun.trans h1.dryRun,
    fun h => h2.applied (h1.applied h),le_trans h1.noted h2.noted,
    ⟨ps++qs,by rw [hqs,hps,List.append_assoc]⟩,?_,?_,?_,fun h => h2.tidy (h1.tidy h),?_⟩
  · have e1 := h1.deleted
    have e2 := h2.deleted
    omega
  · have e1 := h1.charged
    have e2 := h2.charged
    omega
  · intro hle
    have hend := h2.within (hmid hle)
    rwa [h1.maxDelete] at hend
  · intro hle htidy hhit
    rcases h2.hit (hmid hle) (h1.tidy htidy) hhit with hbefore | ⟨p,hp,hfresh,hdenied⟩
    · rcases h1.hit hle htidy hbefore with hfirst | ⟨p,hp,hfresh,hdenied⟩
      · exact .inl hfirst
      · exact .inr ⟨p,.inl hp,hfresh,denied_stays h2 (hmid hle) hdenied⟩
    · rw [hps,List.mem_append,not_or] at hfresh
      exact .inr ⟨p,.inr hp,hfresh.1,hdenied⟩

theorem accounts_same (hmax : s'.maxDelete = s.maxDelete) (hcap : s'.deferCap = s.deferCap)
    (hdry : s'.dryRun = s.dryRun) (happlied : s.missingApplied = true → s'.missingApplied = true)
    (hdeferred : s'.deferred = s.deferred) (hgone : s'.gone = s.gone)
    (hdeleted : s'.deleted = s.deleted) (hplanned : s'.planned = s.planned)
    (hhit : s'.limitHit = s.limitHit) : Accounts t W s s' where
  maxDelete := hmax
  deferCap := hcap
  dryRun := hdry
  applied := happlied
  noted := by rw [hdeferred]
  gone := ⟨[],by rw [hgone,List.append_nil]⟩
  deleted := by rw [hdeleted,hplanned]
  charged := by rw [hgone,hplanned]
  within := fun h => by rwa [hplanned]
  tidy := fun h => by rwa [hgone]
  hit := fun _ _ h => Or.inl (hhit ▸ h)

theorem accounts_refl : Accounts t W s s :=
  accounts_same rfl rfl rfl (fun h => h) rfl rfl rfl rfl rfl

theorem accounts_act (hR : ∀ p text, R p text → Listed t p)
    (h : Act R s s') : Accounts t (fun p => ∃ text, R p text) s s' := by
  cases h with
  | skip p text hr hp hfull =>
    refine ⟨rfl,rfl,rfl,fun h => h,le_rfl,⟨[],(List.append_nil _).symm⟩,rfl,rfl,fun h => h,
      fun h => h,fun hle _ _ => Or.inr ⟨p,⟨text,hr⟩,hp,?_⟩⟩
    rcases hfull with hspent | hfull
    · have hmax := of_decide_eq_false hspent
      exact .inl ⟨hp,le_antisymm hle (not_lt.mp hmax)⟩
    · exact .inr hfull
  | note p text hr hp hroom =>
    exact ⟨rfl,rfl,rfl,fun h => h,by simp,⟨[],(List.append_nil _).symm⟩,rfl,rfl,fun h => h,
      fun h => h,fun _ _ h => Or.inl h⟩
  | remove p text spelled hr hb hp =>
    have hlt := of_decide_eq_true hb
    refine ⟨rfl,rfl,rfl,fun h => h,le_rfl,⟨[p],rfl⟩,?_,?_,fun _ => hlt,
      fun h => tidy_concat h (hR p text hr) hp,fun _ _ h => Or.inl h⟩
    · simp only [notePlanned]
      omega
    · simp only [notePlanned,List.length_append,List.length_singleton]
      omega

theorem accounts_acts (hR : ∀ p text, R p text → Listed t p)
    (h : Acts R s s') : Accounts t (fun p => ∃ text, R p text) s s' := by
  induction h with
  | refl => exact accounts_refl
  | tail _ ha ih =>
    exact accounts_mono (fun _ _ hp => hp.elim id id) (accounts_trans ih (accounts_act hR ha))

end Rules

section Missing
variable (cfg : Config) {t : DirTree Name}

/-- The entry that the text of a missing argument leads to; with a last component
`.` it is the directory that holds it. -/
def MissingNames (t : DirTree Name) (rel : Bytes) (p : Position) : Prop :=
  (∃ b, statLeaf t [] rel = .entry p b) ∨
    (statLeaf t [] rel = .self ∧ resolve (components rel) = some p)

theorem stat_there {d ns : Position} {b : Bool}
    (h : stat t gone d ns = some b) (hns : ns ≠ []) : d++ns ∉ gone := by
  induction ns generalizing d with
  | nil => exact absurd rfl hns
  | cons n ns ih =>
    by_cases hlast : ns = []
    · subst hlast
      obtain ⟨_,-,-,-,hout⟩ := stat_single t h
      exact hout
    · rw [stat] at h
      split at h
      · cases h
      · split_ifs at h with hdir
        have hout := ih h hlast
        rwa [List.append_assoc] at hout

theorem statLeaf_self {rel : Bytes} (h : statLeaf t gone rel = .self) :
    ∃ d, MissingNames t rel d ∧ (Tidy t gone → d ∉ gone) := by
  have hlast : components rel = (components rel).dropLast++[(components rel).getLastD []] := by
    rw [List.getLastD_eq_getLast?,List.getLast?_eq_some_getLast components_ne_nil]
    exact (List.dropLast_append_getLast components_ne_nil).symm
  unfold statLeaf at h
  dsimp only at h
  split at h
  · cases h
  rename_i d hd
  split_ifs at h with hgone hself
  · rw [not_or,not_not] at hgone
    have hresolve : resolve (components rel) = some d := by
      rw [hlast,hself,resolve,List.filter_append]
      simpa [resolve] using hd
    have hdir : IsDir t d := by
      have := isDir_of_stat t [] d .root hgone.1
      rwa [List.nil_append] at this
    have hroot : stat t [] [] d = some true :=
      stat_isDir t [] d hdir fun _ _ _ => List.not_mem_nil
    refine ⟨d,.inr ⟨?_,hresolve⟩,fun htidy hmem => ?_⟩
    · unfold statLeaf
      dsimp only
      rw [hd]
      dsimp only
      rw [if_neg (by rw [hroot, hself]; simp),if_pos hself]
    · by_cases hnil : d = []
      · obtain ⟨_,e,-,-,heq⟩ := htidy.listed d hmem
        rw [hnil] at heq
        exact absurd heq (by simp)
      · exact stat_there hgone.1 hnil (by rwa [List.nil_append])
  · split at h
    · cases h
    · split at h <;> cases h

section Steps
variable {W : Position → Prop} {s : DeletePlanSession} {st st' : CommitState}

theorem accounts_deny (hmax : st.budget.maxDelete = missingBudget s)
    (hfull : st.budget.maxDelete ≤ st.budget.deleted) (hW : W p)
    (hp : Tidy t st.gone → p ∉ st.gone) (hgone : st'.gone = st.gone)
    (hdeleted : st'.budget.deleted = st.budget.deleted) :
    Accounts t W (afterMissing s st) (afterMissing s st') where
  maxDelete := rfl
  deferCap := rfl
  dryRun := rfl
  applied := fun _ => rfl
  noted := le_rfl
  gone := ⟨[],hgone.trans (List.append_nil _).symm⟩
  deleted := by simp [afterMissing,hdeleted]
  charged := by simp [afterMissing,hgone,hdeleted]
  within := fun h => by simpa only [afterMissing,hdeleted] using h
  tidy := fun h => by simpa only [afterMissing,hgone] using h
  hit := by
    intro hle htidy _
    refine .inr ⟨p,hW,hp htidy,.inl ⟨?_,?_⟩⟩
    · simpa only [afterMissing,hgone] using hp htidy
    · have hroom : s.planned+st.budget.deleted ≤ s.maxDelete := hle
      show s.planned+st'.budget.deleted = s.maxDelete
      rw [hmax,missingBudget] at hfull
      split_ifs at hfull with hb
      · omega
      · have hspent : ¬s.planned < s.maxDelete := fun hlt => hb (decide_eq_true hlt)
        omega

theorem accounts_take (hmax : st.budget.maxDelete = missingBudget s) {ps : List Position}
    (hroom : st.budget.deleted+ps.length ≤ st.budget.maxDelete)
    (hps : ps.Nodup ∧ (∀ p ∈ ps, Listed t p) ∧ ∀ p ∈ ps, p ∉ st.gone)
    (hgone : st'.gone = st.gone++ps) (hdeleted : st'.budget.deleted = st.budget.deleted+ps.length)
    (hhit : st'.budget.limitHit = st.budget.limitHit) :
    Accounts t W (afterMissing s st) (afterMissing s st') where
  maxDelete := rfl
  deferCap := rfl
  dryRun := rfl
  applied := fun _ => rfl
  noted := le_rfl
  gone := ⟨ps,hgone⟩
  deleted := by
    simp only [afterMissing,hdeleted]
    omega
  charged := by
    simp only [afterMissing,hgone,hdeleted,List.length_append]
    omega
  within := by
    intro hle
    have hbefore : s.planned+st.budget.deleted ≤ s.maxDelete := hle
    show s.planned+st'.budget.deleted ≤ s.maxDelete
    rw [hmax,missingBudget] at hroom
    split_ifs at hroom with hb <;> omega
  tidy := by
    intro h
    show Tidy t st'.gone
    rw [hgone]
    exact tidy_append h hps.1 hps.2.1 hps.2.2
  hit := fun _ _ h => Or.inl (by simpa only [afterMissing,hhit] using h)

theorem missingWalk_counts {t : DirTree Name} {q : Position} {st : CommitState} :
    ((missingWalk t q st).gone.map (q++·)).length = (missingWalk t q st).budget.deleted ∧
      (missingWalk t q st).budget.deleted ≤ st.budget.maxDelete-st.budget.deleted ∧
      ((missingWalk t q st).budget.limitHit = true →
        (missingWalk t q st).budget.deleted = st.budget.maxDelete-st.budget.deleted) := by
  obtain ⟨hgone,-,hdeleted,hlimit⟩ := deleteExtrasLimitedObserved_gone
    (subtree (prune t st.gone) q) bareRun (st.budget.maxDelete-st.budget.deleted)
  unfold missingWalk
  rw [hgone,hdeleted,hlimit,decide_eq_true_eq,List.length_map,List.length_map,
    List.length_take]
  exact ⟨rfl,min_le_left _ _,fun h => min_eq_left h.le⟩

theorem missingWalk_tidy {q : Position} (hq : IsDir t q) {st : CommitState} :
    let ps := (missingWalk t q st).gone.map (q++·)
    ps.Nodup ∧ (∀ p ∈ ps, Listed t p) ∧ (∀ p ∈ ps, p ∉ st.gone) ∧ q ∉ ps := by
  unfold missingWalk
  rw [(deleteExtrasLimitedObserved_gone _ _ _).1]
  set u := subtree (prune t st.gone) q with hu
  set n := st.budget.maxDelete-st.budget.deleted
  have hsub := (List.take_sublist n (allExtras u bareRun)).map Prod.fst
  have hlisted : ∀ x ∈ ((allExtras u bareRun).take n).map Prod.fst, Listed u x :=
    fun x hx => removable_listed bareRun u x (hsub.subset hx)
  have hnodup := List.Nodup.sublist hsub (removable_nodup bareRun u)
  refine ⟨hnodup.map fun _ _ => List.append_cancel_left,fun p hp => ?_,fun p hp => ?_,fun hp => ?_⟩
  · obtain ⟨x,hx,rfl⟩ := List.mem_map.mp hp
    exact (listed_subtree t hq (hlisted x hx)).2
  · obtain ⟨x,hx,rfl⟩ := List.mem_map.mp hp
    obtain ⟨d,e,-,he,rfl⟩ := hlisted x hx
    have hfresh : q++d++[e.name] ∉ st.gone := by simpa using (List.mem_filter.mp he).2
    rwa [List.append_assoc] at hfresh
  · obtain ⟨x,hx,heq⟩ := List.mem_map.mp hp
    have hbelow := (listed_subtree t hq (hlisted x hx)).1
    rw [heq] at hbelow
    exact below_irrefl hbelow

theorem accounts_takeOne (hmax : st.budget.maxDelete = missingBudget s)
    (hroom : st.budget.deleted < st.budget.maxDelete) {q : Position} {b : Bool}
    (hentry : EntryAt t q b) (hfresh : q ∉ st.gone) {rel : Bytes} :
    Accounts t W (afterMissing s st) (afterMissing s (noteRemoved st (st.gone++[q]) rel)) := by
  refine @accounts_take t W s st _ hmax [q] hroom
    ⟨List.nodup_singleton q,fun p hp => ?_,fun p hp => ?_⟩ rfl rfl rfl
  · obtain ⟨d,e,hd,he,heq,-⟩ := hentry
    rw [List.mem_singleton.mp hp]
    exact ⟨d,e,hd,he,heq⟩
  · rwa [List.mem_singleton.mp hp]

theorem accounts_removeMissingDir (hmax : st.budget.maxDelete = missingBudget s) {rel : Bytes}
    {q : Position} (hleaf : statLeaf t st.gone rel = .entry q true)
    (hroom : st.budget.deleted < st.budget.maxDelete) :
    Accounts t (MissingNames t rel) (afterMissing s st)
      (afterMissing s (removeMissingDir cfg t rel q st)) := by
  obtain ⟨hentry,hfresh,hnames⟩ := statLeaf_inv t hleaf
  by_cases hrec : (cfg.useDelete || cfg.forceDelete) = true
  · obtain ⟨hnodup,hlisted,hout,hself⟩ := missingWalk_tidy (isDir_iff.mpr (.inr hentry))
    obtain ⟨hcount,hleft,hlimit⟩ := missingWalk_counts
    have hwalk : Accounts t (MissingNames t rel) (afterMissing s st)
        (afterMissing s (afterWalk t rel q st)) :=
      accounts_take hmax (by rw [hcount]; omega) ⟨hnodup,hlisted,hout⟩ rfl (by rw [hcount]; rfl) rfl
    have hstays : q ∉ (afterWalk t rel q st).gone := by
      intro hmem
      rcases List.mem_append.mp hmem with hmem | hmem
      · exact hfresh hmem
      · exact hself hmem
    refine accounts_mono (fun _ _ hp => hp.elim id id) (accounts_trans hwalk ?_)
    rw [removeMissingDir_eq t hrec]
    split_ifs with hlim hfull
    · refine accounts_deny hmax ?_ (.inl ⟨true,hnames⟩) (fun _ => hstays) rfl rfl
      show st.budget.maxDelete ≤ st.budget.deleted+(missingWalk t q st).budget.deleted
      rw [hlimit hlim]
      omega
    · exact accounts_deny hmax hfull (.inl ⟨true,hnames⟩) (fun _ => hstays) rfl rfl
    · have hlast : (afterWalk t rel q st).budget.deleted < (afterWalk t rel q st).budget.maxDelete :=
        not_le.mp hfull
      have hkept : (afterWalk t rel q st).budget.maxDelete = missingBudget s := hmax
      exact accounts_takeOne hkept hlast hentry hstays
  · rw [removeMissingDir,if_neg hrec]
    exact accounts_refl

theorem removeMissingDir_max {rel : Bytes} {q : Position} {st : CommitState} :
    (removeMissingDir cfg t rel q st).budget.maxDelete = st.budget.maxDelete := by
  by_cases hrec : (cfg.useDelete || cfg.forceDelete) = true
  · rw [removeMissingDir_eq t hrec]
    split_ifs <;> rfl
  · rw [removeMissingDir,if_neg hrec]

section
variable (hmax : st.budget.maxDelete = missingBudget s) (skips : List DeleteSkipEntry)
include hmax

theorem accounts_missingArg {rel : Bytes} :
    Accounts t (MissingNames t rel) (afterMissing s st)
      (afterMissing s (deleteMissingArg cfg t skips rel st).1) ∧
      (deleteMissingArg cfg t skips rel st).1.budget.maxDelete = st.budget.maxDelete := by
  have hfail : Accounts t (MissingNames t rel) (afterMissing s st)
      (afterMissing s { st with ok := false }) :=
    accounts_same rfl rfl rfl (fun h => h) rfl rfl rfl rfl rfl
  by_cases hvalid : rel = [] ∨ rel.head? = some slash ∨ hasPathTraversal rel = true
  · rw [deleteMissingArg,if_pos hvalid]
    exact ⟨hfail,rfl⟩
  by_cases hskip : pathUnderSkipPrefix rel (decide (slash ∉ rel)) skips = true
  · rw [deleteMissingArg,if_neg hvalid,if_pos hskip]
    exact ⟨accounts_refl,rfl⟩
  rw [deleteMissingArg,if_neg hvalid,if_neg hskip]
  cases hleaf : statLeaf t st.gone rel with
  | absent => exact ⟨accounts_refl,rfl⟩
  | self =>
    obtain ⟨d,hnames,hd⟩ := statLeaf_self hleaf
    split_ifs with hfull
    · exact ⟨accounts_deny hmax hfull hnames hd rfl rfl,rfl⟩
    · exact ⟨hfail,rfl⟩
  | entry q b =>
    obtain ⟨hentry,hfresh,hnames⟩ := statLeaf_inv t hleaf
    dsimp only
    split_ifs with hfull hdir
    · exact ⟨accounts_deny hmax hfull (.inl ⟨b,hnames⟩) (fun _ => hfresh) rfl rfl,rfl⟩
    · subst hdir
      cases hrm : rmdir t st.gone q with
      | ok gone =>
        rw [(rmdir_eq_ok t hrm).2]
        exact ⟨accounts_takeOne hmax (not_le.mp hfull) hentry hfresh,rfl⟩
      | error e =>
        cases e with
        | enoent => exact ⟨accounts_refl,rfl⟩
        | enotempty =>
          exact ⟨accounts_removeMissingDir cfg hmax hleaf (not_le.mp hfull),
            removeMissingDir_max cfg⟩
    · rw [unlink_ok hfresh]
      exact ⟨accounts_takeOne hmax (not_le.mp hfull) hentry hfresh,rfl⟩

theorem accounts_missingLoop {rels : List Bytes} :
    Accounts t (fun p => ∃ rel ∈ rels, MissingNames t rel p) (afterMissing s st)
      (afterMissing s (deleteMissingLoop cfg t skips rels st)) := by
  induction rels generalizing st with
  | nil => exact accounts_refl
  | cons rel rels ih =>
    obtain ⟨harg,hkept⟩ := accounts_missingArg cfg hmax skips
    have hfirst : Accounts t (fun p => ∃ x ∈ rel::rels, MissingNames t x p) (afterMissing s st) _ :=
      accounts_mono (fun p _ hp => ⟨rel,by simp,hp⟩) harg
    rw [deleteMissingLoop]
    split_ifs
    · exact hfirst
    · refine accounts_mono (fun p _ hp => ?_) (accounts_trans hfirst (ih (hkept.trans hmax)))
      rcases hp with hp | ⟨x,hx,hp⟩
      · exact hp
      · exact ⟨x,by simp [hx],hp⟩

end

theorem accounts_applyMissing (s : DeletePlanSession) :
    Accounts t (fun p => ∃ rel ∈ s.missing, MissingNames t rel p) s (applyMissing cfg t s).1 := by
  rw [applyMissing_eq]
  split_ifs
  · have hstart : Accounts t (fun p => ∃ rel ∈ s.missing, MissingNames t rel p) s
        (afterMissing s ⟨⟨missingBudget s,0,0,false⟩,s.gone,s.observed,true⟩) :=
      accounts_same rfl rfl rfl (fun _ => rfl) rfl rfl rfl rfl (Bool.or_false _)
    refine accounts_mono (fun _ _ hp => hp.elim id id) (accounts_trans hstart ?_)
    unfold missingPass deleteMissingArgsBudgetedObserved
    split_ifs
    · exact accounts_refl
    · exact accounts_missingLoop cfg rfl _
  · exact accounts_same rfl rfl rfl (fun _ => rfl) rfl rfl rfl rfl rfl

end Steps

end Missing

section Calls
variable (cfg : Config) (t : DirTree Name)

def PlanWants (frame : PlanFrame) (s : DeletePlanSession) (p : Position) : Prop :=
  ∃ d text, openPlanDir t s.gone frame.dir = some d ∧
    PlanReaches cfg t s frame.dir frame.dirs frame.files d p text

/-- An entry that is there when a call comes, and that the plan of the call or a
missing argument is after. -/
def Wanted : SessionCall → DeletePlanSession → Position → Prop
  | .receive frame, s, p => p ∉ s.gone ∧ (PlanWants cfg t frame (beforePlan cfg t frame s).1 p ∨
      ∃ rel ∈ (loadConfig frame s).missing, MissingNames t rel p)
  | .broken _ _, _, _ => False

def CallsWanted : List SessionCall → DeletePlanSession → Position → Prop
  | [], _, _ => False
  | c::cs, s, p => Wanted cfg t c s p ∨ CallsWanted cs (sessionCall cfg t c s) p

/-- An entry that is there when the commit comes, and that a noted path or a
missing argument leads to. -/
def CommitWanted (s : DeletePlanSession) (p : Position) : Prop :=
  p ∉ s.gone ∧ ((∃ rel ∈ s.deferred, ∃ q b text, statLeaf t [] rel = .entry q b ∧
    PathReaches cfg t s rel q b p text) ∨ ∃ rel ∈ s.missing, MissingNames t rel p)

variable {cfg} {t}

theorem reaches_listed {skips : PlanSkips} {keep : Option KeepLists} {atRoot : Bool}
    {d : Position} {rel text : Bytes} (h : Reaches t skips keep atRoot d rel p text)
    (hd : IsDir t d) : Listed t p := by
  induction h with
  | child he _ => exact ⟨_,_,hd,he,rfl⟩
  | deeper he _ hdir _ ih => exact ih (.child _ _ hd he hdir)

theorem openPlanDir_isDir {dir : Bytes} {d : Position}
    (h : openPlanDir t gone dir = some d) : IsDir t d := by
  unfold openPlanDir at h
  split at h
  · cases h
  · split_ifs at h with hstat
    obtain rfl := Option.some.inj h
    have hdir := isDir_of_stat t [] _ .root hstat
    rwa [List.nil_append] at hdir

section
variable (frame : PlanFrame) (s : DeletePlanSession)

theorem accounts_plan :
    Accounts t (PlanWants cfg t frame s) s
      (applyPlanDir cfg t frame.dir frame.dirs frame.files s) := by
  cases hopen : openPlanDir t s.gone frame.dir with
  | none =>
    rw [applyPlanDir,hopen]
    exact accounts_refl
  | some d =>
    have hacts := acts_applyPlanDir cfg t hopen frame.dirs frame.files
    refine accounts_mono (fun p _ hp => ?_)
      (accounts_acts (fun p text hr => reaches_listed hr (openPlanDir_isDir hopen)) hacts)
    obtain ⟨text,hr⟩ := hp
    exact ⟨d,text,hopen,hr⟩

theorem accounts_beforePlan :
    Accounts t (fun p => ∃ rel ∈ (loadConfig frame s).missing, MissingNames t rel p) s
      (beforePlan cfg t frame s).1 := by
  have hload : Accounts t (fun p => ∃ rel ∈ (loadConfig frame s).missing, MissingNames t rel p) s
      (loadConfig frame s) := by
    unfold loadConfig
    cases frame.config with
    | none => exact accounts_refl
    | some config => exact accounts_same rfl rfl rfl (fun h => h) rfl rfl rfl rfl rfl
  unfold beforePlan
  dsimp only
  split_ifs
  · exact accounts_refl
  · exact hload
  · exact hload
  · exact accounts_mono (fun _ _ hp => hp.elim id id)
      (accounts_trans hload (accounts_applyMissing cfg (loadConfig frame s)))

end

theorem accounts_call {c : SessionCall} {s : DeletePlanSession} :
    Accounts t (Wanted cfg t c s) s (sessionCall cfg t c s) := by
  cases c with
  | receive frame =>
    have hbefore := @accounts_beforePlan cfg t frame s
    rw [sessionCall,deletePlanSessionReceive_eq]
    split_ifs
    · refine accounts_mono (fun p hfresh hp => ⟨hfresh,hp.symm⟩)
        (accounts_trans hbefore (accounts_plan frame _))
    · exact accounts_mono (fun p hfresh hp => ⟨hfresh,.inr hp⟩) hbefore
  | broken config seen =>
    rw [sessionCall,brokenReceive]
    split_ifs
    · exact accounts_refl
    · exact accounts_same rfl rfl rfl (fun h => h) rfl rfl rfl rfl rfl

theorem accounts_calls (cs : List SessionCall) (s : DeletePlanSession) :
    Accounts t (CallsWanted cfg t cs s) s (sessionCalls cfg t cs s) := by
  induction cs generalizing s with
  | nil => exact accounts_refl
  | cons c cs ih => exact accounts_trans accounts_call (ih _)

end Calls

section Commit
variable {cfg : Config} {t : DirTree Name}

theorem acts_lists {s s' : DeletePlanSession} (h : Acts R s s') :
    buildPlanSkips cfg s' = buildPlanSkips cfg s ∧ s'.missing = s.missing := by
  induction h with
  | refl => exact ⟨rfl,rfl⟩
  | tail _ ha ih =>
    cases ha with
    | skip p text hr hp hfull | note p text hr hp hroom | remove p text spelled hr hb hp => exact ih

theorem accounts_deferredPath (rel : Bytes) (s : DeletePlanSession) :
    Accounts t (fun p => ∃ q b text, statLeaf t [] rel = .entry q b ∧
        PathReaches cfg t s rel q b p text) s (applyDeferredPath cfg t rel s).1 ∧
      buildPlanSkips cfg (applyDeferredPath cfg t rel s).1 = buildPlanSkips cfg s ∧
      (applyDeferredPath cfg t rel s).1.missing = s.missing := by
  cases hleaf : statLeaf t s.gone rel with
  | absent | self =>
    rw [applyDeferredPath,hleaf]
    exact ⟨accounts_refl,rfl,rfl⟩
  | entry q b =>
    obtain ⟨hentry,hfresh,hnames⟩ := statLeaf_inv t hleaf
    have hacts := acts_applyDeferredPath cfg t hleaf hfresh
    refine ⟨accounts_mono (fun p _ hp => ?_) (accounts_acts (fun p text hr => ?_) hacts),
      acts_lists hacts⟩
    · obtain ⟨text,hr⟩ := hp
      exact ⟨q,b,text,hnames,hr⟩
    · rcases hr with ⟨rfl,-⟩ | ⟨rfl,hr⟩
      · obtain ⟨d,e,hd,he,heq,-⟩ := hentry
        exact ⟨d,e,hd,he,heq⟩
      · exact reaches_listed hr (isDir_iff.mpr (.inr hentry))

theorem accounts_deferred (rels : List Bytes) (s : DeletePlanSession) :
    Accounts t (fun p => ∃ rel ∈ rels, ∃ q b text, statLeaf t [] rel = .entry q b ∧
        PathReaches cfg t s rel q b p text) s (applyDeferred cfg t rels s).1 ∧
      (applyDeferred cfg t rels s).1.missing = s.missing := by
  induction rels generalizing s with
  | nil => exact ⟨accounts_refl,rfl⟩
  | cons rel rels ih =>
    obtain ⟨hpath,hskips,hmissing⟩ := @accounts_deferredPath cfg t rel s
    have hfirst : Accounts t (fun p => ∃ x ∈ rel::rels, ∃ q b text, statLeaf t [] x = .entry q b ∧
        PathReaches cfg t s x q b p text) s _ :=
      accounts_mono (fun p _ hp => ⟨rel,by simp,hp⟩) hpath
    rw [applyDeferred]
    split_ifs
    · obtain ⟨hrest,hlist⟩ := ih (applyDeferredPath cfg t rel s).1
      refine ⟨accounts_mono (fun p _ hp => ?_) (accounts_trans hfirst hrest),hlist.trans hmissing⟩
      rcases hp with hp | ⟨x,hx,q,b,text,hleaf,hr⟩
      · exact hp
      · refine ⟨x,by simp [hx],q,b,text,hleaf,?_⟩
        rwa [PathReaches,hskips] at hr
    · exact ⟨hfirst,hmissing⟩

theorem accounts_commit {s : DeletePlanSession} :
    Accounts t (CommitWanted cfg t s) s (deletePlanSessionCommit cfg t s).1 := by
  obtain ⟨hpaths,hlist⟩ := @accounts_deferred cfg t s.deferred s
  have hmissing := accounts_applyMissing cfg (t := t)
  have hdeferred : Accounts t (CommitWanted cfg t s) s (applyDeferred cfg t s.deferred s).1 :=
    accounts_mono (fun p hfresh hp => ⟨hfresh,.inl hp⟩) hpaths
  rw [deletePlanSessionCommit_eq]
  split_ifs
  · exact accounts_refl
  · refine accounts_mono (fun p hfresh hp => ?_) (accounts_trans hdeferred (hmissing _))
    rw [hlist] at hp
    exact hp.elim id fun hp => ⟨hfresh,.inr hp⟩
  · exact hdeferred
  · exact accounts_mono (fun p hfresh hp => ⟨hfresh,.inr hp⟩) (hmissing s)

end Commit

section Once
variable (cfg : Config) (t : DirTree Name)

def callRunsMissing : SessionCall → DeletePlanSession → Bool
  | .receive frame, s => planFrameValid s frame && !((loadConfig frame s).dryRun ||
      !(cfg.useDelete || cfg.deleteMissingArgs)) && !(loadConfig frame s).defer &&
      missingDue cfg (loadConfig frame s)
  | .broken _ _, _ => false

def commitRunsMissing (s : DeletePlanSession) : Bool :=
  !s.dryRun &&
    if s.defer then (applyDeferred cfg t s.deferred s).2 &&
      missingDue cfg (applyDeferred cfg t s.deferred s).1
    else missingDue cfg s

def missingRuns (commit : Bool) : List SessionCall → DeletePlanSession → ℕ
  | [], s => if commit && commitRunsMissing cfg t s then 1 else 0
  | c::cs, s => (if callRunsMissing cfg c s then 1 else 0)+
      missingRuns commit cs (sessionCall cfg t c s)

variable {cfg} {t}

theorem missingDue_applied {s : DeletePlanSession} (h : s.missingApplied = true) :
    missingDue cfg s = false := by
  rw [missingDue,h]
  rfl

theorem loadConfig_applied {frame : PlanFrame} {s : DeletePlanSession} :
    (loadConfig frame s).missingApplied = s.missingApplied := by
  unfold loadConfig
  cases frame.config <;> rfl

theorem callRunsMissing_step {c : SessionCall} {s : DeletePlanSession}
    (h : callRunsMissing cfg c s = true) :
    s.missingApplied = false ∧ (sessionCall cfg t c s).missingApplied = true := by
  cases c with
  | broken config seen => cases h
  | receive frame =>
    rw [callRunsMissing,Bool.and_eq_true,Bool.and_eq_true,Bool.and_eq_true] at h
    obtain ⟨⟨⟨hvalid,hon⟩,hinline⟩,hdue⟩ := h
    rw [Bool.not_eq_true'] at hon
    constructor
    · rw [← loadConfig_applied]
      by_contra happlied
      rw [missingDue_applied (by simpa using happlied)] at hdue
      cases hdue
    · have hbefore : (beforePlan cfg t frame s).1.missingApplied = true := by
        unfold beforePlan
        rw [if_neg (by simp [hvalid]),if_neg (by rw [hon]; simp),if_neg (by simpa using hinline),
          applyMissing_eq,if_pos hdue]
        rfl
      rw [sessionCall,deletePlanSessionReceive_eq]
      split_ifs
      · exact (@accounts_plan cfg t frame _).applied hbefore
      · exact hbefore

/-- The missing arguments are removed at most once, and never again. -/
theorem missingRuns_le {commit : Bool} {cs : List SessionCall} (s : DeletePlanSession) :
    missingRuns cfg t commit cs s ≤ if s.missingApplied then 0 else 1 := by
  induction cs generalizing s with
  | nil =>
    rw [missingRuns]
    by_cases happlied : s.missingApplied = true
    · have hkept := (@accounts_deferred cfg t s.deferred s).1.applied happlied
      rw [commitRunsMissing,missingDue_applied happlied,missingDue_applied hkept,Bool.and_false,
        ite_self,Bool.and_false,Bool.and_false]
      exact Nat.zero_le _
    · rw [if_neg happlied]
      split_ifs <;> omega
  | cons c cs ih =>
    rw [missingRuns]
    have hrest := ih (sessionCall cfg t c s)
    by_cases hrun : callRunsMissing cfg c s = true
    · obtain ⟨hbefore,hafter⟩ := @callRunsMissing_step cfg t c s hrun
      rw [if_pos hafter] at hrest
      rw [if_pos hrun,hbefore,if_neg Bool.false_ne_true]
      omega
    · rw [if_neg hrun,Nat.zero_add]
      refine le_trans hrest ?_
      by_cases happlied : s.missingApplied = true
      · rw [if_pos (accounts_call.applied happlied)]
        exact Nat.zero_le _
      · rw [if_neg happlied]
        split_ifs <;> omega

end Once

section Dry
variable {cfg : Config} {t : DirTree Name}

theorem dryRun_call {s : DeletePlanSession} (h : s.dryRun = true) (c : SessionCall) :
    (sessionCall cfg t c s).gone = s.gone ∧ (sessionCall cfg t c s).deleted = s.deleted := by
  cases c with
  | broken config seen =>
    rw [sessionCall,brokenReceive]
    split_ifs <;> exact ⟨rfl,rfl⟩
  | receive frame =>
    have hload : (loadConfig frame s).gone = s.gone ∧ (loadConfig frame s).deleted = s.deleted ∧
        (loadConfig frame s).dryRun = s.dryRun := by
      unfold loadConfig
      cases frame.config <;> exact ⟨rfl,rfl,rfl⟩
    have hbefore : beforePlan cfg t frame s = (s, false) ∨
        beforePlan cfg t frame s = (loadConfig frame s, false) := by
      unfold beforePlan
      dsimp only
      split_ifs with hvalid hoff
      · exact .inl rfl
      · exact .inr rfl
      all_goals
        rw [hload.2.2,h,Bool.true_or] at hoff
        exact absurd rfl hoff
    rw [sessionCall,deletePlanSessionReceive_eq]
    rcases hbefore with hb | hb
    · rw [hb]
      exact ⟨rfl,rfl⟩
    · rw [hb]
      exact ⟨hload.1,hload.2.1⟩

theorem dryRun_calls (cs : List SessionCall) {s : DeletePlanSession} (h : s.dryRun = true) :
    (sessionCalls cfg t cs s).gone = s.gone ∧ (sessionCalls cfg t cs s).deleted = s.deleted := by
  induction cs generalizing s with
  | nil => exact ⟨rfl,rfl⟩
  | cons c cs ih =>
    obtain ⟨hgone,hdeleted⟩ := @dryRun_call cfg t s h c
    obtain ⟨hgone',hdeleted'⟩ := ih (accounts_call.dryRun.trans h)
    exact ⟨hgone'.trans hgone,hdeleted'.trans hdeleted⟩

theorem dryRun_from {calls : List SessionCall} {commit : Bool} {s : DeletePlanSession}
    (h : s.dryRun = true) :
    (sessionFrom cfg t calls commit s).gone = s.gone ∧
      (sessionFrom cfg t calls commit s).deleted = s.deleted := by
  have hcalls := @dryRun_calls cfg t calls s h
  unfold sessionFrom
  dsimp only
  rw [deletePlanSessionCommit_eq,if_pos ((accounts_calls calls s).dryRun.trans h),ite_self]
  exact hcalls

end Dry

def RunWanted (cfg : Config) (t : DirTree Name) (calls : List SessionCall) (commit : Bool)
    (p : Position) : Prop :=
  CallsWanted cfg t calls (deletePlanSessionCreate cfg) p ∨
    (commit = true ∧ CommitWanted cfg t (sessionCalls cfg t calls (deletePlanSessionCreate cfg)) p)

theorem accounts_run (cfg : Config) (t : DirTree Name) (calls : List SessionCall) (commit : Bool) :
    Accounts t (RunWanted cfg t calls commit) (deletePlanSessionCreate cfg)
      (sessionRun cfg t calls commit) := by
  have hcalls := @accounts_calls cfg t calls (deletePlanSessionCreate cfg)
  cases commit with
  | false => exact accounts_mono (fun _ _ hp => Or.inl hp) hcalls
  | true =>
    refine accounts_mono (fun p _ hp => ?_) (accounts_trans hcalls accounts_commit)
    exact hp.imp id fun hp => ⟨rfl,hp⟩

/-- The accounts of a session after any calls, committed or not. The counters
agree with each other, with the bound and with the entries that are gone. A
limit is only said to be reached when an entry that a plan, a noted path or a
missing argument is after found the budget spent or the list full, and then
stays so; a session that says of no limit that it was reached is the session
under any wider limits. Missing arguments are removed at most once, and a dry
run removes nothing. -/
theorem session_accounting (cfg : Config) (t : DirTree Name) (calls : List SessionCall)
    (commit : Bool) :
    let s := sessionRun cfg t calls commit
    (s.deleted = s.planned ∧ s.planned ≤ s.maxDelete ∧ s.maxDelete = effectiveMaxDelete cfg) ∧
    (s.deleted = s.gone.length ∧ s.gone.Nodup ∧ ∀ p ∈ s.gone, Listed t p) ∧
    (s.limitHit = true → ∃ p, RunWanted cfg t calls commit p ∧ Denied s p) ∧
    (s.limitHit = false → ∀ m k, s.maxDelete ≤ m → s.deferCap ≤ k →
      sessionFrom cfg t calls commit
        {deletePlanSessionCreate cfg with maxDelete := m, deferCap := k} =
          {s with maxDelete := m, deferCap := k}) ∧
    missingRuns cfg t commit calls (deletePlanSessionCreate cfg) ≤ 1 ∧
    (cfg.dryRun = true → s.gone = [] ∧ s.deleted = 0) := by
  have h := accounts_run cfg t calls commit
  have htidy : Tidy t (deletePlanSessionCreate cfg).gone :=
    ⟨List.nodup_nil,by simp [deletePlanSessionCreate]⟩
  have hdeleted := h.deleted
  have hcharged := h.charged
  have hwithin := h.within (Nat.zero_le _)
  have hend := h.tidy htidy
  have hcreate : (deletePlanSessionCreate cfg).planned = 0 ∧
      (deletePlanSessionCreate cfg).deleted = 0 ∧ (deletePlanSessionCreate cfg).gone.length = 0 :=
    ⟨rfl,rfl,rfl⟩
  refine ⟨⟨by omega,?_,h.maxDelete⟩,⟨by omega,hend.nodup,hend.listed⟩,fun hhit => ?_,
    fun hhit m k hm hk => ?_,?_,fun hdry => ?_⟩
  · rw [h.maxDelete]
    exact hwithin
  · rcases h.hit (Nat.zero_le _) htidy hhit with hbefore | ⟨p,hp,-,hdenied⟩
    · cases hbefore
    · exact ⟨p,hp,hdenied⟩
  · rw [h.maxDelete] at hm
    rw [h.deferCap] at hk
    exact (Prod.mk.inj ((@sessionFrom_unhindered m k cfg t calls commit).same
      (deletePlanSessionCreate cfg) ⟨hm,hk⟩ hhit)).1
  · exact missingRuns_le (deletePlanSessionCreate cfg)
  · exact dryRun_from hdry

/-- Exact requests only, without `--delete` and `--force`. -/
def requestConfig (maxDelete : ℤ) : Config :=
  { artifactConfig with
    delayUpdates := false
    basisDirs := []
    forceDelete := false
    maxDelete := maxDelete }

/-- A session that is asked for the non-empty directory `d`. -/
def requestRun (maxDelete : ℤ) : DeletePlanSession :=
  sessionRun (requestConfig maxDelete) artifactTree
    [.receive ⟨some ⟨[],[],[[100]]⟩,false,[dot],[],[]⟩] true

/-- Without budget the session says that a limit is reached, but without a bound
the directory stays as well. -/
theorem limit_said_in_vain :
    (requestRun 0).limitHit = true ∧ (requestRun 0).gone = [] ∧
      (requestRun (-1)).limitHit = false ∧ (requestRun (-1)).gone = [] := by
  decide +kernel

def singleTree : DirTree Name where
  entries d := if d = [] then [⟨leafName,false⟩] else []
  height _ := 0
  names_nodup d := by split_ifs <;> decide
  height_lt d e he hdir := by
    split_ifs at he
    · rw [List.mem_singleton.mp he] at hdir
      cases hdir
    · exact absurd he List.not_mem_nil

def delayConfig : Config :=
  { artifactConfig with
    delayUpdates := false
    basisDirs := []
    useDelete := true
    deleteMissingArgs := false
    deleteDelay := true }

end FastSync.SessionAccounts
