import FastSync.DeleteSessionRun

/-!
# Which entries a plan treats

Every single change of a session concerns an entry that the plan reached: from
its directory down, through entries it found extraneous. The entry is still
there when it is noted, removed or left for want of room.
-/

set_option autoImplicit false

namespace FastSync.DeletePlanActs
open FiniteTree DeletePaths DeleteWalk
open DeleteCommit DeleteSession

/-- The entries a plan reaches from a directory, each with the path under which
the session knows it. -/
inductive Reaches (t : DirTree Name) (skips : PlanSkips) :
    Option KeepLists → Bool → Position → Bytes → Position → Bytes → Prop where
  | child {keep : Option KeepLists} {atRoot : Bool} {d : Position} {rel : Bytes}
      {e : DeleteDirEntry} : e ∈ t.entries d → planVerdict skips rel keep atRoot e = .extra →
      Reaches t skips keep atRoot d rel (d++[e.name]) (planChildRel rel e.name.1)
  | deeper {keep : Option KeepLists} {atRoot : Bool} {d p : Position} {rel text : Bytes}
      {e : DeleteDirEntry} : e ∈ t.entries d → planVerdict skips rel keep atRoot e = .extra →
      e.isDir = true →
      Reaches t skips none false (d++[e.name]) (planChildRel rel e.name.1) p text →
      Reaches t skips keep atRoot d rel p text

theorem reaches_below {t : DirTree Name} {skips : PlanSkips} {keep : Option KeepLists}
    {atRoot : Bool} {d p : Position} {rel text : Bytes}
    (h : Reaches t skips keep atRoot d rel p text) : Below d p := by
  induction h with
  | child _ _ => exact below_self _ _
  | deeper _ _ _ _ ih => exact below_child ih

inductive Act (R : Position → Bytes → Prop) : DeletePlanSession → DeletePlanSession → Prop where
  | skip (s : DeletePlanSession) (p : Position) (text : Bytes) : R p text → p ∉ s.gone →
      (budgetAvailable s = false ∨ s.deferCap ≤ s.deferred.length) → Act R s (noteSkipped s)
  | note (s : DeletePlanSession) (p : Position) (text : Bytes) : R p text → p ∉ s.gone →
      s.deferred.length < s.deferCap → Act R s { s with deferred := s.deferred++[text] }
  | remove (s : DeletePlanSession) (p : Position) (text spelled : Bytes) : R p text →
      budgetAvailable s = true → p ∉ s.gone → Act R s (notePlanned s (s.gone++[p]) spelled)

abbrev Acts (R : Position → Bytes → Prop) : DeletePlanSession → DeletePlanSession → Prop :=
  Relation.ReflTransGen (Act R)

section Rules
variable {R S : Position → Bytes → Prop} {s s' : DeletePlanSession}

theorem act_mono (h : ∀ p text, R p text → S p text) (ha : Act R s s') : Act S s s' := by
  cases ha with
  | skip p text hr hp hfull => exact .skip s p text (h p text hr) hp hfull
  | note p text hr hp hroom => exact .note s p text (h p text hr) hp hroom
  | remove p text spelled hr hb hp => exact .remove s p text spelled (h p text hr) hb hp

theorem acts_mono (h : ∀ p text, R p text → S p text) (ha : Acts R s s') : Acts S s s' :=
  Relation.ReflTransGen.mono (fun _ _ hstep => act_mono h hstep) _ _ ha

theorem acts_grows (h : Acts R s s') :
    ∃ ps texts, s'.gone = s.gone++ps ∧ s'.deferred = s.deferred++texts ∧
      (∀ p ∈ ps, ∃ text, R p text) ∧ ∀ text ∈ texts, ∃ p, R p text := by
  induction h with
  | refl => exact ⟨[],[],by simp,by simp,by simp,by simp⟩
  | tail _ ha ih =>
    obtain ⟨ps,texts,hgone,hdeferred,hps,htexts⟩ := ih
    cases ha with
    | skip p text hr hp hfull => exact ⟨ps,texts,hgone,hdeferred,hps,htexts⟩
    | note p text hr hp hroom =>
      refine ⟨ps,texts++[text],hgone,?_,hps,?_⟩
      · rw [hdeferred, List.append_assoc]
      · intro x hx
        rcases List.mem_append.mp hx with hx | hx
        · exact htexts x hx
        · exact ⟨p,List.mem_singleton.mp hx ▸ hr⟩
    | remove p text spelled hr hb hp =>
      refine ⟨ps++[p],texts,?_,hdeferred,?_,htexts⟩
      · rw [notePlanned, hgone, List.append_assoc]
      · intro x hx
        rcases List.mem_append.mp hx with hx | hx
        · exact hps x hx
        · exact ⟨text,List.mem_singleton.mp hx ▸ hr⟩

theorem acts_spares (h : Acts R s s') {p : Position} (hp : p ∉ s.gone)
    (hr : ∀ text, ¬R p text) : p ∉ s'.gone := by
  obtain ⟨ps,-,hgone,-,hps,-⟩ := acts_grows h
  rw [hgone, List.mem_append, not_or]
  exact ⟨hp,fun hmem => (hps p hmem).elim hr⟩

end Rules

section Entries
variable {R : Position → Bytes → Prop} {p : Position} {rel : Bytes}

theorem acts_deferAdd (hr : R p rel) {s : DeletePlanSession} (hp : p ∉ s.gone) :
    Acts R s (deferAdd s rel) := by
  unfold deferAdd
  split_ifs with h
  · exact .single (.skip s p rel hr hp (.inr h))
  · exact .single (.note s p rel hr hp (not_le.mp h))

theorem acts_extraFile (hr : R p rel) {f : Bool} {s : DeletePlanSession} (hp : p ∉ s.gone) :
    Acts R s (processExtraFile p rel f s) := by
  unfold processExtraFile
  split_ifs with hdefer hbudget
  · exact acts_deferAdd hr hp
  · exact .single (.skip s p rel hr hp (.inl (by simpa using hbudget)))
  · rw [unlink_ok hp]
    exact .single (.remove s p rel rel hr (by simpa using hbudget) hp)

theorem acts_disposeDir {t : DirTree Name} (hr : R p rel) {f : Bool} {s : DeletePlanSession}
    (hp : p ∉ s.gone) : Acts R s (disposeExtraDir t p rel f s).1 := by
  unfold disposeExtraDir
  split_ifs with hdefer hbudget
  · exact acts_deferAdd hr hp
  · exact .single (.skip s p rel hr hp (.inl (by simpa using hbudget)))
  · cases hrm : rmdir t s.gone p with
    | ok gone =>
      rw [(rmdir_eq_ok t hrm).2]
      exact .single (.remove s p rel _ hr (by simpa using hbudget) hp)
    | error e => cases e <;> exact .refl

end Entries

section Passes
variable {t : DirTree Name} {skips : PlanSkips} {keep : Option KeepLists} {atRoot : Bool}
variable {dir : Position} {dirRel : Bytes}
variable {children : Position → Bytes → Bool → DeletePlanSession → DeletePlanSession × Bool}

/-- The entries of one child: itself and what is reached below it. -/
def Within (t : DirTree Name) (skips : PlanSkips) (dir : Position) (dirRel : Bytes)
    (e : DeleteDirEntry) (p : Position) (text : Bytes) : Prop :=
  (p = dir++[e.name] ∧ text = planChildRel dirRel e.name.1) ∨
    Reaches t skips none false (dir++[e.name]) (planChildRel dirRel e.name.1) p text

theorem acts_processExtraDir
    (hc : ∀ p rel f s, Acts (Reaches t skips none false p rel) s (children p rel f s).1)
    (e : DeleteDirEntry) (f : Bool) (s : DeletePlanSession) (hp : dir++[e.name] ∉ s.gone) :
    Acts (Within t skips dir dirRel e) s
      (processExtraDir t children (dir++[e.name]) (planChildRel dirRel e.name.1) f s).1 := by
  have hinner := hc (dir++[e.name]) (planChildRel dirRel e.name.1) f s
  have hstays := acts_spares hinner hp fun text hr => below_irrefl (reaches_below hr)
  have hlift : Acts (Within t skips dir dirRel e) s
      (children (dir++[e.name]) (planChildRel dirRel e.name.1) f s).1 :=
    acts_mono (fun _ _ hr => Or.inr hr) hinner
  unfold processExtraDir
  dsimp only
  split_ifs
  · exact hlift
  · exact hlift.trans (acts_disposeDir (.inl ⟨rfl,rfl⟩) hstays)

variable {e : DeleteDirEntry}

theorem within_sibling {n : Name} (hne : n ≠ e.name) {text : Bytes} :
    ¬Within t skips dir dirRel e (dir++[n]) text := by
  rintro (⟨heq,-⟩ | hr)
  · exact hne (List.cons.inj (List.append_cancel_left heq)).1
  · exact hne (below_sibling (reaches_below hr) (.inr rfl)).symm

theorem within_reaches (he : e ∈ t.entries dir)
    (hv : planVerdict skips dirRel keep atRoot e = .extra) (hdir : e.isDir = true)
    {p : Position} {text : Bytes} (h : Within t skips dir dirRel e p text) :
    Reaches t skips keep atRoot dir dirRel p text := by
  rcases h with ⟨rfl,rfl⟩ | hr
  · exact .child he hv
  · exact .deeper he hv hdir hr

/-- Entries that are found extraneous, under distinct names, all still there. -/
structure Found (t : DirTree Name) (skips : PlanSkips) (keep : Option KeepLists) (atRoot : Bool)
    (dir : Position) (dirRel : Bytes) (es : List DeleteDirEntry) (s : DeletePlanSession) :
    Prop where
  entries : ∀ e ∈ es, e ∈ t.entries dir
  extra : ∀ e ∈ es, planVerdict skips dirRel keep atRoot e = .extra
  names : (es.map Entry.name).Nodup
  there : ∀ e ∈ es, dir++[e.name] ∉ s.gone

theorem found_tail {es : List DeleteDirEntry} {s s' : DeletePlanSession}
    (h : Found t skips keep atRoot dir dirRel (e::es) s)
    (ha : Acts (Within t skips dir dirRel e) s s') :
    Found t skips keep atRoot dir dirRel es s' := by
  obtain ⟨hentries,hextra,hnames,hthere⟩ := h
  rw [List.map_cons, List.nodup_cons] at hnames
  refine ⟨fun x hx => hentries x (by simp [hx]),fun x hx => hextra x (by simp [hx]),hnames.2,?_⟩
  intro x hx
  refine acts_spares ha (hthere x (by simp [hx])) fun text => within_sibling ?_
  intro heq
  exact hnames.1 (heq ▸ List.mem_map_of_mem hx)

def Through (t : DirTree Name) (skips : PlanSkips) (dir : Position) (dirRel : Bytes)
    (es : List DeleteDirEntry) (p : Position) (text : Bytes) : Prop :=
  ∃ e ∈ es, Within t skips dir dirRel e p text

theorem acts_planDirPass
    (hc : ∀ p rel f s, Acts (Reaches t skips none false p rel) s (children p rel f s).1)
    (forceNow : Bool) (es : List DeleteDirEntry) (s : DeletePlanSession) (survives : Bool)
    (h : Found t skips keep atRoot dir dirRel es s) :
    Acts (Through t skips dir dirRel es) s
      (planDirPass t dir dirRel keep forceNow children es (s, survives)).1 := by
  induction es generalizing s survives with
  | nil => exact .refl
  | cons e es ih =>
    have hstep : Acts (Within t skips dir dirRel e) s _ :=
      acts_processExtraDir hc e (forced keep e || forceNow) s (h.there e (by simp))
    have hfirst : Acts (Through t skips dir dirRel (e::es)) s _ :=
      acts_mono (fun _ _ hw => ⟨e,by simp,hw⟩) hstep
    have hrest := ih _ (survives || !(processExtraDir t children (dir++[e.name])
      (planChildRel dirRel e.name.1) (forced keep e || forceNow) s).2) (found_tail h hstep)
    refine hfirst.trans (acts_mono (fun p text hthrough => ?_) hrest)
    obtain ⟨x,hx,hw⟩ := hthrough
    exact ⟨x,by simp [hx],hw⟩

theorem acts_planFilePass {forceNow : Bool} {es : List DeleteDirEntry} (s : DeletePlanSession)
    (h : Found t skips keep atRoot dir dirRel es s) :
    Acts (Reaches t skips keep atRoot dir dirRel) s
      (planFilePass dir dirRel keep forceNow es s) := by
  induction es generalizing s with
  | nil => exact .refl
  | cons e es ih =>
    have hstep : Acts (Within t skips dir dirRel e) s
        (processExtraFile (dir++[e.name]) (planChildRel dirRel e.name.1)
          (forced keep e || forceNow) s) :=
      acts_extraFile (.inl ⟨rfl,rfl⟩) (h.there e (by simp))
    have hreach : Acts (Reaches t skips keep atRoot dir dirRel) s
        (processExtraFile (dir++[e.name]) (planChildRel dirRel e.name.1)
          (forced keep e || forceNow) s) :=
      acts_extraFile (.child (h.entries e (by simp)) (h.extra e (by simp)))
        (h.there e (by simp))
    exact hreach.trans (ih _ (found_tail h hstep))

end Passes

section Plans
variable (cfg : Config) (t : DirTree Name)

theorem acts_processChildren (skips : PlanSkips) (fuel : ℕ) (dir : Position) (dirRel : Bytes)
    (keep : Option KeepLists) (atRoot forceNow : Bool) (s : DeletePlanSession) :
    Acts (Reaches t skips keep atRoot dir dirRel) s
      (processChildren t skips fuel dir dirRel keep atRoot forceNow s).1 := by
  induction fuel generalizing dir dirRel keep atRoot forceNow s with
  | zero => exact .refl
  | succ fuel ih =>
    set entries := sortEntries (readdir t s.gone dir) with hentries
    set verdict := planVerdict skips dirRel keep atRoot with hverdict
    have hnames : (entries.map Entry.name).Nodup :=
      sortEntries_nodup _ ((prune t s.gone).names_nodup dir)
    have hlisted : ∀ e ∈ entries, e ∈ t.entries dir ∧ dir++[e.name] ∉ s.gone := by
      intro e he
      have hmem := List.mem_filter.mp ((mem_sortEntries _).mp he)
      exact ⟨hmem.1,by simpa using hmem.2⟩
    have hsplit := List.takeWhile_append_dropWhile (p := fun e : DeleteDirEntry => e.isDir)
      (l := entries)
    have hfound : ∀ es, List.Sublist es entries →
        Found t skips keep atRoot dir dirRel (es.filter fun e => decide (verdict e = .extra)) s := by
      intro es hes
      have hsub := (List.filter_sublist (p := fun e => decide (verdict e = .extra))).trans hes
      exact ⟨fun e he => (hlisted e (hsub.subset he)).1,
        fun e he => of_decide_eq_true (List.mem_filter.mp he).2,hnames.sublist (hsub.map _),
        fun e he => (hlisted e (hsub.subset he)).2⟩
    have hdirs := hfound _ (List.takeWhile_sublist fun e => e.isDir)
    have hfiles := hfound _ (List.dropWhile_sublist fun e => e.isDir)
    have hpass := @acts_planDirPass t skips keep atRoot dir dirRel
      (fun p rel now s => processChildren t skips fuel p rel none false now s)
      (fun p rel f s => ih p rel none false f s) forceNow _ s
      (entries.any fun e => decide (verdict e ≠ .extra)) hdirs
    have hfirst := acts_mono (S := Reaches t skips keep atRoot dir dirRel) (fun p text hthrough => by
      obtain ⟨e,he,hw⟩ := hthrough
      exact within_reaches (hdirs.entries e he) (hdirs.extra e he)
        (List.mem_takeWhile_imp (List.mem_of_mem_filter he)) hw) hpass
    refine hfirst.trans (acts_planFilePass _ ⟨hfiles.entries,hfiles.extra,hfiles.names,?_⟩)
    intro e he
    refine acts_spares hpass (hfiles.there e he) fun text hthrough => ?_
    obtain ⟨x,hx,hw⟩ := hthrough
    refine within_sibling (fun heq => ?_) hw
    rw [← hsplit, List.map_append, List.nodup_append] at hnames
    exact hnames.2.2 _ (List.mem_map_of_mem (List.mem_of_mem_filter hx)) _
      (List.mem_map_of_mem (List.mem_of_mem_filter he)) heq.symm

def PlanReaches (s : DeletePlanSession) (dir : Bytes) (dirs files : List Bytes) (d : Position) :
    Position → Bytes → Prop :=
  Reaches t (buildPlanSkips cfg s) (some ⟨dirs,files⟩) (decide (dir = [dot])) d dir

theorem acts_applyPlanDir {dir : Bytes} {s : DeletePlanSession} {d : Position}
    (hopen : openPlanDir t s.gone dir = some d) (dirs files : List Bytes) :
    Acts (PlanReaches cfg t s dir dirs files d) s (applyPlanDir cfg t dir dirs files s) := by
  unfold applyPlanDir
  rw [hopen]
  exact acts_processChildren t (buildPlanSkips cfg s) (t.height d+1) d dir (some ⟨dirs,files⟩)
    (decide (dir = [dot])) false s

def PathReaches (s : DeletePlanSession) (rel : Bytes) (p : Position) (isDir : Bool) (x : Position)
    (text : Bytes) : Prop :=
  (x = p ∧ text = rel) ∨
    (isDir = true ∧ Reaches t (buildPlanSkips cfg s) none false p rel x text)

theorem acts_applyDeferredPath {rel : Bytes} {s : DeletePlanSession} {p : Position} {b : Bool}
    (hleaf : statLeaf t s.gone rel = .entry p b) (hp : p ∉ s.gone) :
    Acts (PathReaches cfg t s rel p b) s (applyDeferredPath cfg t rel s).1 := by
  have hself : PathReaches cfg t s rel p b p rel := .inl ⟨rfl,rfl⟩
  unfold applyDeferredPath
  rw [hleaf]
  dsimp only
  have hinner := acts_processChildren t (buildPlanSkips cfg s) (t.height p+1) p rel none false true s
  have hstays := acts_spares hinner hp fun text hr => below_irrefl (reaches_below hr)
  have hlift : b = true → Acts (PathReaches cfg t s rel p b) s _ :=
    fun hb => acts_mono (fun _ _ hr => Or.inr ⟨hb,hr⟩) hinner
  split_ifs with hbudget hdir hsurvives hroom
  · exact .single (.skip s p rel hself hp (.inl (by simpa using hbudget)))
  · exact hlift hdir
  · exact (hlift hdir).tail (.skip _ p rel hself hstays (.inl (by simpa using hroom)))
  · cases hrm : rmdir t (processChildren t (buildPlanSkips cfg s) (t.height p+1) p rel none false
        true s).1.gone p with
    | ok gone =>
      rw [(rmdir_eq_ok t hrm).2]
      exact (hlift hdir).tail (.remove _ p rel _ hself (by simpa using hroom) hstays)
    | error e => exact hlift hdir
  · rw [unlink_ok hp]
    exact .single (.remove s p rel rel hself (by simpa using hbudget) hp)

end Plans

end FastSync.DeletePlanActs
