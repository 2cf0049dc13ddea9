import FastSync.SessionCalls
import FastSync.ProtectBlock

/-!
# Protected directories and what lies below them

The whole-tree walk never enters a directory that a rule protects. A plan asks
the rules about the entries of its directory and of the extraneous directories
below, by the path it was sent; it never asks about its own directory or those
above. The removals of a session are kept here with the plan they come from.
-/

set_option autoImplicit false

namespace FastSync.ProtectedSubtrees
open FiniteTree DeletePaths DeleteWalk DeleteExtras
open DeleteSpec DeletePlan DeleteCommit DeleteSession
open DeleteSessionRun DeletePlanActs MissingArtifacts
open SessionCalls FilterSyntax FilterRules GlobMatch

section Verdicts

def rulesVerdict (mem : Scratch) (rules : List FilterRule) (relPath leaf : Bytes) (isDir : Bool) :
    FilterAction :=
  match filterRulesApplySide mem rules relPath leaf isDir filterSideReceiver with
  | .done action => action
  | _ => .none

def withRules (cfg : Config) (mem : Scratch) (rules : List FilterRule) : Config :=
  {cfg with protectRules := some (rulesVerdict mem rules)}

theorem ruleProtects_iff {mem : Scratch} {rules : List FilterRule} {rel leaf : Bytes}
    {isDir : Bool} :
    ruleProtects (some (rulesVerdict mem rules)) rel leaf isDir = true ↔
      filterRulesApplySide mem rules rel leaf isDir filterSideReceiver = .done .protect := by
  rw [ruleProtects, decide_eq_true_eq, rulesVerdict]
  cases filterRulesApplySide mem rules rel leaf isDir filterSideReceiver <;> simp

/-- At or below a directory of the tree that the rules protect. -/
def UnderProtected (t : DirTree Name) (mem : Scratch) (rules : List FilterRule) (p : Position) :
    Prop :=
  ∃ d n, EntryAt t (d++[n]) true ∧
    filterRulesApplySide mem rules (relPath (d++[n])) n.1 true filterSideReceiver = .done .protect ∧
    (p = d++[n] ∨ Below (d++[n]) p)

end Verdicts

variable {d p : Position} {gone : List Position}

section WholeTree
variable {t u : DirTree Name} {mem : Scratch} {rules : List FilterRule}

theorem protected_shielded {run : DeleteRun}
    (hrules : run.protectRules = some (rulesVerdict mem rules)) {n : Name}
    (hdir : EntryAt u (d++[n]) true)
    (hverdict : filterRulesApplySide mem rules (relPath (d++[n])) n.1 true filterSideReceiver =
      .done .protect) (hpos : p = d++[n] ∨ Below (d++[n]) p) : Shielded u run p := by
  obtain ⟨e,he,rfl,hkind⟩ := entryAt_mem hdir
  have hshield : shielded run d e = true := by
    rw [shielded, hrules, hkind, ruleProtects_iff.mpr hverdict, Bool.or_true]
  rcases hpos with rfl | ⟨m,s,rfl⟩
  · exact ⟨d,e,[],rfl,he,hshield⟩
  · exact ⟨d,e,m::s,by simp,he,hshield⟩

theorem isDir_prune (h : IsDir (prune t gone) d) : IsDir t d := by
  induction h with
  | root => exact .root
  | child d e _ he hdir ih => exact .child d e ih (List.mem_of_mem_filter he) hdir

theorem entryAt_prune {b : Bool} (h : EntryAt (prune t gone) p b) : EntryAt t p b := by
  obtain ⟨d,e,hd,he,rfl,rfl⟩ := h
  exact entryAt_child (isDir_prune hd) (List.mem_of_mem_filter he)

/-- Whatever the manifest and the budget, the whole-tree walk removes nothing at
or below a protected directory. -/
theorem wholeTree_shields {cfg : Config} (manifest : DeleteManifest) (st : CommitState) :
    ∀ p ∈ (deleteExtrasBudgetedObserved (withRules cfg mem rules) t manifest st).gone,
      p ∉ st.gone → ¬UnderProtected t mem rules p := by
  rintro p hp hnew ⟨d,n,hentry,hverdict,hpos⟩
  rw [deleteExtrasBudgetedObserved_eq] at hp
  have hwalk := (List.mem_append.mp hp).resolve_left hnew
  rw [extrasWalk, (deleteExtrasLimitedObserved_gone _ _ _).1] at hwalk
  obtain ⟨x,hx,rfl⟩ := List.mem_map.mp hwalk
  have hmem := allExtras_positions _ ▸
    List.mem_map_of_mem (f := Prod.fst) (List.mem_of_mem_take hx)
  obtain ⟨d',e,hd,he,hpe⟩ := removable_listed _ _ _ hmem
  rw [hpe] at hmem hpos
  have hlisted := entryAt_child hd he
  have hdir : EntryAt (prune t st.gone) (d++[n]) true := by
    rcases hpos with heq | hb
    · rw [heq] at hlisted
      rwa [entryAt_kind (entryAt_prune hlisted) hentry] at hlisted
    · exact isDir_entry (entryAt_above hlisted hb) (by simp)
  exact ((mem_removable _ _ d' hd e he).mp hmem).1 (protected_shielded rfl hdir hverdict hpos)

end WholeTree

variable {rel text : Bytes}

section Exposed
variable {t : DirTree Name} {rules : Option (Bytes → Bytes → Bool → FilterAction)}

/-- The path of an entry as a plan spells it, from the text of its directory. -/
def spelled (dir : Bytes) (q : Position) : Bytes := q.foldl (fun rel n => planChildRel rel n.1) dir

/-- An entry reached through entries that the rules do not protect by the path
the plan spells. -/
inductive Exposed (t : DirTree Name) (rules : Option (Bytes → Bytes → Bool → FilterAction)) :
    Position → Bytes → Position → Bytes → Prop where
  | child {d : Position} {rel : Bytes} {e : DeleteDirEntry} : e ∈ t.entries d →
      ruleProtects rules (planChildRel rel e.name.1) e.name.1 e.isDir = false →
      Exposed t rules d rel (d++[e.name]) (planChildRel rel e.name.1)
  | deeper {d p : Position} {rel text : Bytes} {e : DeleteDirEntry} : e ∈ t.entries d →
      ruleProtects rules (planChildRel rel e.name.1) e.name.1 e.isDir = false → e.isDir = true →
      Exposed t rules (d++[e.name]) (planChildRel rel e.name.1) p text →
      Exposed t rules d rel p text

section
variable {skips : PlanSkips} {keep : Option KeepLists} {atRoot : Bool}

theorem extra_unprotected {e : DeleteDirEntry} (h : planVerdict skips rel keep atRoot e = .extra) :
    ruleProtects skips.protectRules (planChildRel rel e.name.1) e.name.1 e.isDir = false := by
  unfold planVerdict at h
  dsimp only at h
  split_ifs at h with hskip hkeep
  rw [Bool.not_eq_true, Bool.or_eq_false_iff] at hkeep
  exact hkeep.2

theorem reaches_exposed (h : Reaches t skips keep atRoot d rel p text) :
    Exposed t skips.protectRules d rel p text := by
  induction h with
  | child he hv => exact .child he (extra_unprotected hv)
  | deeper he hv hdir _ ih => exact .deeper he (extra_unprotected hv) hdir ih

end

theorem exposed_below (h : Exposed t rules d rel p text) : Below d p := by
  induction h with
  | child _ _ => exact below_self _ _
  | deeper _ _ _ _ ih => exact below_child ih

theorem exposed_trans {x : Position} {text' : Bytes} (hd : IsDir t d)
    (h : Exposed t rules d rel p text) (hp : EntryAt t p true)
    (hx : Exposed t rules p text x text') : Exposed t rules d rel x text' := by
  induction h with
  | child he hv =>
    have hkind := entryAt_kind (entryAt_child hd he) hp
    exact .deeper he hv hkind hx
  | deeper he hv hdir _ ih => exact .deeper he hv hdir (ih (.child _ _ hd he hdir) hp hx)

theorem below_through {a q : Position} {n : Name}
    (h : Below (a++(q++[n])) p ∨ p = a++(q++[n])) : Below a p := by
  have hself : Below a (a++(q++[n])) := by
    cases q with
    | nil => exact ⟨n,[],rfl⟩
    | cons m q => exact ⟨m,q++[n],rfl⟩
  rcases h with h | rfl
  · exact below_trans hself h
  · exact hself

theorem exposed_free (hd : IsDir t d) (h : Exposed t rules d rel p text) (q : Position) {n : Name}
    (hpos : Below (d++(q++[n])) p ∨ p = d++(q++[n])) (hentry : EntryAt t (d++(q++[n])) true) :
    ruleProtects rules (spelled rel (q++[n])) n.1 true = false := by
  induction h generalizing q with
  | child he hv =>
    rcases hpos with ⟨m,s,hbelow⟩ | heq
    · have hlen := congrArg List.length hbelow
      simp only [List.length_append, List.length_cons, List.length_nil] at hlen
      omega
    · have hlast : []++[_] = q++[n] := List.append_cancel_left heq
      obtain ⟨rfl,hn⟩ := List.append_inj' hlast rfl
      rw [← (List.cons.inj hn).1] at hentry ⊢
      rwa [entryAt_kind (entryAt_child hd he) hentry] at hv
  | @deeper d p rel text e he hv hdir hr ih =>
    cases q with
    | nil =>
      have hname := below_sibling (exposed_below hr) hpos
      rw [← hname]
      rwa [hdir] at hv
    | cons m q =>
      have hsplit : d++(m::q++[n]) = d++[m]++(q++[n]) := by simp
      rw [hsplit] at hpos hentry
      obtain rfl := below_sibling (exposed_below hr) (.inl (below_through hpos))
      exact ih (.child d e hd he hdir) q hpos hentry

end Exposed

section Texts

/-- The last name of a spelled path stands in the directory the rest names. -/
def Names (text : Bytes) (p : Position) : Prop :=
  ∃ cs d, ∃ n : Name, components text = cs++[n.1] ∧ resolve cs = some d ∧ p = d++[n]

theorem resolve_append (as bs : List Bytes) {q : Position} (ha : resolve as = some p)
    (hb : resolve bs = some q) : resolve (as++bs) = some (p++q) := by
  rw [resolve] at ha hb ⊢
  rw [List.filter_append, List.mapM_append, ha, hb]
  rfl

theorem resolve_name {n : Name} : resolve [n.1] = some [n] := resolve_position [n]

theorem names_resolve (h : Names text p) : resolve (components text) = some p := by
  obtain ⟨cs,d,n,htext,hcs,rfl⟩ := h
  rw [htext]
  exact resolve_append cs [n.1] hcs resolve_name

theorem resolve_stripTrailing {rel : Bytes} :
    resolve (components (stripTrailing rel)) = resolve (components rel) := by
  unfold stripTrailing
  split_ifs with h
  · obtain ⟨x,rfl⟩ := List.getLast?_eq_some_iff.mp h
    rw [List.dropLast_concat, components_append, resolve, resolve, List.filter_append]
    simp [components]
  · rfl

theorem names_child (h : resolve (components rel) = some d)
    {n : Name} : Names (planChildRel rel n.1) (d++[n]) := by
  unfold planChildRel
  split_ifs with hdot
  · subst hdot
    obtain rfl : [] = d := Option.some.inj h
    exact ⟨[],[],n,components_plain n.1 n.2.2.1,rfl,rfl⟩
  · unfold pathCat
    split_ifs with hrel
    · subst hrel
      obtain rfl : [] = d := Option.some.inj h
      exact ⟨[],[],n,components_plain n.1 n.2.2.1,rfl,rfl⟩
    · exact absurd ‹n.1 = []› n.2.1
    · refine ⟨components (stripTrailing rel),d,n,?_,resolve_stripTrailing.trans h,rfl⟩
      rw [stripLeading, if_neg name_head, components_append, components_plain n.1 n.2.2.1]

theorem exposed_names {t : DirTree Name} {rules : Option (Bytes → Bytes → Bool → FilterAction)}
    (hrel : resolve (components rel) = some d)
    (h : Exposed t rules d rel p text) : Names text p := by
  induction h with
  | child _ _ => exact names_child hrel
  | deeper _ _ _ _ ih => exact ih (names_resolve (names_child hrel))

theorem statLeaf_names {t : DirTree Name} {x : Position}
    {b : Bool} (hnames : Names text p) (h : statLeaf t gone text = .entry x b) : x = p := by
  obtain ⟨cs,d,n,htext,hcs,rfl⟩ := hnames
  have hn : name? n.1 = some n := by rw [name?, dif_pos n.2]
  unfold statLeaf at h
  simp only [htext, List.dropLast_concat, List.getLastD_concat, hcs, hn] at h
  split_ifs at h
  cases hstat : stat t gone d [n] with
  | none => rw [hstat] at h; exact absurd h (by simp)
  | some b' => rw [hstat] at h; exact (LeafStat.entry.inj h).1.symm

theorem spelled_dirName (d : Position) (q : Position) (n : Name) :
    spelled (dirName d) (q++[n]) = relPath (d++(q++[n])) := by
  induction q generalizing d with
  | nil => exact planChildRel_dirName n
  | cons m q ih =>
    rw [show d++(m::q++[n]) = d++[m]++(q++[n]) by simp, ← ih (d++[m])]
    show spelled (planChildRel (dirName d) m.1) (q++[n]) = _
    rw [planChildRel_dirName, dirName, if_neg (by simp)]

end Texts

section Histories
variable (cfg : Config) (t : DirTree Name)

/-- The directory of a plan, as it was sent and as it was opened. -/
structure PlanOrigin where
  dir : Bytes
  root : Position

variable {o : PlanOrigin}

/-- A session with the plan that each noted path and each removal comes from;
`requested` are the removals of missing arguments. -/
structure PlanHistory where
  session : DeletePlanSession
  origins : List PlanOrigin
  removals : List (PlanOrigin × Position)
  requested : List Position

def underPlan (h : PlanHistory) (o : PlanOrigin) (s : DeletePlanSession) : PlanHistory where
  session := s
  origins := h.origins++(s.deferred.drop h.session.deferred.length).map fun _ => o
  removals := h.removals++(s.gone.drop h.session.gone.length).map (Prod.mk o)
  requested := h.requested

def besidePlan (h : PlanHistory) (s : DeletePlanSession) : PlanHistory :=
  {h with session := s, requested := h.requested++s.gone.drop h.session.gone.length}

def historyReceive (frame : PlanFrame) (h : PlanHistory) : PlanHistory :=
  let r := beforePlan cfg t frame h.session
  let h := besidePlan h r.1
  if r.2 then
    match openPlanDir t r.1.gone frame.dir with
    | none => h
    | some d => underPlan h ⟨frame.dir,d⟩ (applyPlanDir cfg t frame.dir frame.dirs frame.files r.1)
  else h

def historyCall : SessionCall → PlanHistory → PlanHistory
  | .receive frame, h => historyReceive cfg t frame h
  | .broken config seen, h => besidePlan h (brokenReceive config seen h.session)

def historyCalls : List SessionCall → PlanHistory → PlanHistory
  | [], h => h
  | c::cs, h => historyCalls cs (historyCall cfg t c h)

def historyDeferred : List (Bytes × PlanOrigin) → PlanHistory → PlanHistory × Bool
  | [], h => (h, true)
  | (rel, o)::rest, h =>
    let r := applyDeferredPath cfg t rel h.session
    if r.2 then historyDeferred rest (underPlan h o r.1) else (underPlan h o r.1, false)

def historyCommit (h : PlanHistory) : PlanHistory :=
  if h.session.dryRun then h
  else
    let r := if h.session.defer then historyDeferred cfg t (h.session.deferred.zip h.origins) h
      else (h, true)
    if r.2 then besidePlan r.1 (applyMissing cfg t r.1.session).1 else r.1

def historyRun (calls : List SessionCall) (commit : Bool) : PlanHistory :=
  let h := historyCalls cfg t calls ⟨deletePlanSessionCreate cfg,[],[],[]⟩
  if commit then historyCommit cfg t h else h

/-- The text of a plan directory names the directory that was opened. -/
def Opened (o : PlanOrigin) : Prop := resolve (components o.dir) = some o.root ∧ IsDir t o.root

/-- Every noted path and every removal is exposed from the plan it comes from,
and nothing is gone but by a removal or a request. -/
structure Traced (h : PlanHistory) : Prop where
  paired : h.origins.length = h.session.deferred.length
  noted : ∀ x ∈ h.session.deferred.zip h.origins,
    Opened t x.2 ∧ ∃ p, Exposed t cfg.protectRules x.2.root x.2.dir p x.1
  removed : ∀ r ∈ h.removals,
    Opened t r.1 ∧ ∃ text, Exposed t cfg.protectRules r.1.root r.1.dir r.2 text
  complete : ∀ p, p ∈ h.session.gone ↔ p ∈ h.removals.map Prod.snd ∨ p ∈ h.requested

variable {cfg} {t}

variable {s : DeletePlanSession}

theorem traced_underPlan {R : Position → Bytes → Prop} {h : PlanHistory} (hh : Traced cfg t h)
    (ho : Opened t o) (hR : ∀ p text, R p text → Exposed t cfg.protectRules o.root o.dir p text)
    (hs : Acts R h.session s) : Traced cfg t (underPlan h o s) := by
  obtain ⟨ps,texts,hgone,hdeferred,hps,htexts⟩ := acts_grows hs
  have hnew : s.gone.drop h.session.gone.length = ps := by rw [hgone, List.drop_left]
  have hnoted : s.deferred.drop h.session.deferred.length = texts := by
    rw [hdeferred, List.drop_left]
  unfold underPlan
  rw [hnew, hnoted]
  constructor
  · show (h.origins++texts.map fun _ => o).length = s.deferred.length
    rw [hdeferred, List.length_append, List.length_append, List.length_map, hh.paired]
  · show ∀ x ∈ s.deferred.zip (h.origins++texts.map fun _ => o), _
    rw [hdeferred, List.zip_append hh.paired.symm]
    intro x hx
    rcases List.mem_append.mp hx with hx | hx
    · exact hh.noted x hx
    · obtain ⟨text,origin⟩ := x
      obtain ⟨y,-,rfl⟩ := List.mem_map.mp (List.of_mem_zip hx).2
      obtain ⟨p,hp⟩ := htexts text (List.of_mem_zip hx).1
      exact ⟨ho,p,hR p text hp⟩
  · intro r hr
    rcases List.mem_append.mp hr with hr | hr
    · exact hh.removed r hr
    · obtain ⟨p,hp,rfl⟩ := List.mem_map.mp hr
      obtain ⟨text,htext⟩ := hps p hp
      exact ⟨ho,text,hR p text htext⟩
  · intro p
    rw [hgone, List.mem_append, hh.complete, List.map_append, List.map_map, List.mem_append,
      show ps.map (Prod.snd ∘ Prod.mk o) = ps from List.map_id ps]
    tauto

theorem traced_besidePlan {h : PlanHistory} (hh : Traced cfg t h)
    {ps : List Position} (hgone : s.gone = h.session.gone++ps)
    (hdeferred : s.deferred = h.session.deferred) : Traced cfg t (besidePlan h s) := by
  unfold besidePlan
  rw [hgone, List.drop_left]
  refine ⟨hh.paired.trans (by rw [hdeferred]),?_,hh.removed,fun p => ?_⟩
  · show ∀ x ∈ s.deferred.zip h.origins, _
    rw [hdeferred]
    exact hh.noted
  · show p ∈ s.gone ↔ p ∈ h.removals.map Prod.snd ∨ p ∈ h.requested++ps
    rw [hgone, List.mem_append, hh.complete, List.mem_append, or_assoc]

theorem opened_openPlanDir {dir : Bytes}
    (h : openPlanDir t gone dir = some d) : Opened t ⟨dir,d⟩ := by
  unfold openPlanDir at h
  cases hres : resolve (components dir) with
  | none => rw [hres] at h; exact absurd h (by simp)
  | some x =>
    rw [hres] at h
    dsimp only at h
    split_ifs at h with hstat
    obtain rfl := Option.some.inj h
    have hdir := isDir_of_stat t [] x .root hstat
    exact ⟨hres,hdir⟩

theorem traced_receive {frame : PlanFrame} {h : PlanHistory} (hh : Traced cfg t h) :
    Traced cfg t (historyReceive cfg t frame h) ∧
      (historyReceive cfg t frame h).session =
        (deletePlanSessionReceive cfg t frame h.session).1 := by
  obtain ⟨ps,hgone,hdeferred⟩ := beforePlan_grows cfg t
  have hbefore := traced_besidePlan hh hgone hdeferred
  rw [deletePlanSessionReceive_eq]
  unfold historyReceive
  dsimp only
  cases hplan : (beforePlan cfg t frame h.session).2 with
  | false => exact ⟨hbefore,rfl⟩
  | true =>
    cases hopen : openPlanDir t (beforePlan cfg t frame h.session).1.gone frame.dir with
    | none => exact ⟨hbefore,by rw [applyPlanDir, hopen]; rfl⟩
    | some d =>
      refine ⟨traced_underPlan hbefore (opened_openPlanDir hopen) (fun p text hr => ?_)
        (acts_applyPlanDir cfg t hopen frame.dirs frame.files),rfl⟩
      exact reaches_exposed hr

theorem traced_call {c : SessionCall} {h : PlanHistory} (hh : Traced cfg t h) :
    Traced cfg t (historyCall cfg t c h) ∧
      (historyCall cfg t c h).session = sessionCall cfg t c h.session := by
  cases c with
  | receive frame => exact traced_receive hh
  | broken config seen =>
    refine ⟨@traced_besidePlan cfg t _ h hh [] ?_ ?_,rfl⟩ <;>
      · unfold brokenReceive
        split_ifs <;> simp [readConfig]

theorem traced_calls {cs : List SessionCall} {h : PlanHistory} (hh : Traced cfg t h) :
    Traced cfg t (historyCalls cfg t cs h) ∧
      (historyCalls cfg t cs h).session = sessionCalls cfg t cs h.session := by
  induction cs generalizing h with
  | nil => exact ⟨hh,rfl⟩
  | cons c cs ih =>
    obtain ⟨hnext,hsession⟩ := traced_call hh
    rw [historyCalls, sessionCalls, ← hsession]
    exact ih hnext

theorem pathReaches_exposed (ho : Opened t o) {x : Position} {b : Bool}
    (hnoted : ∃ p, Exposed t cfg.protectRules o.root o.dir p rel)
    (hleaf : statLeaf t s.gone rel = .entry p b) (h : PathReaches cfg t s rel p b x text) :
    Exposed t cfg.protectRules o.root o.dir x text := by
  obtain ⟨p',hp'⟩ := hnoted
  obtain rfl := statLeaf_names (exposed_names ho.1 hp') hleaf
  rcases h with ⟨rfl,rfl⟩ | ⟨rfl,hr⟩
  · exact hp'
  · exact exposed_trans ho.2 hp' (statLeaf_inv t hleaf).1 (reaches_exposed hr)

theorem traced_deferred {xs : List (Bytes × PlanOrigin)} {h : PlanHistory} (hh : Traced cfg t h)
    (hxs : ∀ x ∈ xs, Opened t x.2 ∧ ∃ p, Exposed t cfg.protectRules x.2.root x.2.dir p x.1) :
    Traced cfg t (historyDeferred cfg t xs h).1 ∧
      ((historyDeferred cfg t xs h).1.session, (historyDeferred cfg t xs h).2) =
        applyDeferred cfg t (xs.map Prod.fst) h.session := by
  induction xs generalizing h with
  | nil => exact ⟨hh,rfl⟩
  | cons x xs ih =>
    obtain ⟨rel,o⟩ := x
    obtain ⟨ho,hnoted⟩ := hxs (rel, o) (by simp)
    have hstep : Traced cfg t (underPlan h o (applyDeferredPath cfg t rel h.session).1) := by
      cases hleaf : statLeaf t h.session.gone rel with
      | entry p b =>
        exact traced_underPlan hh ho (fun _ _ => pathReaches_exposed ho hnoted hleaf)
          (acts_applyDeferredPath cfg t hleaf (statLeaf_inv t hleaf).2.1)
      | absent | self =>
        rw [applyDeferredPath, hleaf]
        exact traced_underPlan (R := fun _ _ => False) hh ho (fun _ _ => False.elim) .refl
    rw [historyDeferred, List.map_cons, applyDeferred]
    cases hok : (applyDeferredPath cfg t rel h.session).2 with
    | false =>
      rw [if_neg (by simp), if_neg (by simp)]
      exact ⟨hstep,by rw [← hok]; rfl⟩
    | true =>
      exact ih hstep fun y hy => hxs y (by simp [hy])

theorem traced_commit {h : PlanHistory} (hh : Traced cfg t h) :
    Traced cfg t (historyCommit cfg t h) ∧
      (historyCommit cfg t h).session = (deletePlanSessionCommit cfg t h.session).1 := by
  obtain ⟨hdeferred,hsame⟩ := traced_deferred hh hh.noted
  rw [List.map_fst_zip hh.paired.symm.le] at hsame
  unfold historyCommit deletePlanSessionCommit
  split_ifs with hdry hdefer
  · exact ⟨hh,rfl⟩
  · rw [← hsame]
    generalize historyDeferred cfg t (h.session.deferred.zip h.origins) h = r at hdeferred
    obtain ⟨h',ok⟩ := r
    cases ok with
    | false => exact ⟨hdeferred,rfl⟩
    | true =>
      obtain ⟨ps,hgone,hlist⟩ := applyMissing_grows cfg t
      exact ⟨traced_besidePlan hdeferred hgone hlist,rfl⟩
  · obtain ⟨ps,hgone,hlist⟩ := applyMissing_grows cfg t
    exact ⟨traced_besidePlan hh hgone hlist,rfl⟩

theorem traced_run (calls : List SessionCall) (commit : Bool) :
    Traced cfg t (historyRun cfg t calls commit) ∧
      (historyRun cfg t calls commit).session = sessionRun cfg t calls commit := by
  have hinit : Traced cfg t ⟨deletePlanSessionCreate cfg,[],[],[]⟩ := by
    refine ⟨rfl,?_,by simp,by simp [deletePlanSessionCreate]⟩
    intro x hx
    cases hx
  obtain ⟨hcalls,hsession⟩ := traced_calls hinit
  unfold historyRun sessionRun sessionFrom
  rw [← hsession]
  cases commit with
  | false => exact ⟨hcalls,rfl⟩
  | true => exact traced_commit hcalls

end Histories

section Plans
variable (t : DirTree Name) (mem : Scratch) (rules : List FilterRule)

/-- A directory below that of the plan is protected by its path, but not by the
path the plan spells for it. -/
def Misspelled (o : PlanOrigin) (p : Position) : Prop :=
  ∃ q n, (Below (o.root++(q++[n])) p ∨ p = o.root++(q++[n])) ∧ EntryAt t (o.root++(q++[n])) true ∧
    filterRulesApplySide mem rules (relPath (o.root++(q++[n]))) n.1 true filterSideReceiver =
      .done .protect ∧
    filterRulesApplySide mem rules (spelled o.dir (q++[n])) n.1 true filterSideReceiver ≠
      .done .protect

/-- No removal of the plans is at or below a protected directory. -/
def Sheltered (h : PlanHistory) : Prop := ∀ r ∈ h.removals, ¬UnderProtected t mem rules r.2

variable {t mem rules}

theorem underProtected_below (h : UnderProtected t mem rules d) (hp : Below d p) :
    UnderProtected t mem rules p := by
  obtain ⟨q,n,hentry,hverdict,hpos⟩ := h
  refine ⟨q,n,hentry,hverdict,.inr ?_⟩
  rcases hpos with rfl | hb
  · exact hp
  · exact below_trans hb hp

/-- A removal is at or below a protected directory exactly when its plan was for
such a directory or misspells one. -/
theorem underProtected_iff {o : PlanOrigin} (ho : Opened t o)
    (h : Exposed t (some (rulesVerdict mem rules)) o.root o.dir p text) :
    UnderProtected t mem rules p ↔
      UnderProtected t mem rules o.root ∨ Misspelled t mem rules o p := by
  constructor
  · rintro ⟨d,n,hentry,hverdict,hpos⟩
    by_cases habove : o.root = d++[n] ∨ Below (d++[n]) o.root
    · exact .inl ⟨d,n,hentry,hverdict,habove⟩
    · have hbelow : Below o.root (d++[n]) := by
        rcases hpos with rfl | hb
        · exact exposed_below h
        · rcases below_comparable (exposed_below h) hb with heq | hroot | hover
          · exact absurd (.inl heq) habove
          · exact hroot
          · exact absurd (.inr hover) habove
      obtain ⟨q,rfl⟩ : ∃ q, d = o.root++q := by
        rcases (below_concat _ _ _).mp hbelow with ⟨m,s,rfl⟩ | heq
        · exact ⟨m::s,rfl⟩
        · exact ⟨[],by rw [← heq, List.append_nil]⟩
      rw [List.append_assoc] at hentry hverdict hpos
      refine .inr ⟨q,n,hpos.symm,hentry,hverdict,fun hspelled => ?_⟩
      have hfree := exposed_free ho.2 h q hpos.symm hentry
      rw [ruleProtects_iff.mpr hspelled] at hfree
      cases hfree
  · rintro (hroot | ⟨q,n,hpos,hentry,hverdict,-⟩)
    · exact underProtected_below hroot (exposed_below h)
    · rw [← List.append_assoc] at hpos hentry hverdict
      exact ⟨o.root++q,n,hentry,hverdict,hpos.symm⟩

theorem misspelled_dirName {o : PlanOrigin} (h : o.dir = dirName o.root) {p : Position} :
    ¬Misspelled t mem rules o p := by
  rintro ⟨q,n,-,-,hverdict,hno⟩
  rw [h, spelled_dirName] at hno
  exact hno hverdict

end Plans

section Sample

def shelteredName : Name := ⟨[120],by decide⟩

def shelterTree : DirTree Name where
  entries d :=
    if d = [] then [⟨innerName,true⟩]
    else if d = [innerName] then [⟨shelteredName,false⟩]
    else []
  height d := 2-d.length
  names_nodup d := by split_ifs <;> decide
  height_lt d e he hdir := by
    split_ifs at he with h1 h2
    · simp [h1]
    · rw [List.mem_singleton.mp he] at hdir
      cases hdir
    · exact absurd he List.not_mem_nil

def shelterRule : FilterRule :=
  ⟨.exclude,filterSideReceiver,false,true,false,false,none,some [100]⟩

def shelterConfig : Config where
  receiveRootDirectory := [slash,114]
  delayUpdates := false
  basisDirs := []
  protectRules := none
  useDelete := true
  deleteMissingArgs := false
  forceDelete := false
  dryRun := false
  deleteBefore := false
  deleteDuring := true
  deleteDelay := false
  maxDelete := -1

/-- The plans of a source that holds the empty directory `d`. -/
def shelterPlans : List SessionCall :=
  [.receive ⟨some ⟨[],[],[]⟩,true,[dot],[[100]],[]⟩,.receive ⟨none,true,[100],[],[]⟩]

end Sample

end FastSync.ProtectedSubtrees
