import FastSync.DeleteEngines

/-!
# Whole runs of the plan engine

A run receives the frames of one source tree and commits. With the plans in
the order the sender transmits them, no plan finds its directory touched by an
earlier one, and the deferred paths come with content before container; so a
run removes the extras of all plans, at once or at the commit.
-/

set_option autoImplicit false

namespace FastSync.DeleteEngineRuns
open FiniteTree DeletePaths DeleteExtras
open DeleteListing DeletePlan DeletePlanFrames
open DeleteCommit DeleteSession DeleteSessionRun DeleteEngines

def receivePlans (cfg : Config) (t : DirTree Name) :
    List PlanFrame → DeletePlanSession → DeletePlanSession × Bool
  | [], s => (s, true)
  | frame::frames, s =>
    let r := deletePlanSessionReceive cfg t frame s
    if r.2 then receivePlans cfg t frames r.1 else r

/-- One session on a destination that nothing else changes: every frame, then
the commit. -/
def planEngine (cfg : Config) (t : DirTree Name) (frames : List PlanFrame) :
    DeletePlanSession × DeleteCommitResult :=
  let r := receivePlans cfg t frames (deletePlanSessionCreate cfg)
  if r.2 then deletePlanSessionCommit cfg t r.1 else (r.1, .error)

section Limits
variable (cfg : Config) (t : DirTree Name)

theorem keeps_applyMissing {s : DeletePlanSession} : Keeps s (applyMissing cfg t s).1 := by
  intro h
  unfold applyMissing
  split_ifs <;> simp [h]

theorem keeps_receive (frame : PlanFrame) (s : DeletePlanSession) :
    Keeps s (deletePlanSessionReceive cfg t frame s).1 := by
  intro h
  have h1 : (loadConfig frame s).limitHit = true := by
    unfold loadConfig
    split <;> exact h
  have h2 := keeps_applyMissing cfg t h1
  unfold deletePlanSessionReceive
  dsimp only
  split_ifs
  all_goals first
    | exact h
    | exact h1
    | exact h2
    | exact keeps_of_moves (moves_applyPlanDir cfg t) h1
    | exact keeps_of_moves (moves_applyPlanDir cfg t) h2

theorem keeps_receivePlans {frames : List PlanFrame} (s : DeletePlanSession) :
    Keeps s (receivePlans cfg t frames s).1 := by
  induction frames generalizing s with
  | nil => exact fun h => h
  | cons frame frames ih =>
    intro h
    have h1 := keeps_receive cfg t frame s h
    rw [receivePlans]
    split_ifs
    · exact ih _ h1
    · exact h1

theorem keeps_commit {s : DeletePlanSession} : Keeps s (deletePlanSessionCommit cfg t s).1 := by
  intro h
  unfold deletePlanSessionCommit
  split_ifs with hdry hdefer
  · exact h
  · have h1 := keeps_of_moves (moves_applyDeferred cfg t s.deferred s) h
    dsimp only
    split_ifs
    · exact keeps_applyMissing cfg t h1
    · exact h1
  · exact keeps_applyMissing cfg t h

end Limits

variable {s : DeletePlanSession} {xs : List Extra}

theorem ran_flag {now : Bool} {f : Bool}
    {r : DeletePlanSession × Bool} (h : Ran now s xs f r) {g : Bool} : Ran now s xs g (r.1, g) :=
  ⟨fun hf => by rw [h.fits hf],h.overflows⟩

theorem ran_nil {now : Bool} {s : DeletePlanSession} {f : Bool} : Ran now s [] f (s, f) :=
  ⟨fun _ => by rw [effect_nil],fun h0 h => absurd h0 h⟩

variable {d : Position} {frame : PlanFrame}

section Frames
variable {src : DirTree Name}

theorem validRelPath_relPath (d : Position) (hd : d ≠ []) : validRelPath (relPath d) = true := by
  have htrav : hasPathTraversal (relPath d) = false := by
    rw [hasPathTraversal,components_relPath d hd,decide_eq_false_iff_not]
    intro h
    obtain ⟨n,-,hn⟩ := List.mem_map.mp h
    exact n.2.2.2.2.2 hn
  have hne : relPath d ≠ [] := fun h => hd (relPath_eq_nil.mp h)
  simp [validRelPath,htrav,hne,relPath_head]

theorem validName_name {n : Name} : validName n.1 = true := by
  obtain ⟨n,h1,h2,-,h3,h4⟩ := n
  simp [validName,h1,h2,h3,h4]

theorem planFrameValid_plan (hf : FrameFor src d frame)
    {s : DeletePlanSession} : planFrameValid s frame = true := by
  have hdir : (decide (frame.dir = [dot]) || validRelPath frame.dir) = true := by
    rw [hf.dir,dirName]
    split_ifs with hd
    · simp
    · simp [validRelPath_relPath d hd]
  have hdirs : frame.dirs.all validName = true := by
    rw [List.all_eq_true]
    intro b hb
    obtain ⟨n,rfl,-⟩ := (hf.dirs b).mp hb
    exact validName_name
  have hfiles : frame.files.all validName = true := by
    rw [List.all_eq_true]
    intro b hb
    obtain ⟨n,rfl,-⟩ := (hf.files b).mp hb
    exact validName_name
  rw [planFrameValid,hf.config,hdir,hdirs,hfiles]
  rfl

theorem openPlanDir_dirName (t : DirTree Name) (gone : List Position) (d : Position) :
    openPlanDir t gone (dirName d) = if stat t gone [] d = some true then some d else none := by
  have hres : resolve (components (dirName d)) = some d := by
    unfold dirName
    split_ifs with hd
    · subst hd
      rfl
    · exact resolve_relPath d
  rw [openPlanDir,hres]

end Frames

/-- A session between its configuration frame and its commit. -/
structure Ready (cfg : Config) (prot size : List Bytes) (s : DeletePlanSession) : Prop where
  dryRun : s.dryRun = false
  defer : s.defer = cfg.deleteDelay
  missing : s.defer = true ∨ s.missingApplied = true
  prot : s.protectedPrefixes = prot
  size : s.sizeSkipped = size

theorem ready_effect {cfg : Config} {prot size : List Bytes}
    (h : Ready cfg prot size s) (now : Bool) (xs : List Extra) :
    Ready cfg prot size (effect now s xs) := by
  cases now <;> exact ⟨h.dryRun,h.defer,h.missing,h.prot,h.size⟩

section Receive
variable {cfg : Config} {src t : DirTree Name} {prot size : List Bytes}

theorem receive_plan (huse : cfg.useDelete = true)
    (hf : FrameFor src d frame) (hs : Ready cfg prot size s) :
    deletePlanSessionReceive cfg t frame s =
      (applyPlanDir cfg t (dirName d) frame.dirs frame.files s, true) := by
  have hload : loadConfig frame s = s := by
    rw [loadConfig,hf.config]
  have hmissing : (if s.defer then (s, true) else applyMissing cfg t s) = (s, true) := by
    split_ifs with hdefer
    · rfl
    · rw [applyMissing,if_pos (hs.missing.resolve_left hdefer)]
  rw [deletePlanSessionReceive,planFrameValid_plan hf,hload]
  dsimp only
  rw [hmissing,hs.dryRun,huse,hf.apply,hf.dir]
  rfl

variable (hkinds : SameKinds src t)
include hkinds

theorem planExtras_unforced (hf : FrameFor src d frame)
    (hd : IsDir t d) {e : DeleteDirEntry} (he : e ∈ t.entries d)
    (hv : planVerdict (planSkips cfg prot size) (dirName d) (some ⟨frame.dirs,frame.files⟩)
      (decide (dirName d = [dot])) e = .extra) :
    forced (some ⟨frame.dirs,frame.files⟩) e = false := by
  have hns := ((planVerdict_extra cfg prot size hkinds hf hd e he).mp hv).2.2
  have hout : ∀ b, ¬∃ n : Name, e.name.1 = n.1 ∧ EntryAt src (d++[n]) b := by
    rintro b ⟨n,hn,h⟩
    rw [← Subtype.ext hn] at h
    exact hns ⟨b,h⟩
  have hdirs : e.name.1 ∉ frame.dirs := fun h => hout true ((hf.dirs _).mp h)
  have hfiles : e.name.1 ∉ frame.files := fun h => hout false ((hf.files _).mp h)
  simp [forced,listContainsStr,hdirs,hfiles]

theorem receive_plan_ran (hrules : cfg.protectRules = none) (huse : cfg.useDelete = true)
    (hf : FrameFor src d frame) (hsrc : IsDir src d) (hs : Ready cfg prot size s)
    (hgone : ∀ q ∈ s.gone, ¬Source src q ∧ ¬Below d q) :
    Ran (!cfg.deleteDelay) s (planList cfg t prot size (d, frame)) true
      (deletePlanSessionReceive cfg t frame s) := by
  rw [receive_plan huse hf hs,applyPlanDir,openPlanDir_dirName]
  have hway : ∀ q, Below [] q → q = d ∨ Below q d → q ∉ s.gone := by
    intro q hq hqd hmem
    have hne : q ≠ [] := by
      rintro rfl
      exact below_irrefl hq
    have hdir : IsDir src q := by
      rcases hqd with rfl | hqd
      · exact hsrc
      · refine entryAt_above (isDir_entry hsrc ?_) hqd
        rintro rfl
        exact below_nil hqd
    exact (hgone q hmem).1 ⟨true,isDir_entry hdir hne⟩
  by_cases hd : IsDir t d
  · have hskips : buildPlanSkips cfg s = planSkips cfg prot size := by
      rw [buildPlanSkips,hs.prot,hs.size,hrules]
      rfl
    rw [if_pos (stat_isDir t [] d hd hway),planList,if_pos (stat_iff_isDir.mpr hd),hskips]
    refine ran_flag (@processChildren_ran _ _ _ cfg.deleteDelay d _ _ false s
      (fun e he hv => ?_) hs.defer fun q hq => (hgone q hq).2)
    rw [planExtras_unforced hkinds hf hd he hv]
    simp
  · have hstat : stat t s.gone [] d ≠ some true := fun h =>
      hd (isDir_of_stat t [] d .root h)
    rw [if_neg hstat,planList,if_neg fun h => hd (stat_iff_isDir.mp h)]
    exact ran_nil

omit hkinds in
theorem planList_listed {z : Position × PlanFrame} :
    ∀ x ∈ planList cfg t prot size z, IsDir t z.1 ∧ EntryAt t x.1 x.2 := by
  intro x hx
  unfold planList at hx
  split_ifs at hx with hst
  · have hd := stat_iff_isDir.mp hst
    exact ⟨hd,entriesExtras_listed t _ z.1 _ hd
      (fun e he hdir => extrasBelow_listed t _ _ _ _ _ (.child z.1 e hd he hdir)) x hx⟩
  · exact absurd hx List.not_mem_nil

theorem planList_outside {z : Position × PlanFrame} (hf : FrameFor src z.1 z.2) {x : Extra}
    (hx : x ∈ planList cfg t prot size z) : Below z.1 x.1 ∧ ¬Source src x.1 ∧
      ∀ q, Below z.1 q → Below q x.1 → ¬IsDir src q := by
  obtain ⟨hd,hentry⟩ := planList_listed x hx
  rw [planList,if_pos (stat_iff_isDir.mpr hd)] at hx
  obtain ⟨hb,hs,-,-,hq⟩ := planExtras_outside cfg prot size hkinds hf hd hentry
    (List.mem_map_of_mem hx)
  exact ⟨hb,hs,hq⟩

theorem receivePlans_ran (hrules : cfg.protectRules = none) (huse : cfg.useDelete = true)
    {zs : List (Position × PlanFrame)} (hz : ∀ z ∈ zs, IsDir src z.1 ∧ FrameFor src z.1 z.2)
    (hnodup : (zs.map Prod.fst).Nodup) (horder : (zs.map Prod.fst).Pairwise fun a b => ¬Below b a)
    (s : DeletePlanSession) (hs : Ready cfg prot size s)
    (hgone : ∀ q ∈ s.gone, ¬Source src q ∧ ∀ z ∈ zs, ¬Below z.1 q) :
    Ran (!cfg.deleteDelay) s (zs.flatMap (planList cfg t prot size)) true
      (receivePlans cfg t (zs.map Prod.snd) s) := by
  induction zs generalizing s with
  | nil => exact ran_nil
  | cons z zs ih =>
    rw [List.map_cons,List.nodup_cons] at hnodup
    rw [List.map_cons,List.pairwise_cons] at horder
    obtain ⟨hzd,hzf⟩ := hz z (by simp)
    have hstep := receive_plan_ran hkinds hrules huse hzf hzd hs
      fun q hq => ⟨(hgone q hq).1,(hgone q hq).2 z (by simp)⟩
    rw [List.flatMap_cons,List.map_cons,receivePlans]
    refine ran_append hstep ?_ fun hf hr => ?_
    · split_ifs
      · exact keeps_receivePlans cfg t _
      · exact fun h => h
    · rw [hr,if_pos rfl]
      refine ih (fun z' hz' => hz z' (List.mem_cons_of_mem _ hz')) hnodup.2 horder.2 _
        (ready_effect hs _ _) fun q hq => ?_
      rw [effect_gone,List.mem_append] at hq
      rcases hq with hq | hq
      · exact ⟨(hgone q hq).1,fun z' hz' => (hgone q hq).2 z' (List.mem_cons_of_mem _ hz')⟩
      · -- what the first plan removes lies outside the source directories still to come
        have hmem : q ∈ (planList cfg t prot size z).map Prod.fst := by
          split_ifs at hq
          · exact hq
          · exact absurd hq List.not_mem_nil
        obtain ⟨x,hx,rfl⟩ := List.mem_map.mp hmem
        obtain ⟨hb,hns,hbetween⟩ := planList_outside hkinds hzf hx
        refine ⟨hns,fun z' hz' hbz => ?_⟩
        have hpos : z'.1 ∈ zs.map Prod.fst := List.mem_map_of_mem hz'
        rcases below_comparable hb hbz with heq | hlt | hgt
        · exact hnodup.1 (heq ▸ hpos)
        · exact hbetween z'.1 hlt hbz (hz z' (List.mem_cons_of_mem _ hz')).1
        · exact horder.1 z'.1 hpos hgt

theorem plans_nodup {zs : List (Position × PlanFrame)}
    (hz : ∀ z ∈ zs, IsDir src z.1 ∧ FrameFor src z.1 z.2) (hnodup : (zs.map Prod.fst).Nodup) :
    ((zs.flatMap (planList cfg t prot size)).map Prod.fst).Nodup := by
  rw [List.map_flatMap,List.nodup_flatMap]
  constructor
  · intro z _
    unfold planList
    split_ifs
    · exact entriesExtras_nodup t _ z.1 _ (fun e => extrasBelow_below t _ _ _ _ _)
        fun e => extrasBelow_nodup t _ _ _ _ _
    · exact List.nodup_nil
  · have hpair : zs.Pairwise fun a b => a.1 ≠ b.1 := List.pairwise_map.mp hnodup
    refine hpair.imp_of_mem fun {a b} ha hb hab => ?_
    intro p hpa hpb
    obtain ⟨x,hx,rfl⟩ := List.mem_map.mp hpa
    obtain ⟨y,hy,hxy⟩ := List.mem_map.mp hpb
    obtain ⟨hbx,-,hx'⟩ := planList_outside hkinds (hz a ha).2 hx
    obtain ⟨hby,-,hy'⟩ := planList_outside hkinds (hz b hb).2 hy
    rw [hxy] at hby hy'
    rcases below_comparable hbx hby with heq | hlt | hgt
    · exact hab heq
    · exact hx' _ hlt hby (hz b hb).1
    · exact hy' _ hgt hbx (hz a ha).1

omit hkinds in
theorem plans_closed {zs : List (Position × PlanFrame)} :
    Closed t (zs.flatMap (planList cfg t prot size)) := by
  refine closed_flatMap fun z _ => ?_
  unfold planList
  split_ifs
  · exact entriesExtras_closed t _ z.1 _ (fun e => extrasBelow_closed t _ _ _ _ _)
      fun e => extrasBelow_covers t _ _ _ _ _
  · exact closed_nil

end Receive

section Deferred
variable (t : DirTree Name)

/-- Each entry can be removed in its turn: everything above it is still there
and, when it is a directory, nothing in it. -/
def Ordered : List Position → List Extra → Prop
  | _, [] => True
  | gone, x::xs => EntryAt t x.1 x.2 ∧ (∀ q, q = x.1 ∨ Below q x.1 → q ∉ gone) ∧
      (x.2 = true → ∀ c ∈ t.entries x.1, x.1++[c.name] ∈ gone) ∧ Ordered (gone++[x.1]) xs

variable {t}

theorem closed_below (hlisted : ∀ x ∈ xs, EntryAt t x.1 x.2) (hc : Closed t xs)
    (l r : List Extra) (q : Position) (hxs : xs = l++(q, true)::r) {p : Position} {b : Bool}
    (h : EntryAt t p b) (hq : Below q p) : p ∈ l.map Prod.fst := by
  induction hk : t.height q using Nat.strong_induction_on generalizing l r q with
  | _ k ih =>
    obtain ⟨e,he,hcase⟩ := below_entry h hq
    have hmem := hc l q r hxs e he
    rcases hcase with ⟨rfl,-⟩ | ⟨hb,hdir⟩
    · exact hmem
    · obtain ⟨x,hx,hxe⟩ := List.mem_map.mp hmem
      have hx2 : x.2 = true := by
        have h1 := hlisted x (hxs ▸ List.mem_append_left _ hx)
        rw [hxe] at h1
        have hqd := entryAt_above h hq
        exact (entryAt_kind h1 (entryAt_child hqd he)).trans hdir
      obtain ⟨l1,l2,rfl⟩ := List.append_of_mem hx
      have hsplit : xs = l1++(q++[e.name], true)::(l2++(q, true)::r) := by
        rw [hxs,← hxe,← hx2]
        simp
      have := ih _ (hk ▸ t.height_lt q e he hdir) l1 _ (q++[e.name]) hsplit hb rfl
      rw [List.map_append,List.mem_append]
      exact .inl this

theorem ordered_of_closed (hlisted : ∀ x ∈ xs, EntryAt t x.1 x.2)
    (hnodup : (xs.map Prod.fst).Nodup) (hc : Closed t xs) (l r : List Extra) (hxs : xs = l++r) :
    Ordered t (l.map Prod.fst) r := by
  induction r generalizing l with
  | nil => trivial
  | cons x r ih =>
    have hx : EntryAt t x.1 x.2 := hlisted x (by simp [hxs])
    have hnew : x.1 ∉ l.map Prod.fst := by
      rw [hxs,List.map_append,List.map_cons] at hnodup
      exact fun h => (List.nodup_append.mp hnodup).2.2 _ h _ (by simp) rfl
    refine ⟨hx,?_,?_,?_⟩
    · rintro q (rfl | hq) hmem
      · exact hnew hmem
      · -- a directory of `l` above `x` would have `x` before it
        obtain ⟨y,hy,rfl⟩ := List.mem_map.mp hmem
        have hyl := hlisted y (hxs ▸ List.mem_append_left _ hy)
        have hdir : y.2 = true :=
          entryAt_kind hyl (isDir_entry (entryAt_above hx hq) (entryAt_ne_nil hyl))
        obtain ⟨l1,l2,rfl⟩ := List.append_of_mem hy
        have hsplit : xs = l1++(y.1, true)::(l2++x::r) := by
          rw [hxs,← hdir]
          simp
        apply hnew
        rw [List.map_append,List.mem_append]
        exact .inl (closed_below hlisted hc l1 _ y.1 hsplit hx hq)
    · intro hdir c hcm
      exact hc l x.1 r (by rw [hxs,← hdir]) c hcm
    · have := ih (l++[x]) (by simp [hxs])
      rwa [List.map_append] at this

theorem statLeaf_entry {gone : List Position} {p : Position} {b : Bool} (h : EntryAt t p b)
    (hway : ∀ q, q = p ∨ Below q p → q ∉ gone) : statLeaf t gone (relPath p) = .entry p b := by
  obtain ⟨d,e,hd,he,rfl,rfl⟩ := h
  have hdir : stat t gone [] d = some true :=
    stat_isDir t [] d hd fun q _ hq => hway q (.inr (by
      rcases hq with rfl | hq
      · exact below_self _ _
      · exact (below_concat _ _ _).mpr (.inl hq)))
  have hleaf := stat_child t he (hway _ (.inl rfl))
  have hn := e.name.2
  rw [statLeaf,components_relPath _ (by simp),List.map_append]
  simp only [List.map_cons,List.map_nil,List.dropLast_concat,resolve_position]
  simp [hdir,hleaf,hn.1,hn.2.2.2.1,name?,hn]

theorem processChildren_empty {skips : PlanSkips} {fuel : ℕ} {p : Position} {rel : Bytes}
    {keep : Option KeepLists} {atRoot f : Bool} {s : DeletePlanSession}
    (h : readdir t s.gone p = []) :
    processChildren t skips (fuel+1) p rel keep atRoot f s = (s, false) := by
  rw [processChildren,h]
  rfl

theorem applyDeferredPath_ran (cfg : Config) (x : Extra) (s : DeletePlanSession)
    (h : EntryAt t x.1 x.2) (hway : ∀ q, q = x.1 ∨ Below q x.1 → q ∉ s.gone)
    (hall : x.2 = true → ∀ c ∈ t.entries x.1, x.1++[c.name] ∈ s.gone) :
    Ran true s [x] true (applyDeferredPath cfg t (relPath x.1) s) := by
  have hself := hway _ (.inl rfl)
  obtain ⟨p,isDir⟩ := x
  rw [applyDeferredPath,statLeaf_entry h hway]
  apply removal_ran
  · intro hb
    cases isDir with
    | false => simp [hb,unlink_ok hself,spell]
    | true =>
      have hempty : readdir t s.gone p = [] := (readdir_eq_nil t).mpr (hall rfl)
      simp [hb,processChildren_empty hempty,rmdir_ok t hself (hall rfl),spell]
  · intro hb
    simp [hb,noteSkipped]

theorem applyDeferred_ran (cfg : Config) (xs : List Extra) (s : DeletePlanSession)
    (h : Ordered t s.gone xs) :
    Ran true s xs true (applyDeferred cfg t (xs.map fun x => relPath x.1) s) := by
  induction xs generalizing s with
  | nil => exact ran_nil
  | cons x xs ih =>
    obtain ⟨hx,hway,hall,hrest⟩ := h
    have hstep := applyDeferredPath_ran cfg x s hx hway hall
    rw [List.map_cons,applyDeferred]
    refine @ran_append _ _ [x] _ _ _ _ _ hstep ?_ fun hf hr => ?_
    · split_ifs
      · exact keeps_of_moves (moves_applyDeferred cfg t _ _)
      · exact fun h => h
    · rw [hr,if_pos rfl]
      exact ih _ hrest

end Deferred

end FastSync.DeleteEngineRuns
