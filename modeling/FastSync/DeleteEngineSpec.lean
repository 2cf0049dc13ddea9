import FastSync.DeleteEngineRuns

/-!
# When the two delete engines agree

On one source, one destination and one configuration both engines remove the
same set, unless updates are staged, the source has a directory of the staging
name and the destination an unprotected extra in it.
-/

set_option autoImplicit false

namespace FastSync.DeleteEngineSpec
open FiniteTree DeletePaths DeleteWalk DeleteExtras
open DeleteSpec DeletePlan DeletePlanFrames
open DeleteCommit DeleteSession DeleteSessionRun DeleteEngines
open DeleteEngineRuns

/-- The frames a sender transmits for a whole source: every entry added, every
directory visited, nothing missing. -/
def sourceFrames (adds : List (Position × Bool)) (dirs : List Position) (prot size : List Bytes) :
    List PlanFrame :=
  deletePlanSendAll (planSender adds ⟨prot,size,[]⟩) (dirs.map relPath)

/-- The manifest of the same source, with the whole tree synchronized. -/
def sourceManifest (keeps prot size : List Bytes) : DeleteManifest := ⟨keeps,prot++size,[],[[dot]]⟩

/-- An extra in the staging directory that only the plans reach. -/
def Exposed (cfg : Config) (src t : DirTree Name) (prot size : List Bytes) : Prop :=
  cfg.delayUpdates = true ∧ IsDir src [stageName] ∧ ∃ p b, EntryAt t p b ∧ Below [stageName] p ∧
    ¬Source src p ∧ Clear t (deleteSkipsBuild cfg prot size false) p

section Engines
variable {cfg : Config} {src t : DirTree Name} {prot size : List Bytes}

def configured (cfg : Config) (prot size : List Bytes) : DeletePlanSession :=
  { readConfig ⟨prot,size,[]⟩ (deletePlanSessionCreate cfg) with
    missingApplied := !cfg.deleteDelay }

theorem ready_configured (hdry : cfg.dryRun = false) :
    Ready cfg prot size (configured cfg prot size) := by
  refine ⟨hdry,rfl,?_,rfl,rfl⟩
  cases h : cfg.deleteDelay <;> simp [configured, readConfig, deletePlanSessionCreate, h]

theorem receive_config (hdry : cfg.dryRun = false) (huse : cfg.useDelete = true)
    (hvalid : planConfigValid ⟨prot,size,[]⟩ = true) :
    deletePlanSessionReceive cfg t ⟨some ⟨prot,size,[]⟩,false,[dot],[],[]⟩
      (deletePlanSessionCreate cfg) = (configured cfg prot size, true) := by
  have hframe : planFrameValid (deletePlanSessionCreate cfg)
      ⟨some ⟨prot,size,[]⟩,false,[dot],[],[]⟩ = true := by
    simp [planFrameValid, hvalid, deletePlanSessionCreate]
  rw [deletePlanSessionReceive, hframe]
  cases h : cfg.deleteDelay <;>
    simp [loadConfig, readConfig, deletePlanSessionCreate, configured, applyMissing, hdry, huse, h]

theorem applyMissing_none (s : DeletePlanSession) (h : s.missing = []) :
    (applyMissing cfg t s).1.gone = s.gone := by
  rw [applyMissing, h]
  split_ifs <;> rfl

theorem commit_during (hdelay : cfg.deleteDelay = false) {s : DeletePlanSession}
    (hs : Ready cfg prot size s) : (deletePlanSessionCommit cfg t s).1.gone = s.gone := by
  have happlied : s.missingApplied = true := by
    refine hs.missing.resolve_left ?_
    rw [hs.defer, hdelay]
    simp
  rw [deletePlanSessionCommit, hs.dryRun, hs.defer, hdelay]
  simp [applyMissing, happlied]

theorem commit_delay (hdelay : cfg.deleteDelay = true) {s : DeletePlanSession}
    (hs : Ready cfg prot size s) (hmissing : s.missing = []) (hgone : s.gone = [])
    (hplanned : s.planned = 0) {xs : List Extra}
    (hdeferred : s.deferred = xs.map fun x => relPath x.1) (horder : Ordered t [] xs)
    (hlimit : (deletePlanSessionCommit cfg t s).1.limitHit = false) :
    (deletePlanSessionCommit cfg t s).1.gone = xs.map Prod.fst := by
  have hran := applyDeferred_ran cfg xs s (hgone ▸ horder)
  have hzero : Fits true s 0 := by
    simp [Fits, hplanned]
  rw [deletePlanSessionCommit, hs.dryRun, hs.defer, hdelay] at hlimit ⊢
  simp only [Bool.false_eq_true, if_false, if_true, hdeferred] at hlimit ⊢
  by_cases hfit : Fits true s xs.length
  · rw [hran.fits hfit, if_pos rfl, applyMissing_none (effect true s xs) hmissing, effect_gone,
      hgone]
    rfl
  · have hover := hran.overflows hzero hfit
    split_ifs at hlimit
    · rw [keeps_applyMissing cfg t hover] at hlimit
      cases hlimit
    · rw [hover] at hlimit
      cases hlimit

theorem removable_iff {keeps : List Bytes}
    (hkeeps : ∀ k, k ∈ keeps ↔ ∃ p, Source src p ∧ k = relPath p) {p : Position} {b : Bool}
    (h : EntryAt t p b) : p ∈ removable t (wholeRun cfg prot size keeps) [] ↔ ¬Source src p ∧
      Clear t (deleteSkipsBuild cfg prot size false) p ∧ ¬UnderStage cfg p := by
  obtain ⟨d,e,hd,he,rfl,-⟩ := h
  exact removable_whole cfg src t prot size keeps hkeeps d hd e he

variable (hkinds : SameKinds src t) (hrules : cfg.protectRules = none)
variable (huse : cfg.useDelete = true) (hdry : cfg.dryRun = false)
include hkinds hrules huse hdry

theorem planEngine_gone (hvalid : planConfigValid ⟨prot,size,[]⟩ = true)
    {zs : List (Position × PlanFrame)} (hz : ∀ z ∈ zs, IsDir src z.1 ∧ FrameFor src z.1 z.2)
    (hnodup : (zs.map Prod.fst).Nodup) (horder : (zs.map Prod.fst).Pairwise fun a b => ¬Below b a)
    (hlimit : (planEngine cfg t (⟨some ⟨prot,size,[]⟩,false,[dot],[],[]⟩::zs.map
      Prod.snd)).1.limitHit = false) :
    (planEngine cfg t (⟨some ⟨prot,size,[]⟩,false,[dot],[],[]⟩::zs.map Prod.snd)).1.gone =
      (zs.flatMap (planList cfg t prot size)).map Prod.fst := by
  have hready := @ready_configured cfg prot size hdry
  have hran := receivePlans_ran hkinds hrules huse hz hnodup horder _ hready
    (by simp [configured, readConfig, deletePlanSessionCreate])
  set xs := zs.flatMap (planList cfg t prot size) with hxs
  have hfirst : receivePlans cfg t (⟨some ⟨prot,size,[]⟩,false,[dot],[],[]⟩::zs.map Prod.snd)
      (deletePlanSessionCreate cfg) =
        receivePlans cfg t (zs.map Prod.snd) (configured cfg prot size) := by
    rw [receivePlans, receive_config hdry huse hvalid]
    rfl
  rw [planEngine, hfirst] at hlimit ⊢
  by_cases hfit : Fits (!cfg.deleteDelay) (configured cfg prot size) xs.length
  · rw [hran.fits hfit] at hlimit ⊢
    simp only [if_true] at hlimit ⊢
    have hready' := ready_effect hready (!cfg.deleteDelay) xs
    cases hdelay : cfg.deleteDelay with
    | false =>
      rw [hdelay] at hready'
      rw [commit_during hdelay hready', effect_gone]
      rfl
    | true =>
      rw [hdelay] at hready' hlimit
      refine commit_delay hdelay hready' rfl rfl rfl rfl ?_ hlimit
      refine ordered_of_closed (fun x hx => ?_) (plans_nodup hkinds hz hnodup)
        plans_closed [] xs rfl
      obtain ⟨z,-,hx⟩ := List.mem_flatMap.mp hx
      exact (planList_listed x hx).2
  · have hzero : Fits (!cfg.deleteDelay) (configured cfg prot size) 0 := by
      cases cfg.deleteDelay <;> simp [Fits, configured, readConfig, deletePlanSessionCreate]
    have hover := hran.overflows hzero hfit
    split_ifs at hlimit
    · rw [keeps_commit cfg t hover] at hlimit
      cases hlimit
    · rw [hover] at hlimit
      cases hlimit

omit hkinds in
theorem manifestDelete_gone {keeps : List Bytes}
    (hbasis : ∀ b ∈ cfg.basisDirs, b.head? ≠ some slash)
    (hlimit : (manifestDeleteAllObserved cfg t (sourceManifest keeps prot size)).1.budget.limitHit =
      false) :
    (manifestDeleteAllObserved cfg t (sourceManifest keeps prot size)).1.gone =
      removable t (wholeRun cfg prot size keeps) [] := by
  have hmax := effectiveMaxDelete_ne_sizeMax cfg
  obtain ⟨hgone,-,-,hlim⟩ := deleteExtrasLimitedObserved_gone t (wholeRun cfg prot size keeps)
    (effectiveMaxDelete cfg)
  have hskips := deleteSkipsBuild_relative cfg prot size hbasis
  have hmissing : ∀ st : CommitState, (if cfg.deleteMissingArgs then
      deleteMissingArgsBudgetedObserved cfg t [] st else st) = st := by
    intro st
    split_ifs <;> rfl
  have hwalk : extrasWalk cfg t (sourceManifest keeps prot size)
      ⟨⟨effectiveMaxDelete cfg,0,0,false⟩,[],[],true⟩ =
        (deleteExtrasLimitedObserved t (wholeRun cfg prot size keeps) (effectiveMaxDelete cfg)).1 := by
    rw [extrasWalk, prune_nil, if_neg hmax, hrules]
    simp only [sourceManifest, hskips]
    rfl
  rw [manifestDeleteAllObserved, hdry] at hlimit ⊢
  simp only [Bool.false_eq_true, if_false, show (sourceManifest keeps prot size).missing = [] from rfl,
    hmissing, Bool.not_true, huse, if_true, deleteExtrasBudgetedObserved_eq, hwalk, hlim, hgone,
    Bool.false_or, decide_eq_false_iff_not, List.nil_append] at hlimit ⊢
  rw [List.take_of_length_le (not_lt.mp hlimit), allExtras_positions]

/-- Both engines on the whole source agree exactly when no extra stands exposed
in a staging directory of the source; `--delete-during` and `--delete-delay`
are the two values of `cfg.deleteDelay`. -/
theorem planEngine_agrees_iff (adds : List (Position × Bool)) (dirs : List Position)
    (keeps : List Bytes) (hadds : ∀ p isDir, (p, isDir) ∈ adds ↔ EntryAt src p isDir)
    (hdirs : ∀ d, d ∈ dirs ↔ IsDir src d ∧ d ≠ [])
    (hkeeps : ∀ k, k ∈ keeps ↔ ∃ p, Source src p ∧ k = relPath p)
    (hvalid : planConfigValid ⟨prot,size,[]⟩ = true)
    (hbasis : ∀ b ∈ cfg.basisDirs, b.head? ≠ some slash)
    (hplans : (planEngine cfg t (sourceFrames adds dirs prot size)).1.limitHit = false)
    (hwhole : (manifestDeleteAllObserved cfg t (sourceManifest keeps prot size)).1.budget.limitHit =
      false) :
    (∀ p, p ∈ (planEngine cfg t (sourceFrames adds dirs prot size)).1.gone ↔
      p ∈ (manifestDeleteAllObserved cfg t (sourceManifest keeps prot size)).1.gone) ↔
      ¬Exposed cfg src t prot size := by
  obtain ⟨ds,fs,hframes,hfor,hnodup,horder,hall⟩ :=
    deletePlanSendAll_frames hadds hdirs
  have hlen := hfor.length_eq
  have hfst : (ds.zip fs).map Prod.fst = ds := List.map_fst_zip hlen.le
  have hsnd : (ds.zip fs).map Prod.snd = fs := List.map_snd_zip hlen.ge
  have hz : ∀ z ∈ ds.zip fs, IsDir src z.1 ∧ FrameFor src z.1 z.2 := fun z hz =>
    ⟨(hall z.1).mp (List.of_mem_zip hz).1,List.forall₂_zip hfor hz⟩
  have hcover : ∀ d, IsDir src d → ∃ frame, (d, frame) ∈ ds.zip fs := by
    intro d hd
    have hmem : d ∈ (ds.zip fs).map Prod.fst := hfst.symm ▸ (hall d).mpr hd
    obtain ⟨⟨d',frame⟩,hz,rfl⟩ := List.mem_map.mp hmem
    exact ⟨frame,hz⟩
  rw [sourceFrames, hframes, ← hsnd] at hplans ⊢
  rw [planEngine_gone hkinds hrules huse hdry hvalid hz (hfst.symm ▸ hnodup)
    (hfst.symm ▸ horder) hplans, manifestDelete_gone hrules huse hdry hbasis hwhole]
  constructor
  · rintro hsame ⟨hdelay,hstage,p,b,hp,hb,hns,hc⟩
    have hplan := (mem_plans cfg prot size hkinds hz hcover hp).mpr ⟨hns,hc,fun _ => ⟨hstage,hb⟩⟩
    obtain ⟨-,-,hnu⟩ := (removable_iff hkeeps hp).mp ((hsame p).mp hplan)
    obtain ⟨n,q,rfl⟩ := hb
    exact hnu ⟨hdelay,n::q,rfl⟩
  · intro hexp p
    constructor
    · intro hp
      obtain ⟨x,hx,rfl⟩ := List.mem_map.mp hp
      obtain ⟨z,-,hxz⟩ := List.mem_flatMap.mp hx
      have hentry := (planList_listed x hxz).2
      obtain ⟨hns,hc,hst⟩ := (mem_plans cfg prot size hkinds hz hcover hentry).mp hp
      refine (removable_iff hkeeps hentry).mpr ⟨hns,hc,fun hu => hexp ?_⟩
      exact ⟨hu.1,(hst hu).1,x.1,x.2,hentry,(hst hu).2,hns,hc⟩
    · intro hp
      obtain ⟨d,e,hd,he,rfl⟩ := removable_listed _ t p hp
      have hentry := entryAt_child hd he
      obtain ⟨hns,hc,hnu⟩ := (removable_iff hkeeps hentry).mp hp
      exact (mem_plans cfg prot size hkinds hz hcover hentry).mpr ⟨hns,hc,fun hu => absurd hu hnu⟩

end Engines

/-- Deletion is on and updates are staged; nothing else is set. -/
def stagedConfig (delay : Bool) : Config where
  receiveRootDirectory := []
  delayUpdates := true
  basisDirs := []
  protectRules := none
  useDelete := true
  deleteMissingArgs := false
  forceDelete := false
  dryRun := false
  deleteBefore := false
  deleteDuring := !delay
  deleteDelay := delay
  maxDelete := -1

def stagedTree : DirTree Name where
  entries d := if d = [] then [⟨stageName,true⟩] else if d = [stageName] then [⟨nameA,false⟩] else []
  height d := 2-d.length
  names_nodup d := by split_ifs <;> simp
  height_lt d e he hdir := by
    split_ifs at he with h1 h2
    · simp [h1]
    · rw [List.mem_singleton.mp he] at hdir
      cases hdir
    · exact absurd he List.not_mem_nil

/-- With an empty source directory of the staging name the plans remove the
file, in either mode, and the whole-tree walk keeps it. -/
theorem planEngine_staging_divergence :
    ([stageName,nameA] ∈ (planEngine (stagedConfig false) stagedTree
        (sourceFrames [([stageName], true)] [[stageName]] [] [])).1.gone ∧
      (planEngine (stagedConfig false) stagedTree
        (sourceFrames [([stageName], true)] [[stageName]] [] [])).1.limitHit = false ∧
      (manifestDeleteAllObserved (stagedConfig false) stagedTree
        (sourceManifest [delayUpdatesStagingDir] [] [])).1.gone = [] ∧
      (manifestDeleteAllObserved (stagedConfig false) stagedTree
        (sourceManifest [delayUpdatesStagingDir] [] [])).1.budget.limitHit = false) ∧
    [stageName,nameA] ∈ (planEngine (stagedConfig true) stagedTree
        (sourceFrames [([stageName], true)] [[stageName]] [] [])).1.gone ∧
      (planEngine (stagedConfig true) stagedTree
        (sourceFrames [([stageName], true)] [[stageName]] [] [])).1.limitHit = false ∧
      (manifestDeleteAllObserved (stagedConfig true) stagedTree
        (sourceManifest [delayUpdatesStagingDir] [] [])).1.gone = [] ∧
      (manifestDeleteAllObserved (stagedConfig true) stagedTree
        (sourceManifest [delayUpdatesStagingDir] [] [])).1.budget.limitHit = false := by
  decide +kernel

def emptyTree : DirTree Name where
  entries _ := []
  height _ := 0
  names_nodup _ := List.nodup_nil
  height_lt _ _ he := absurd he List.not_mem_nil

theorem emptyTree_entry {p : Position} {b : Bool} : ¬EntryAt emptyTree p b := by
  rintro ⟨d,e,-,he,-⟩
  exact absurd he List.not_mem_nil

theorem emptyTree_dir {d : Position} : IsDir emptyTree d ↔ d = [] := by
  rw [isDir_iff]
  exact or_iff_left emptyTree_entry

theorem planEngine_agrees_empty_source :
    [nameA] ∈ (planEngine (stagedConfig true) loneFileTree (sourceFrames [] [] [] [])).1.gone ∧
      ∀ p, p ∈ (planEngine (stagedConfig true) loneFileTree (sourceFrames [] [] [] [])).1.gone ↔
        p ∈ (manifestDeleteAllObserved (stagedConfig true) loneFileTree
          (sourceManifest [] [] [])).1.gone := by
  have hsource : ∀ q, ¬Source emptyTree q := fun q ⟨b,h⟩ => emptyTree_entry h
  have hiff := @planEngine_agrees_iff (stagedConfig true) emptyTree loneFileTree [] [] (fun q b b' h => absurd h emptyTree_entry)
    rfl rfl rfl [] [] [] (fun q b => by simp [emptyTree_entry]) (fun d => by simp [emptyTree_dir])
    (fun k => by simp [hsource]) rfl (by simp [stagedConfig]) (by decide +kernel)
    (by decide +kernel)
  refine ⟨by decide +kernel,hiff.mpr ?_⟩
  rintro ⟨-,hstage,-⟩
  exact absurd (emptyTree_dir.mp hstage) (by simp)

end FastSync.DeleteEngineSpec
