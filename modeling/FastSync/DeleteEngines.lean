import FastSync.DeleteSpec
import FastSync.DeletePlanFrames
import FastSync.DeleteSessionRun

/-!
# The two delete engines on one source and one destination

Both engines remove the destination entries that are no source entries and
hold no protected entry. They differ on the reserved staging directory only:
the whole-tree walk never enters it, and the plans do when the source has a
directory of that name.
-/

set_option autoImplicit false

namespace FastSync.DeleteEngines
open FiniteTree DeletePaths DeleteExtras
open DeleteListing DeleteSpec DeletePlan DeletePlanFrames
open DeleteCommit
open DeleteSession DeleteSessionRun

def stageName : Name := ⟨delayUpdatesStagingDir,by decide⟩

/-- A skip entry that counts at any depth covers the position. -/
def Covered (skips : List DeleteSkipEntry) (p : Position) : Prop :=
  pathUnderSkipPrefix (relPath p) false skips = true

def Clear (t : DirTree Name) (skips : List DeleteSkipEntry) (p : Position) : Prop :=
  ∀ q b, EntryAt t q b → q = p ∨ Below p q → ¬Covered skips q

def Source (src : DirTree Name) (p : Position) : Prop := ∃ b, EntryAt src p b

def UnderStage (cfg : Config) (p : Position) : Prop :=
  cfg.delayUpdates = true ∧ ∃ q, p = stageName::q

variable {p : Position}

theorem source_below {src : DirTree Name} {q : Position} (hp : p ≠ []) (h : Source src q) (hb : Below p q) :
    Source src p := by
  obtain ⟨b,hq⟩ := h
  exact ⟨true,isDir_entry (entryAt_above hq hb) hp⟩

theorem underStage_below {cfg : Config} {q : Position} (hp : p ≠ []) (hb : Below p q) :
    UnderStage cfg q ↔ UnderStage cfg p := by
  obtain ⟨m,s,rfl⟩ := hb
  cases p with
  | nil => exact absurd rfl hp
  | cons a p => simp [UnderStage]

theorem covered_below {skips : List DeleteSkipEntry} {q : Position} (hq : q ≠ [])
    (h : Covered skips q) (hb : Below q p) : Covered skips p := by
  obtain ⟨s,hs,ht,hc⟩ := pathUnderSkipPrefix_iff.mp h
  exact pathUnderSkipPrefix_iff.mpr ⟨s,hs,ht,skipCovers_below hq hc hb⟩

variable {b : Bool}

theorem clear_iff (t : DirTree Name) {skips : List DeleteSkipEntry} (h : EntryAt t p b) :
    Clear t skips p ↔ ¬Covered skips p ∧
      (b = true → ∀ c ∈ t.entries p, Clear t skips (p++[c.name])) := by
  constructor
  · intro hc
    refine ⟨hc p b h (.inl rfl),fun _ c _ q k hq hqc => hc q k hq (.inr ?_)⟩
    rcases hqc with rfl | hqc
    · exact below_self p c.name
    · exact below_child hqc
  · rintro ⟨hp,hall⟩ q k hq (rfl | hqp)
    · exact hp
    · have hb := entryAt_kind h (isDir_entry (entryAt_above hq hqp) (entryAt_ne_nil h))
      obtain ⟨c,hc,⟨hqc,-⟩ | ⟨hqc,-⟩⟩ := below_entry hq hqp
      · exact hall hb c hc q k hq (.inl hqc)
      · exact hall hb c hc q k hq (.inr hqc)

section Strict
variable (t : DirTree Name) (skips : PlanSkips)

theorem unkept_strict (p : Position) (b : Bool) : Unkept (strictRun skips) p b := by
  simp [Unkept,strictRun]

theorem syncedAbove_strict (d : Position) (n : Name) :
    syncedAbove (strictRun skips) (d++[n]) = true := by
  rw [syncedAbove_child]
  simp [strictRun,isSyncedDir]

variable (hrules : skips.protectRules = none)
include hrules

theorem shielded_strict {d : Position} (hd : d ≠ []) (e : DeleteDirEntry) :
    shielded (strictRun skips) d e = false ↔ ¬Covered skips.entries (d++[e.name]) := by
  rw [shielded,Covered,decide_eq_false hd]
  simp [strictRun,hrules,ruleProtects]

theorem removable_strict (q p : Position) (b : Bool) (hq : q ≠ []) (h : EntryAt t p b)
    (hb : Below q p) : p ∈ removable t (strictRun skips) q ↔ Clear t skips.entries p := by
  induction hk : t.height q using Nat.strong_induction_on generalizing q p b with
  | _ k ih =>
    obtain ⟨e,he,hcase⟩ := below_entry h hb
    rcases hcase with ⟨rfl,rfl⟩ | ⟨hbe,hdir⟩
    · rw [removable_child t _ q he,shielded_strict skips hrules hq,clear_iff t h]
      simp only [syncedAbove_strict skips,unkept_strict skips,true_and]
      refine and_congr_right fun _ => forall_congr' fun hdir => forall₂_congr fun c hc => ?_
      have hd : IsDir t (q++[e.name]) := isDir_iff.mpr (.inr (hdir ▸ h))
      exact ih _ (hk ▸ t.height_lt q e he hdir) _ _ _ (by simp) (entryAt_child hd hc)
        (below_self _ _) rfl
    · rw [removable_deeper t _ q he hdir hbe,shielded_strict skips hrules hq,
        ih _ (hk ▸ t.height_lt q e he hdir) _ p b (by simp) h hbe rfl]
      refine and_iff_right_of_imp fun hc hcov => ?_
      exact hc p b h (.inl rfl) (covered_below (by simp) hcov hbe)

end Strict

section Skips
variable (cfg : Config) (prot size : List Bytes)

/-- With relative basis directories both engines protect the same prefixes. -/
theorem deleteSkipsBuild_relative (hbasis : ∀ b ∈ cfg.basisDirs, b.head? ≠ some slash) :
    deleteSkipsBuild cfg (prot++size) [] true = deleteSkipsBuild cfg prot size false := by
  have hsame : ∀ bs : List Bytes, (∀ b ∈ bs, b.head? ≠ some slash) →
      bs.filterMap (deleteBasisRelative cfg) = bs := by
    intro bs hbs
    induction bs with
    | nil => rfl
    | cons b bs ih =>
      have hb : deleteBasisRelative cfg b = some b := if_pos (hbs b (by simp))
      rw [List.filterMap_cons,hb,ih fun c hc => hbs c (List.mem_cons_of_mem _ hc)]
  simp [deleteSkipsBuild,hsame _ hbasis]

theorem skipCovers_stage {n : Name} :
    skipCovers ⟨delayUpdatesStagingDir,true⟩ n.1 = true ↔ n = stageName := by
  rw [skipCovers,Bool.and_eq_true,List.isPrefixOf_iff_prefix]
  constructor
  · rintro ⟨⟨rest,hrest⟩,hd⟩
    rw [← hrest,List.drop_left] at hd
    cases rest with
    | nil =>
      exact Subtype.ext hrest.symm
    | cons b rest =>
      refine absurd ?_ n.2.2.1
      rw [← hrest,of_decide_eq_true hd]
      simp
  · rintro rfl
    exact ⟨List.prefix_refl _,by simp [stageName]⟩

theorem topLevel_skips (n : Name) :
    pathUnderSkipPrefix n.1 true (deleteSkipsBuild cfg prot size false) = true ↔
      Covered (deleteSkipsBuild cfg prot size false) [n] ∨
        cfg.delayUpdates = true ∧ n = stageName := by
  have hkind : ∀ s ∈ deleteSkipsBuild cfg prot size false, s.topLevelOnly = true →
      cfg.delayUpdates = true ∧ s = ⟨delayUpdatesStagingDir,true⟩ := by
    intro s hs htop
    simp only [deleteSkipsBuild,Bool.false_eq_true,if_false,List.mem_append,List.mem_map] at hs
    rcases hs with ((hs | ⟨b,-,rfl⟩) | ⟨b,-,rfl⟩) | ⟨b,-,rfl⟩
    · split_ifs at hs with hdelay
      · exact ⟨hdelay,List.mem_singleton.mp hs⟩
      · exact absurd hs List.not_mem_nil
    all_goals cases htop
  rw [Covered,pathUnderSkipPrefix_iff,pathUnderSkipPrefix_iff]
  constructor
  · rintro ⟨s,hs,-,hc⟩
    cases htop : s.topLevelOnly with
    | false => exact .inl ⟨s,hs,by simp [htop],hc⟩
    | true =>
      obtain ⟨hdelay,rfl⟩ := hkind s hs htop
      exact .inr ⟨hdelay,skipCovers_stage.mp hc⟩
  · rintro (⟨s,hs,-,hc⟩ | ⟨hdelay,hn⟩)
    · exact ⟨s,hs,by simp,hc⟩
    · refine ⟨⟨delayUpdatesStagingDir,true⟩,?_,by simp,skipCovers_stage.mpr hn⟩
      simp [deleteSkipsBuild,hdelay]

end Skips

section Whole
variable (cfg : Config) (src t : DirTree Name) (prot size : List Bytes) (keeps : List Bytes)

def wholeRun : DeleteRun :=
  ⟨⟨keeps⟩,some ⟨[[dot]]⟩,deleteSkipsBuild cfg prot size false,none⟩

variable (hkeeps : ∀ k, k ∈ keeps ↔ ∃ p, Source src p ∧ k = relPath p)

theorem shielded_whole (h : EntryAt t p b) :
    Shielded t (wholeRun cfg prot size keeps) p ↔
      Covered (deleteSkipsBuild cfg prot size false) p ∨ UnderStage cfg p := by
  have hstep : ∀ d (e : DeleteDirEntry), shielded (wholeRun cfg prot size keeps) d e = true ↔
      Covered (deleteSkipsBuild cfg prot size false) (d++[e.name]) ∨
        cfg.delayUpdates = true ∧ d = [] ∧ e.name = stageName := by
    intro d e
    by_cases hd : d = []
    · subst hd
      have := topLevel_skips cfg prot size e.name
      simpa [shielded,wholeRun,ruleProtects,relPath_root_child] using this
    · simp [shielded,wholeRun,ruleProtects,hd,Covered]
  constructor
  · rintro ⟨d,e,q,rfl,he,hs⟩
    rcases (hstep d e).mp hs with hc | ⟨hdelay,rfl,hn⟩
    · refine .inl ?_
      cases q with
      | nil => exact hc
      | cons n q => exact covered_below (by simp) hc ⟨n,q,by simp⟩
    · exact .inr ⟨hdelay,q,by rw [hn]; rfl⟩
  · rintro (hc | ⟨hdelay,q,rfl⟩)
    · obtain ⟨d,e,-,he,rfl,-⟩ := h
      exact ⟨d,e,[],rfl,he,(hstep d e).mpr (.inl hc)⟩
    · obtain ⟨e,he,hcase⟩ := below_entry (q := []) h ⟨stageName,q,rfl⟩
      have hn : e.name = stageName := entry_name (d := []) hcase
      exact ⟨[],e,q,by rw [hn]; rfl,he,(hstep [] e).mpr (.inr ⟨hdelay,rfl,hn⟩)⟩

include hkeeps

theorem unkept_whole (h : EntryAt t p b) :
    Unkept (wholeRun cfg prot size keeps) p b ↔ ¬Source src p := by
  have hmem : relPath p ∈ keeps ↔ Source src p := by
    rw [hkeeps]
    constructor
    · rintro ⟨q,hq,he⟩
      rw [relPath_injective he]
      exact hq
    · exact fun hp => ⟨p,hp,rfl⟩
  have hp := entryAt_ne_nil h
  unfold Unkept
  rw [show (wholeRun cfg prot size keeps).keep.items = keeps from rfl,hmem]
  refine and_iff_left_of_imp fun hns _ => ⟨?_,?_⟩
  · rintro ds hds
    obtain rfl : ds = ⟨[[dot]]⟩ := by simpa [wholeRun] using hds.symm
    simpa using relPath_ne_dot p
  · intro k hk hpre
    obtain ⟨q,⟨b',hq⟩,rfl⟩ := (hkeeps k).mp hk
    have hd := entryAt_above hq (below_of_relPath hp hpre)
    exact hns ⟨true,isDir_entry hd hp⟩

theorem removable_whole (d : Position) (hd : IsDir t d) (e : DeleteDirEntry)
    (he : e ∈ t.entries d) :
    d++[e.name] ∈ removable t (wholeRun cfg prot size keeps) [] ↔ ¬Source src (d++[e.name]) ∧
      Clear t (deleteSkipsBuild cfg prot size false) (d++[e.name]) ∧
      ¬UnderStage cfg (d++[e.name]) := by
  induction hk : t.height d using Nat.strong_induction_on generalizing d e with
  | _ k ih =>
    have hentry := entryAt_child hd he
    have hsynced : syncedAbove (wholeRun cfg prot size keeps) (d++[e.name]) = true := by
      rw [syncedAbove_iff]
      refine ⟨[],?_,by simp [isSyncedDir,wholeRun,pathIndexContains,relPath_nil]⟩
      cases d with
      | nil => exact below_self [] e.name
      | cons a d => exact ⟨a,d++[e.name],rfl⟩
    rw [mem_removable t _ d hd e he,shielded_whole cfg t prot size keeps hentry,
      unkept_whole cfg src t prot size keeps hkeeps hentry,clear_iff t hentry,not_or]
    have hchild : ¬Source src (d++[e.name]) → ¬UnderStage cfg (d++[e.name]) →
        ((e.isDir = true → ∀ c ∈ t.entries (d++[e.name]),
          d++[e.name]++[c.name] ∈ removable t (wholeRun cfg prot size keeps) []) ↔
        (e.isDir = true → ∀ c ∈ t.entries (d++[e.name]),
          Clear t (deleteSkipsBuild cfg prot size false) (d++[e.name]++[c.name]))) := by
      intro hns hnu
      refine forall_congr' fun hdir => forall₂_congr fun c hc => ?_
      have hb := below_self (d++[e.name]) c.name
      rw [ih _ (hk ▸ t.height_lt d e he hdir) _ (.child d e hd he hdir) c hc rfl]
      have h1 : ¬Source src (d++[e.name]++[c.name]) := fun h => hns (source_below (by simp) h hb)
      have h2 : ¬UnderStage cfg (d++[e.name]++[c.name]) := fun h =>
        hnu ((underStage_below (by simp) hb).mp h)
      exact ⟨fun h => h.2.1,fun h => ⟨h1,h,h2⟩⟩
    constructor
    · rintro ⟨⟨hc,hu⟩,-,hs,hall⟩
      exact ⟨hs,⟨hc,(hchild hs hu).mp hall⟩,hu⟩
    · rintro ⟨hs,⟨hc,hall⟩,hu⟩
      exact ⟨⟨hc,hu⟩,hsynced,hs,(hchild hs hu).mpr hall⟩

end Whole

variable {d : Position} {frame : PlanFrame}

section Plans
variable (cfg : Config) (src t : DirTree Name) (prot size : List Bytes)

def planSkips : PlanSkips := ⟨deleteSkipsBuild cfg prot size false,none⟩

/-- No path is a directory on one side and a non-directory on the other. -/
def SameKinds : Prop := ∀ p b b', EntryAt src p b → EntryAt t p b' → b = b'

def planExtras (d : Position) (frame : PlanFrame) : List Extra × Bool :=
  levelExtras t (planSkips cfg prot size) (t.height d) d (some ⟨frame.dirs,frame.files⟩)
    (decide (dirName d = [dot]))

theorem underStage_top {e : DeleteDirEntry} (hp : p = d++[e.name] ∨ Below (d++[e.name]) p) :
    (d = [] ∧ UnderStage cfg p) ↔ (d = [] ∧ cfg.delayUpdates = true ∧ e.name = stageName) := by
  refine and_congr_right fun hd => and_congr_right fun _ => ?_
  subst hd
  rcases hp with rfl | ⟨m,s,rfl⟩ <;> simp

variable {src t}
variable (hkinds : SameKinds src t)
include hkinds

theorem source_kind (h : EntryAt t p b) : Source src p ↔ EntryAt src p b := by
  constructor
  · rintro ⟨b',hb'⟩
    rw [hkinds p b' b hb' h] at hb'
    exact hb'
  · exact fun h => ⟨b,h⟩

section
variable (hf : FrameFor src d frame) (hd : IsDir t d) (e : DeleteDirEntry) (he : e ∈ t.entries d)
include hf hd he

theorem planVerdict_extra :
    planVerdict (planSkips cfg prot size) (dirName d) (some ⟨frame.dirs,frame.files⟩)
        (decide (dirName d = [dot])) e = .extra ↔
      ¬Covered (deleteSkipsBuild cfg prot size false) (d++[e.name]) ∧
        ¬(d = [] ∧ cfg.delayUpdates = true ∧ e.name = stageName) ∧ ¬Source src (d++[e.name]) := by
  have hroot : decide (dirName d = [dot]) = decide (d = []) := by
    rw [decide_eq_decide]
    exact ⟨fun h => dirName_injective (h.trans rfl),fun h => by rw [h]; rfl⟩
  have hskip : pathUnderSkipPrefix (relPath (d++[e.name])) (decide (d = []))
      (deleteSkipsBuild cfg prot size false) = true ↔
        Covered (deleteSkipsBuild cfg prot size false) (d++[e.name]) ∨
          d = [] ∧ cfg.delayUpdates = true ∧ e.name = stageName := by
    by_cases h0 : d = []
    · subst h0
      simpa [relPath_root_child] using topLevel_skips cfg prot size e.name
    · simp [h0,Covered]
  have hname : ∀ b, (∃ n : Name, e.name.1 = n.1 ∧ EntryAt src (d++[n]) b) ↔
      EntryAt src (d++[e.name]) b := fun b =>
    ⟨fun ⟨n,hn,h⟩ => by rw [Subtype.ext hn]; exact h,fun h => ⟨e.name,rfl,h⟩⟩
  have hkeep : ((e.isDir && listContainsStr ((some (⟨frame.dirs,frame.files⟩ : KeepLists)).map
      KeepLists.dirs) e.name.1) || (!e.isDir && listContainsStr
        ((some (⟨frame.dirs,frame.files⟩ : KeepLists)).map KeepLists.files) e.name.1)) = true ↔
      Source src (d++[e.name]) := by
    rw [source_kind hkinds (entryAt_child hd he)]
    cases e.isDir
    · simp [listContainsStr,hf.files,hname]
    · simp [listContainsStr,hf.dirs,hname]
  rw [planVerdict,planChildRel_dirName,hroot,
    show (planSkips cfg prot size).entries = deleteSkipsBuild cfg prot size false from rfl,
    show ruleProtects (planSkips cfg prot size).protectRules (relPath (d++[e.name])) e.name.1
      e.isDir = false from rfl,Bool.or_false]
  split_ifs with h1 h2
  · simp only [false_iff]
    rintro ⟨hc,hs,-⟩
    exact (hskip.mp h1).elim hc hs
  · simp only [false_iff]
    exact fun h => h.2.2 (hkeep.mp h2)
  · simp only [true_iff]
    rw [hskip,not_or] at h1
    exact ⟨h1.1,h1.2,fun h => h2 (hkeep.mpr h)⟩

/-- The plan of a directory takes, below one of its entries, everything that
holds nothing covered, unless the entry is in the source or is the staging
directory of the root. -/
theorem mem_planExtras {p : Position} {b : Bool} (hentry : EntryAt t p b)
    (hp : p = d++[e.name] ∧ e.isDir = b ∨ Below (d++[e.name]) p ∧ e.isDir = true) :
    p ∈ (planExtras cfg t prot size d frame).1.map Prod.fst ↔
      Clear t (deleteSkipsBuild cfg prot size false) p ∧ ¬Source src (d++[e.name]) ∧
        ¬(d = [] ∧ UnderStage cfg p) := by
  have hsub : ∀ c : DeleteDirEntry, ∀ x ∈ (extrasBelow t (strictRun (planSkips cfg prot size))
      (t.height d) (d++[c.name]) (relPath (d++[c.name])) true).1, Below (d++[c.name]) x.1 :=
    fun c => extrasBelow_below t _ _ _ _ _
  have hv := planVerdict_extra cfg prot size hkinds hf hd e he
  have hrest : e.isDir = true → ∀ q k, EntryAt t q k → Below (d++[e.name]) q →
      (q ∈ (extrasBelow t (strictRun (planSkips cfg prot size)) (t.height d) (d++[e.name])
        (relPath (d++[e.name])) true).1.map Prod.fst ↔
          Clear t (deleteSkipsBuild cfg prot size false) q) := by
    intro hdir q k hq hqb
    have hr := removable_strict t (planSkips cfg prot size) rfl _ q k (by simp) hq hqb
    rw [removable,syncedAbove_strict,extrasBelow_fuel t _ _ (t.height d) _ _ _ (by omega)
      (t.height_lt d e he hdir)] at hr
    exact hr
  have hflag : e.isDir = true → ((extrasBelow t (strictRun (planSkips cfg prot size)) (t.height d)
      (d++[e.name]) (relPath (d++[e.name])) true).2 = true ↔
        ∀ c ∈ t.entries (d++[e.name]),
          Clear t (deleteSkipsBuild cfg prot size false) (d++[e.name]++[c.name])) := by
    intro hdir
    have hfuel := extrasBelow_fuel t (strictRun (planSkips cfg prot size)) (t.height d)
      (t.height (d++[e.name])+1) (d++[e.name]) (relPath (d++[e.name])) true
      (t.height_lt d e he hdir) (by omega)
    rw [hfuel,extrasBelow_flag,← hfuel]
    refine forall₂_congr fun c hc => ?_
    exact hrest hdir _ c.isDir (entryAt_child (.child d e hd he hdir) hc) (below_self _ _)
  rw [underStage_top cfg (hp.imp And.left And.left)]
  rcases hp with ⟨rfl,rfl⟩ | ⟨hpb,hdir⟩
  · rw [planExtras,levelExtras,mem_entriesExtras_child t _ d _ hsub e he,hv,clear_iff t hentry]
    constructor
    · rintro ⟨⟨hc,hs,hsrc⟩,hfl⟩
      exact ⟨⟨hc,fun hdir => (hflag hdir).mp (hfl hdir)⟩,hsrc,hs⟩
    · rintro ⟨⟨hc,hall⟩,hsrc,hs⟩
      exact ⟨⟨hc,hs,hsrc⟩,fun hdir => (hflag hdir).mpr (hall hdir)⟩
  · rw [planExtras,levelExtras,mem_entriesExtras_deeper t _ d _ hsub e he hdir p hpb,
      hrest hdir p b hentry hpb]
    rw [planVerdict_unshielded,hv]
    constructor
    · rintro ⟨⟨-,hs,hsrc⟩,hc⟩
      exact ⟨hc,hsrc,hs⟩
    · rintro ⟨hc,hsrc,hs⟩
      refine ⟨⟨fun hcov => ?_,hs,hsrc⟩,hc⟩
      exact hc p b hentry (.inl rfl) (covered_below (by simp) hcov hpb)

end

end Plans

theorem exists_boundary {src : DirTree Name} {p : Position} (hp : ¬IsDir src p) :
    ∃ d n q, p = d++n::q ∧ IsDir src d ∧ ¬IsDir src (d++[n]) := by
  induction p using List.reverseRecOn with
  | nil => exact absurd .root hp
  | append_singleton p n ih =>
    by_cases hd : IsDir src p
    · exact ⟨p,n,[],rfl,hd,hp⟩
    · obtain ⟨d,m,q,rfl,hdir,hm⟩ := ih hd
      exact ⟨d,m,q++[n],by simp,hdir,hm⟩

theorem stat_iff_isDir {t : DirTree Name} {d : Position} : stat t [] [] d = some true ↔ IsDir t d :=
  ⟨fun h => by simpa using isDir_of_stat t [] d .root h,
    fun h => stat_isDir t [] d (by simpa using h) fun q _ _ => List.not_mem_nil⟩

section Union
variable (cfg : Config) (src t : DirTree Name) (prot size : List Bytes)

def planList (z : Position × PlanFrame) : List Extra :=
  if stat t [] [] z.1 = some true then (planExtras cfg t prot size z.1 z.2).1 else []

def PlanRemoves (p : Position) : Prop :=
  ¬Source src p ∧ Clear t (deleteSkipsBuild cfg prot size false) p ∧
    (UnderStage cfg p → IsDir src [stageName] ∧ Below [stageName] p)

theorem planExtras_below {d : Position} {frame : PlanFrame} :
    ∀ x ∈ (planExtras cfg t prot size d frame).1, Below d x.1 := by
  intro x hx
  obtain ⟨e,-,hx⟩ := List.mem_flatMap.mp hx
  rcases contribution_within (extrasBelow_below t _ _ _ _ _) x hx with hb | he
  · exact below_child hb
  · rw [he]
    exact below_self d e.name

variable {src t}
variable (hkinds : SameKinds src t)
include hkinds

/-- One plan takes nothing that is in the source, and below a directory of the
source it takes nothing another plan should. -/
theorem planExtras_outside (hf : FrameFor src d frame) (hd : IsDir t d) (hentry : EntryAt t p b)
    (hp : p ∈ (planExtras cfg t prot size d frame).1.map Prod.fst) :
    Below d p ∧ ¬Source src p ∧ Clear t (deleteSkipsBuild cfg prot size false) p ∧
      ¬(d = [] ∧ UnderStage cfg p) ∧ ∀ q, Below d q → Below q p → ¬IsDir src q := by
  obtain ⟨x,hx,rfl⟩ := List.mem_map.mp hp
  have hb := planExtras_below cfg t prot size x hx
  obtain ⟨e,he,hcase⟩ := below_entry hentry hb
  obtain ⟨hc,hs,hst⟩ := (mem_planExtras cfg prot size hkinds hf hd e he hentry hcase).mp hp
  have hsrc : ∀ q, q = d++[e.name] ∨ Below (d++[e.name]) q → ¬Source src q := by
    rintro q (rfl | hq) hq'
    · exact hs hq'
    · exact hs (source_below (by simp) hq' hq)
  refine ⟨hb,hsrc _ (hcase.imp And.left And.left),hc,hst,fun q hq hqp hdir => ?_⟩
  obtain ⟨m,s,rfl⟩ := hq
  have hm : e.name = m := by
    obtain ⟨k,r,hk⟩ := hqp
    rw [hk,List.append_assoc] at hcase
    exact entry_name hcase
  subst hm
  have hne : d++e.name::s ≠ [] := by simp
  refine hsrc (d++e.name::s) ?_ ⟨true,isDir_entry hdir hne⟩
  cases s with
  | nil => exact .inl rfl
  | cons k s => exact .inr ⟨k,s,by simp⟩

/-- The plans of all source directories remove exactly the entries outside the
source that hold nothing covered, but for the staging directory. -/
theorem mem_plans {zs : List (Position × PlanFrame)}
    (hz : ∀ z ∈ zs, IsDir src z.1 ∧ FrameFor src z.1 z.2)
    (hall : ∀ d, IsDir src d → ∃ frame, (d, frame) ∈ zs) (hentry : EntryAt t p b) :
    p ∈ (zs.flatMap (planList cfg t prot size)).map Prod.fst ↔
      PlanRemoves cfg src t prot size p := by
  rw [List.map_flatMap,List.mem_flatMap]
  constructor
  · rintro ⟨z,hzs,hp⟩
    unfold planList at hp
    split_ifs at hp with hst
    · have hd := stat_iff_isDir.mp hst
      obtain ⟨hb,hs,hc,hroot,-⟩ := planExtras_outside cfg prot size hkinds (hz z hzs).2 hd hentry hp
      refine ⟨hs,hc,fun hu => ?_⟩
      have hne : z.1 ≠ [] := fun h0 => hroot ⟨h0,hu⟩
      obtain ⟨-,q,hq⟩ := hu
      obtain ⟨m,r,hm⟩ := hb
      obtain ⟨a,d',hd'⟩ := List.exists_cons_of_ne_nil hne
      have hsd := (hz z hzs).1
      rw [hd'] at hm hsd
      rw [hq,List.cons_append] at hm
      obtain ⟨rfl,hq'⟩ := List.cons.inj hm
      constructor
      · cases d' with
        | nil => exact hsd
        | cons k d' =>
          exact entryAt_above (isDir_entry hsd (by simp)) ⟨k,d',rfl⟩
      · rw [hq]
        cases d' with
        | nil => exact ⟨m,r,by rw [hq']; rfl⟩
        | cons k d' => exact ⟨k,d'++m::r,by rw [hq']; rfl⟩
    · simp at hp
  · rintro ⟨hs,hc,hstage⟩
    have hpd : ¬IsDir src p := by
      intro h
      exact hs ⟨true,isDir_entry h (entryAt_ne_nil hentry)⟩
    obtain ⟨d,n,q,rfl,hd,hn⟩ := exists_boundary hpd
    have hdt : IsDir t d := entryAt_above hentry ⟨n,q,rfl⟩
    obtain ⟨frame,hframe⟩ := hall d hd
    refine ⟨(d, frame),hframe,?_⟩
    rw [planList,if_pos (stat_iff_isDir.mpr hdt)]
    obtain ⟨e,he,hcase⟩ := below_entry hentry ⟨n,q,rfl⟩
    have hen := entry_name hcase
    refine (mem_planExtras cfg prot size hkinds (hz _ hframe).2 hdt e he hentry hcase).mpr
      ⟨hc,?_,?_⟩
    · -- the entry under the last source directory is itself outside the source
      rw [hen]
      intro hsrc
      rcases hcase with ⟨hp,-⟩ | ⟨hp,hdir⟩
      · rw [hen] at hp
        exact hs (hp ▸ hsrc)
      · have hkind := (source_kind hkinds (entryAt_child hdt he)).mp (hen ▸ hsrc)
        rw [hdir,hen] at hkind
        exact hn (isDir_iff.mpr (.inr hkind))
    · rintro ⟨rfl,hu⟩
      have hroot := (hstage hu).1
      obtain ⟨-,q',hq'⟩ := hu
      obtain ⟨rfl,-⟩ := List.cons.inj hq'
      exact hn hroot

end Union

end FastSync.DeleteEngines
