import FastSync.DeleteBound
import FastSync.DeleteEngines

/-!
# Missing arguments and the receiver's own directories

The mirror of a missing argument is removed by its path, and a test on the text
of that path protects the basis directories and the staging directory. The entry
that is removed is the one the path leads to, with everything below it. The two
agree on a set of requests exactly when every request spares these directories.
-/

set_option autoImplicit false

namespace FastSync.MissingArtifacts
open FiniteTree DeletePaths DeleteWalk DeleteExtras
open DeleteSpec DeleteCommit DeleteBound DeleteEngines

section Artifacts

def basisPosition (cfg : Config) (path : Bytes) : Option Position :=
  if path.head? ≠ some slash then resolve (components path)
  else if cfg.receiveRootDirectory.head? ≠ some slash then none
  else do
    let basis ← resolve (components path)
    let root ← resolve (components cfg.receiveRootDirectory)
    if root <+: basis then some (basis.drop root.length) else none

/-- At or below a basis directory, or the staging directory of delayed updates. -/
def Artifact (cfg : Config) (p : Position) : Prop :=
  (∃ path ∈ cfg.basisDirs, ∃ b, basisPosition cfg path = some b ∧ b ≠ [] ∧ (p = b ∨ Below b p)) ∨
    UnderStage cfg p

theorem below_trans {a b p : Position} (h1 : Below a b) (h2 : Below b p) : Below a p := by
  obtain ⟨m,s,rfl⟩ := h1
  obtain ⟨n,r,rfl⟩ := h2
  exact ⟨m,s++n::r,by simp⟩

theorem artifact_below {cfg : Config} {p q : Position} (h : Artifact cfg p) (hb : Below p q) :
    Artifact cfg q := by
  rcases h with ⟨path,hpath,b,hbasis,hne,rfl | hpb⟩ | hstage
  · exact .inl ⟨path,hpath,p,hbasis,hne,.inr hb⟩
  · exact .inl ⟨path,hpath,b,hbasis,hne,.inr (below_trans hpb hb)⟩
  · have hp : p ≠ [] := by
      obtain ⟨_,s,rfl⟩ := hstage
      simp
    exact .inr ((underStage_below hp hb).mpr hstage)

end Artifacts

section Paths
variable (t : DirTree Name)

section
variable {gone : List Position}

theorem statLeaf_inv {rel : Bytes} {q : Position} {b : Bool} (h : statLeaf t gone rel = .entry q b) :
    EntryAt t q b ∧ q ∉ gone ∧ statLeaf t [] rel = .entry q b := by
  unfold statLeaf at h ⊢
  dsimp only at h ⊢
  split at h
  · cases h
  rename_i d hd
  split_ifs at h with hgone hself
  split at h
  · cases h
  rename_i n hn
  split at h
  · cases h
  rename_i isDir hstat
  obtain ⟨rfl,rfl⟩ := LeafStat.entry.inj h
  rw [not_or, not_not] at hgone
  have hdir : IsDir t d := by
    have := isDir_of_stat t [] d .root hgone.1
    rwa [List.nil_append] at this
  obtain ⟨e,he,rfl,rfl,hout⟩ := stat_single t hstat
  have hroot : stat t [] [] d = some true :=
    stat_isDir t [] d hdir fun _ _ _ => List.not_mem_nil
  have hleaf : stat t [] d [e.name] = some e.isDir := stat_child t he List.not_mem_nil
  refine ⟨entryAt_child hdir he,hout,?_⟩
  simp only [hroot, hgone.2, hself, hleaf]
  simp

theorem isDir_subtree {q d : Position} (hq : IsDir t q) (h : IsDir (subtree (prune t gone) q) d) :
    IsDir t (q++d) := by
  induction h with
  | root => rwa [List.append_nil]
  | child d e _ he hdir ih =>
    rw [← List.append_assoc]
    exact .child (q++d) e ih (List.mem_of_mem_filter he) hdir

theorem listed_subtree {q x : Position} (hq : IsDir t q) (h : Listed (subtree (prune t gone) q) x) :
    Below q (q++x) ∧ Listed t (q++x) := by
  obtain ⟨d,e,hd,he,rfl⟩ := h
  refine ⟨?_,q++d,e,isDir_subtree t hq hd,List.mem_of_mem_filter he,by simp⟩
  cases d with
  | nil => exact below_self q e.name
  | cons n d => exact ⟨n,d++[e.name],by simp⟩

end

theorem isDir_into {q d : Position} (h : IsDir t (q++d)) : IsDir (subtree t q) d := by
  induction d using List.reverseRecOn with
  | nil => exact .root
  | append_singleton d n ih =>
    rw [← List.append_assoc] at h
    have hentry : EntryAt t (q++d++[n]) true := isDir_entry h (by simp)
    obtain ⟨e,he,rfl,hdir⟩ := entryAt_mem hentry
    exact .child d e (ih (entryAt_parent hentry)) he hdir

theorem listed_into {q p : Position} (hb : Below q p) (h : Listed t p) :
    ∃ x, p = q++x ∧ Listed (subtree t q) x := by
  obtain ⟨d,e,hd,he,rfl⟩ := h
  rcases (below_concat q d e.name).mp hb with ⟨m,s,rfl⟩ | rfl
  · exact ⟨m::s++[e.name],by simp,m::s,e,isDir_into t hd,he,rfl⟩
  · exact ⟨[e.name],rfl,[],e,.root,by simpa [subtree] using he,rfl⟩

end Paths

section Request
variable (cfg : Config) (t : DirTree Name)

def recursive : Bool := cfg.useDelete || cfg.forceDelete

/-- The request passes the tests on its text and leads to an entry. -/
structure Requested (gone : List Position) (rel : Bytes) (q : Position) (b : Bool) : Prop where
  valid : ¬(rel = [] ∨ rel.head? = some slash ∨ hasPathTraversal rel = true)
  unskipped : pathUnderSkipPrefix rel (decide (slash ∉ rel)) (deleteSkipsBuild cfg [] [] true) = false
  entry : statLeaf t gone rel = .entry q b

/-- What a request for `q` may take: the entry itself, when nothing is left in it
or everything goes, and then also what lies below it. -/
inductive Takes (gone : List Position) (q : Position) (b : Bool) : Position → Prop where
  | self : (b = true → recursive cfg = false → readdir t gone q = []) → Takes gone q b q
  | below (p : Position) : b = true → recursive cfg = true → Below q p → Listed t p →
      Takes gone q b p

theorem rmdir_empty {gone gone' : List Position} {p : Position} (h : rmdir t gone p = .ok gone') :
    readdir t gone p = [] := by
  unfold rmdir at h
  split_ifs at h with hp hr
  exact hr

theorem walk_takes {gone : List Position} {q : Position} (hq : IsDir t q)
    (hrec : recursive cfg = true) (n : ℕ) :
    ∀ p ∈ (deleteExtrasLimitedObserved (subtree (prune t gone) q) bareRun n).1.gone.map (q++·),
      Takes cfg t gone q true p := by
  intro p hp
  obtain ⟨x,hx,rfl⟩ := List.mem_map.mp hp
  rw [(deleteExtrasLimitedObserved_gone _ _ _).1] at hx
  obtain ⟨y,hy,rfl⟩ := List.mem_map.mp hx
  have hmem : y.1 ∈ removable (subtree (prune t gone) q) bareRun [] := by
    exact List.mem_map_of_mem (List.mem_of_mem_take hy)
  obtain ⟨hbelow,hlisted⟩ := listed_subtree t hq (removable_listed bareRun _ _ hmem)
  exact .below _ rfl hrec hbelow hlisted

theorem removeMissingDir_takes {rel : Bytes} {q : Position} (hq : IsDir t q) {st : CommitState} :
    ∃ ps, (removeMissingDir cfg t rel q st).gone = st.gone++ps ∧
      ∀ p ∈ ps, Takes cfg t st.gone q true p := by
  by_cases hrec : recursive cfg = true
  · have hwalk := @walk_takes cfg t st.gone q hq hrec (st.budget.maxDelete-st.budget.deleted)
    rw [removeMissingDir_eq t hrec]
    split_ifs
    · exact ⟨_,rfl,hwalk⟩
    · exact ⟨_,rfl,hwalk⟩
    · refine ⟨(missingWalk t q st).gone.map (q++·)++[q],List.append_assoc _ _ _,fun p hp => ?_⟩
      rcases List.mem_append.mp hp with hp | hp
      · exact hwalk p hp
      · rw [List.mem_singleton.mp hp]
        exact .self fun _ hno => by rw [hrec] at hno; cases hno
  · rw [recursive] at hrec
    rw [removeMissingDir, if_neg hrec]
    exact ⟨[],(List.append_nil _).symm,by simp⟩

theorem missingArg_takes {rel : Bytes} {st : CommitState} :
    ∃ ps, (deleteMissingArg cfg t (deleteSkipsBuild cfg [] [] true) rel st).1.gone = st.gone++ps ∧
      ∀ p ∈ ps, ∃ q b, Requested cfg t st.gone rel q b ∧ Takes cfg t st.gone q b p := by
  have hnone : ∃ ps, st.gone = st.gone++ps ∧
      ∀ p ∈ ps, ∃ q b, Requested cfg t st.gone rel q b ∧ Takes cfg t st.gone q b p :=
    ⟨[],(List.append_nil _).symm,by simp⟩
  by_cases hvalid : rel = [] ∨ rel.head? = some slash ∨ hasPathTraversal rel = true
  · rw [deleteMissingArg, if_pos hvalid]
    exact hnone
  by_cases hskip : pathUnderSkipPrefix rel (decide (slash ∉ rel)) (deleteSkipsBuild cfg [] [] true) =
      true
  · rw [deleteMissingArg, if_neg hvalid, if_pos hskip]
    exact hnone
  rw [deleteMissingArg, if_neg hvalid, if_neg hskip]
  cases hleaf : statLeaf t st.gone rel with
  | absent => exact hnone
  | self =>
    split_ifs <;> exact hnone
  | entry q b =>
    have hreq : Requested cfg t st.gone rel q b := ⟨hvalid,by simpa using hskip,hleaf⟩
    dsimp only
    split_ifs with hfull hdir
    · exact hnone
    · subst hdir
      cases hrm : rmdir t st.gone q with
      | ok gone =>
        refine ⟨[q],(rmdir_eq_ok t hrm).2,fun p hp => ?_⟩
        rw [List.mem_singleton.mp hp]
        exact ⟨q,true,hreq,.self fun _ _ => rmdir_empty t hrm⟩
      | error e =>
        cases e with
        | enoent => exact hnone
        | enotempty =>
          have hq : IsDir t q := isDir_iff.mpr (.inr (statLeaf_inv t hleaf).1)
          obtain ⟨ps,hgone,hps⟩ := removeMissingDir_takes cfg t hq
          exact ⟨ps,hgone,fun p hp => ⟨q,true,hreq,hps p hp⟩⟩
    · cases hul : unlink st.gone q with
      | ok gone =>
        refine ⟨[q],(unlink_eq_ok hul).2,fun p hp => ?_⟩
        rw [List.mem_singleton.mp hp]
        exact ⟨q,b,hreq,.self fun hb => absurd hb hdir⟩
      | error e => exact hnone

/-- No removal on this request reaches an artifact, whatever was removed before:
the entry is none, or a directory that stays because it is never emptied, and
what goes with it holds none. -/
def Spares (rel : Bytes) : Prop :=
  ∀ q b, Requested cfg t [] rel q b →
    (Artifact cfg q → b = true ∧ t.entries q ≠ [] ∧ recursive cfg = false) ∧
    (b = true → recursive cfg = true → ∀ p, Below q p → Listed t p → ¬Artifact cfg p)

variable {cfg} {t}

theorem takes_spared {rel : Bytes} (h : Spares cfg t rel) {gone : List Position}
    (hgone : ∀ p ∈ gone, ¬Artifact cfg p) {q p : Position} {b : Bool}
    (hreq : Requested cfg t gone rel q b) (htakes : Takes cfg t gone q b p) : ¬Artifact cfg p := by
  obtain ⟨hself,hbelow⟩ := h q b ⟨hreq.valid,hreq.unskipped,(statLeaf_inv t hreq.entry).2.2⟩
  cases htakes with
  | self hempty =>
    intro hart
    obtain ⟨hb,hne,hrec⟩ := hself hart
    obtain ⟨e,he⟩ := List.exists_mem_of_ne_nil _ hne
    -- what the directory holds is an artifact too, so none of it is gone
    have hmem := (readdir_eq_nil t).mp (hempty hb hrec) e he
    exact hgone _ hmem (artifact_below hart (below_self q e.name))
  | below _ hb hrec hbel hlisted => exact hbelow hb hrec p hbel hlisted

theorem missingLoop_spares {rels : List Bytes} (h : ∀ rel ∈ rels, Spares cfg t rel)
    (st : CommitState) (hst : ∀ p ∈ st.gone, ¬Artifact cfg p) :
    ∀ p ∈ (deleteMissingLoop cfg t (deleteSkipsBuild cfg [] [] true) rels st).gone,
      ¬Artifact cfg p := by
  induction rels generalizing st with
  | nil => exact hst
  | cons rel rels ih =>
    obtain ⟨ps,hgone,hps⟩ := missingArg_takes cfg t
    have hnext : ∀ p ∈ (deleteMissingArg cfg t (deleteSkipsBuild cfg [] [] true) rel st).1.gone,
        ¬Artifact cfg p := by
      intro p hp
      rw [hgone] at hp
      rcases List.mem_append.mp hp with hp | hp
      · exact hst p hp
      · obtain ⟨q,b,hreq,htakes⟩ := hps p hp
        exact takes_spared (h rel (by simp)) hst hreq htakes
    rw [deleteMissingLoop]
    split_ifs
    · exact hnext
    · exact ih (fun x hx => h x (by simp [hx])) _ hnext

def freshCommit (maxDelete : ℕ) : CommitState := ⟨⟨maxDelete,0,0,false⟩,[],[],true⟩

theorem single_run (rel : Bytes) (maxDelete : ℕ) :
    deleteMissingArgsBudgetedObserved cfg t [rel] (freshCommit maxDelete) =
      (deleteMissingArg cfg t (deleteSkipsBuild cfg [] [] true) rel (freshCommit maxDelete)).1 := by
  rw [deleteMissingArgsBudgetedObserved, if_neg (by simp), deleteMissingLoop, deleteMissingLoop,
    ite_self]

theorem single_takes_plain {rel : Bytes} {q : Position} {b : Bool}
    (hreq : Requested cfg t [] rel q b) (hb : b = true → t.entries q = []) :
    q ∈ (deleteMissingArgsBudgetedObserved cfg t [rel] (freshCommit 1)).gone := by
  rw [single_run, deleteMissingArg, if_neg hreq.valid,
    if_neg (by rw [hreq.unskipped]; simp)]
  have hleaf : statLeaf t (freshCommit 1).gone rel = .entry q b := hreq.entry
  rw [hleaf]
  cases b with
  | false => simp [freshCommit, unlink, noteRemoved]
  | true =>
    have hrm : rmdir t (freshCommit 1).gone q = .ok [q] :=
      rmdir_ok t List.not_mem_nil (by simp [hb rfl])
    simp only [hrm]
    simp [freshCommit, noteRemoved]

theorem removeMissingDir_all (hrec : recursive cfg = true) (rel : Bytes) (q : Position) {n : ℕ}
    (hroom : (allExtras (subtree t q) bareRun).length < n) :
    ∃ rest, (removeMissingDir cfg t rel q (freshCommit n)).gone =
      (removable (subtree t q) bareRun []).map (q++·)++rest++[q] := by
  obtain ⟨hgone,_,hdeleted,hlimit⟩ := deleteExtrasLimitedObserved_gone (subtree t q) bareRun n
  rw [List.take_of_length_le hroom.le, allExtras_positions] at hgone
  have hwalk : (deleteExtrasLimitedObserved (subtree t q) bareRun n).2 = .ok := by
    have hres : (deleteExtrasLimitedObserved (subtree t q) bareRun n).2 =
        if (deleteExtrasLimitedObserved (subtree t q) bareRun n).1.budget.limitHit
          then .limitReached else .ok := rfl
    rw [hres, hlimit, if_neg (by simp; omega)]
  have hfree : ¬(deleteExtrasLimitedObserved (subtree t q) bareRun n).1.budget.deleted ≥ n := by
    omega
  unfold recursive at hrec
  simp only [removeMissingDir, hrec, if_true, freshCommit, prune_nil, Nat.sub_zero, hwalk,
    Nat.zero_add, if_neg hfree, noteRemoved, hgone, List.nil_append]
  exact ⟨_,rfl⟩

/-- With budget enough and `--delete` or `--force` it takes a directory that
holds something, and all it holds. -/
theorem single_takes_all {rel : Bytes} {q : Position} (hreq : Requested cfg t [] rel q true)
    (hrec : recursive cfg = true) (hne : t.entries q ≠ []) :
    ∃ maxDelete, ∀ p, p = q ∨ (Below q p ∧ Listed t p) →
      p ∈ (deleteMissingArgsBudgetedObserved cfg t [rel] (freshCommit maxDelete)).gone := by
  have hdirs : readdir t [] q = t.entries q :=
    readdir_untouched t fun p hp => absurd hp List.not_mem_nil
  have hrm : rmdir t [] q = .error .enotempty := by
    rw [rmdir, if_neg List.not_mem_nil, if_neg (by rw [hdirs]; exact hne)]
  refine ⟨(allExtras (subtree t q) bareRun).length+1,fun p hp => ?_⟩
  obtain ⟨rest,hgone⟩ := removeMissingDir_all (t := t) hrec rel q (Nat.lt_succ_self _)
  have hrun : (deleteMissingArgsBudgetedObserved cfg t [rel]
      (freshCommit ((allExtras (subtree t q) bareRun).length+1))) =
      removeMissingDir cfg t rel q
        (freshCommit ((allExtras (subtree t q) bareRun).length+1)) := by
    have hleaf : statLeaf t (freshCommit ((allExtras (subtree t q) bareRun).length+1)).gone rel =
        .entry q true := hreq.entry
    have hfull : ¬(freshCommit ((allExtras (subtree t q) bareRun).length+1)).budget.deleted ≥
        (freshCommit ((allExtras (subtree t q) bareRun).length+1)).budget.maxDelete := by
      simp [freshCommit]
    have hstays : rmdir t (freshCommit ((allExtras (subtree t q) bareRun).length+1)).gone q =
        .error .enotempty := hrm
    rw [single_run, deleteMissingArg, if_neg hreq.valid, if_neg (by rw [hreq.unskipped]; simp)]
    simp only [hleaf, if_neg hfull, if_true, hstays]
  rw [hrun, hgone]
  rcases hp with rfl | ⟨hb,hlisted⟩
  · simp
  · obtain ⟨x,rfl,d,e,hd,he,rfl⟩ := listed_into t hb hlisted
    have hmem := removable_bare (subtree t q) d hd e he
    rw [List.append_assoc]
    exact List.mem_append_left _ (List.mem_map_of_mem hmem)

end Request

/-- For the requests of a set, no list of them and no budget removes anything at
or below a basis directory or the staging directory exactly when every request
of the set spares them. -/
theorem missing_args_spare_iff (cfg : Config) (t : DirTree Name) (P : Bytes → Prop) :
    (∀ missing, (∀ rel ∈ missing, P rel) → ∀ maxDelete,
      ∀ p ∈ (deleteMissingArgsBudgetedObserved cfg t missing (freshCommit maxDelete)).gone,
        ¬Artifact cfg p) ↔
    ∀ rel, P rel → Spares cfg t rel := by
  constructor
  · intro h rel hrel q b hreq
    have hone : ∀ maxDelete,
        ∀ p ∈ (deleteMissingArgsBudgetedObserved cfg t [rel] (freshCommit maxDelete)).gone,
          ¬Artifact cfg p := h [rel] (by simpa using hrel)
    constructor
    · intro hart
      by_contra hnot
      by_cases hplain : b = true → t.entries q = []
      · exact hone 1 q (single_takes_plain hreq hplain) hart
      · rw [Classical.not_imp] at hplain
        obtain ⟨rfl,hne⟩ := hplain
        have hrec : recursive cfg = true := by
          by_contra hno
          exact hnot ⟨rfl,hne,by simpa using hno⟩
        obtain ⟨maxDelete,htakes⟩ := single_takes_all hreq hrec hne
        exact hone maxDelete q (htakes q (.inl rfl)) hart
    · rintro rfl hrec p hb hlisted hart
      have hne : t.entries q ≠ [] := by
        obtain ⟨d,e,hd,he,rfl⟩ := hlisted
        obtain ⟨c,hc,-⟩ := below_entry (entryAt_child hd he) hb
        exact List.ne_nil_of_mem hc
      obtain ⟨maxDelete,htakes⟩ := single_takes_all hreq hrec hne
      exact hone maxDelete p (htakes p (.inr ⟨hb,hlisted⟩)) hart
  · intro h missing hmissing maxDelete
    rw [deleteMissingArgsBudgetedObserved]
    split_ifs
    · simp [freshCommit]
    · exact missingLoop_spares (fun rel hrel => h rel (hmissing rel hrel)) _
        (by simp [freshCommit])

section Sample

theorem basis_valid : ValidName [98] := by decide

def basisName : Name := ⟨[98],basis_valid⟩
def innerName : Name := ⟨[100],by decide⟩
def leafName : Name := ⟨[102],by decide⟩

/-- The files `b/f`, `d/b/f` and `f` in the staging directory. -/
def artifactTree : DirTree Name where
  entries d :=
    if d = [] then [⟨basisName,true⟩,⟨innerName,true⟩,⟨stageName,true⟩]
    else if d = [innerName] then [⟨basisName,true⟩]
    else if d = [basisName] ∨ d = [innerName,basisName] ∨ d = [stageName] then [⟨leafName,false⟩]
    else []
  height d := 3-d.length
  names_nodup d := by split_ifs <;> decide
  height_lt d e he hdir := by
    split_ifs at he with h1 h2 h3
    · simp [h1]
    · simp [h2]
    · rw [List.mem_singleton.mp he] at hdir
      cases hdir
    · exact absurd he List.not_mem_nil

/-- The basis directories `b` and `d/b`, delayed updates and `--force`. -/
def artifactConfig : Config where
  receiveRootDirectory := [slash,114]
  delayUpdates := true
  basisDirs := [[98],[100,slash,98]]
  protectRules := none
  useDelete := false
  deleteMissingArgs := true
  forceDelete := true
  dryRun := false
  deleteBefore := false
  deleteDuring := false
  deleteDelay := false
  maxDelete := -1

/-- The requests `./b/f`, `.fastsync-stage/f` and `d` each remove a file of an
artifact: by its spelling, by its depth, and with a directory above it. -/
theorem artifacts_removed :
    let run := fun rel => (deleteMissingArgsBudgetedObserved artifactConfig artifactTree [rel]
      (freshCommit 10)).gone
    (Artifact artifactConfig [basisName,leafName] ∧
      [basisName,leafName] ∈ run [dot,slash,98,slash,102]) ∧
    (Artifact artifactConfig [stageName,leafName] ∧
      [stageName,leafName] ∈ run (delayUpdatesStagingDir++[slash,102])) ∧
    Artifact artifactConfig [innerName,basisName,leafName] ∧
      [innerName,basisName,leafName] ∈ run [100] := by
  have hbasis : Artifact artifactConfig [basisName,leafName] :=
    .inl ⟨[98],by decide,[basisName],by decide,by simp,.inr (below_self _ _)⟩
  have hstage : Artifact artifactConfig [stageName,leafName] := .inr ⟨rfl,[leafName],rfl⟩
  have hinner : Artifact artifactConfig [innerName,basisName,leafName] :=
    .inl ⟨[100,slash,98],by decide,[innerName,basisName],by decide,by simp,
      .inr (below_self _ _)⟩
  exact ⟨⟨hbasis,by decide +kernel⟩,⟨hstage,by decide +kernel⟩,hinner,by decide +kernel⟩

end Sample

end FastSync.MissingArtifacts
