import FastSync.ScanParallel

/-!
# Parallel and sequential scans of one root

The parallel scanner reads the root level with its own code and restarts the
depth count in every subdirectory. Under conditions on the root, the `-R` path
and the filter files its tally is that of the sequential scan and, on top, of
the directories that lie exactly at the depth limit.
-/

set_option autoImplicit false

namespace FastSync.ScanAgreement
open ScanEntries ScanSequential ScanWalk ScanParallel

variable {ρ : Type} (opts : ScannerOptions ρ)

section Dealing

theorem batchFiles_flatten {size : ℕ} (files batch : List File) (h : files ≠ []) :
    (batchFiles size files batch).flatten = batch++files := by
  induction files generalizing batch with
  | nil => exact absurd rfl h
  | cons f files ih =>
    rw [batchFiles]
    by_cases hlast : files = []
    · simp [hlast,batchFiles]
    · split_ifs
      · rw [List.flatten_cons,ih [] hlast]
        simp
      · rw [ih (batch++[f]) hlast]
        simp

theorem batchFiles_tally (size : ℕ) (files : List File) :
    logTally ((batchFiles size files []).map Event.chunk) = fileTally files := by
  have hchunks : ∀ chunks : List (List File),
      logTally (chunks.map Event.chunk) = fileTally chunks.flatten := by
    intro chunks
    induction chunks with
    | nil => rfl
    | cons c cs ih =>
      rw [List.flatten_cons,fileTally_append,← ih]
      rfl
  rw [hchunks]
  by_cases h : files = []
  · rw [h]
    rfl
  · rw [batchFiles_flatten files [] h,List.nil_append]

theorem dealOut_flatten {α : Type} {counts : List ℕ} (xs : List α) (h : counts.sum = xs.length) :
    (dealOut counts xs).flatten = xs := by
  induction counts generalizing xs with
  | nil =>
    rw [List.sum_nil,eq_comm,List.length_eq_zero_iff] at h
    rw [h]
    rfl
  | cons c cs ih =>
    rw [List.sum_cons] at h
    rw [dealOut,List.flatten_cons,ih _ (by rw [List.length_drop]; omega),List.take_append_drop]

theorem sum_below (n r : ℕ) (h : r ≤ n) :
    ((List.range n).map fun t => if t < r then 1 else 0).sum = r := by
  induction n generalizing r with
  | zero =>
    rw [Nat.le_zero.mp h]
    rfl
  | succ n ih =>
    rw [List.range_succ,List.map_append,List.sum_append]
    by_cases hr : r ≤ n
    · rw [ih r hr]
      simp [Nat.not_lt.mpr hr]
    · have hrn : r = n+1 := by omega
      have hall : ((List.range n).map fun t => if t < r then 1 else 0) =
          (List.range n).map fun t => if t < n then 1 else 0 := by
        apply List.map_congr_left
        intro t ht
        rw [List.mem_range] at ht
        rw [if_pos ht,if_pos (by omega)]
      rw [hall,ih n le_rfl,hrn]
      simp

/-- The workers get every subdirectory, whatever their number. -/
theorem workerCounts_sum (numThreads : ℤ) (size : ℕ) : (workerCounts numThreads size).sum = size := by
  unfold workerCounts
  dsimp only
  have hpos : 0 < (if 0 < numThreads then numThreads.toNat else 4) := by
    split_ifs <;> omega
  generalize (if 0 < numThreads then numThreads.toNat else 4) = wanted at hpos
  by_cases hsize : size = 0
  · simp [hsize]
  · have hn : 0 < min wanted size := by omega
    generalize min wanted size = n at hn
    rw [List.sum_map_add,sum_below n (size%n) (Nat.mod_lt size hn).le]
    simp [Nat.div_add_mod]

end Dealing

section RootLevel

theorem stripSlash_eq (p : Path) (h : p.head? ≠ some slash) : stripSlash p = p := by
  cases p with
  | nil => rfl
  | cons c p =>
    rw [stripSlash,if_neg]
    simpa using h

theorem stripSlash_name (e : Entry ρ) : stripSlash e.name = e.name := by
  apply stripSlash_eq
  intro h
  exact e.no_slash (List.mem_of_mem_head? h)

theorem prefixSendPath_head (start name : Path) (hstart : start.head? ≠ some slash)
    (hname : name.head? ≠ some slash) : (scannerPrefixSendPath start name).head? ≠ some slash := by
  unfold scannerPrefixSendPath pathCat
  cases start with
  | nil => simpa using hname
  | cons c start =>
    have hc : c ≠ slash := by simpa using hstart
    by_cases hempty : name = []
    · simp [hempty,hc]
    · -- a slash dropped from the end of `start` is not its first byte
      cases start with
      | nil => simp [hempty,hc]
      | cons d start =>
        simp only [hempty,if_false,reduceCtorEq]
        split_ifs <;> simpa using hc

def rootDir (rootDirectory : Path) (rootNode : List ρ) : OpenDir ρ := ⟨rootDirectory,[],0,rootNode⟩

variable (rootDirectory : Path) (rootNode : List ρ) (rootDev : ℕ)

/-- The destination path of `-R` does not start with a slash. -/
def RelativeStart : Prop := ∀ start, opts.relativePrefix = some start → start.head? ≠ some slash

/-- A mount point at the root level has one wire path in both scans. -/
def MountAligned (e : Entry ρ) : Prop :=
  ∀ start path stats linkTarget, opts.relativePrefix = some start →
    inspectRoot opts rootDirectory e = .kept path stats true linkTarget →
    scannerSameFilesystem opts rootDev stats.device = false → opts.oneFileSystem ≤ 1 →
    scannerPrefixSendPath start e.name = path

theorem childRelPath_root {name : Path} : childRelPath [] name = name := if_pos rfl

theorem rootSkipped_eq (hstart : RelativeStart opts) (e : Entry ρ) (excluded sizeExcluded : Bool) :
    rootSkipped opts rootDirectory e.name excluded sizeExcluded =
      scannerHandleSkippedEntry opts (rootDir rootDirectory rootNode) e.name excluded sizeExcluded := by
  have hname : e.name.head? ≠ some slash := fun h => e.no_slash (List.mem_of_mem_head? h)
  unfold rootSkipped scannerHandleSkippedEntry scannerEntryProtectedPath rootDir
  rw [childRelPath_root]
  cases hrel : relativeMode opts with
  | true => simp [stripSlash_name]
  | false =>
    cases hpre : opts.relativePrefix with
    | none => simp
    | some start =>
      have hstrip := stripSlash_eq _ (prefixSendPath_head start e.name (hstart start hpre) hname)
      simp [hstrip]

theorem entryPassesSelection_pruned (node : List ρ) (rel leaf : Path) (isDir : Bool)
    (h : fileListPrunes opts rel = true) :
    entryPassesSelection opts node rel leaf isDir = (false, false) := by
  rw [entryPassesSelection,if_pos h]

theorem rootProtection_eq (hstart : RelativeStart opts) (e : Entry ρ) (isDir : Bool) (curPath : Path) :
    rootProtection opts (entryPassesSelection opts rootNode e.name e.name isDir).2
        (entryPassesSelection opts rootNode e.name e.name isDir).1 e.name curPath =
      scannerRecordSelectionProtection opts (entryPassesSelection opts rootNode e.name e.name isDir).2
        (entryPassesSelection opts rootNode e.name e.name isDir).1 e.name curPath := by
  have hname : e.name.head? ≠ some slash := fun h => e.no_slash (List.mem_of_mem_head? h)
  have hpruned := entryPassesSelection_pruned opts rootNode e.name e.name isDir
  -- only an entry of the list can be protected
  generalize entryPassesSelection opts rootNode e.name e.name isDir = selection at hpruned
  obtain ⟨passes,protect⟩ := selection
  unfold rootProtection scannerRecordSelectionProtection
  have hstrip : ∀ start, opts.relativePrefix = some start →
      stripSlash (scannerPrefixSendPath start e.name) = scannerPrefixSendPath start e.name :=
    fun start hpre => stripSlash_eq _ (prefixSendPath_head start e.name (hstart start hpre) hname)
  cases hprune : fileListPrunes opts e.name with
  | true =>
    cases hpruned hprune
    simp
  | false =>
    cases relativeMode opts <;> cases passes <;> cases protect <;>
      cases hpre : opts.relativePrefix <;> simp [stripSlash_name,hstrip,hpre]

theorem scanRootEntry_eq (hstart : RelativeStart opts) (e : Entry ρ)
    (hmount : MountAligned opts rootDirectory rootDev e) :
    scanRootEntry opts rootNode rootDirectory rootDev e =
      ⟨(visitEntry opts rootDev (rootDir rootDirectory rootNode) e).notes,
        (visitEntry opts rootDev (rootDir rootDirectory rootNode) e).file,
        (visitEntry opts rootDev (rootDir rootDirectory rootNode) e).subdir⟩ := by
  have hinspect : inspectIn opts (rootDir rootDirectory rootNode) e = inspectRoot opts rootDirectory e := by
    simp [inspectIn,inspectRoot,rootDir,childRelPath_root]
  unfold scanRootEntry visitEntry
  rw [hinspect,← show inspectRoot opts rootDirectory e =
    scannerInspectEntry opts rootDirectory e.name e from rfl]
  cases hin : inspectRoot opts rootDirectory e with
  | skipped excluded sizeExcluded =>
    dsimp only [visitInspected]
    rw [rootSkipped_eq opts rootDirectory rootNode hstart]
  | kept path stats isDir linkTarget =>
    dsimp only [visitInspected,rootKept,scannerProcessEntry]
    have hrel : childRelPath (rootDir rootDirectory rootNode).rel e.name = e.name :=
      childRelPath_root
    have hnode : (rootDir rootDirectory rootNode).node = rootNode := rfl
    have hdepth : ¬(0 < opts.maxDepth ∧
        opts.maxDepth < ((rootDir rootDirectory rootNode).depth : ℤ)+1) := by
      simp only [rootDir]
      omega
    rw [hrel,hnode,rootProtection_eq opts rootNode hstart,if_neg hdepth]
    cases hsel : (entryPassesSelection opts rootNode e.name e.name isDir).1 with
    | false => simp
    | true =>
      cases hdir : isDir with
      | false =>
        cases fileOf opts _ stats linkTarget <;> rfl
      | true =>
        rw [hdir] at hin
        unfold scannerHandleMountDir
        cases hsame : scannerSameFilesystem opts rootDev stats.device with
        | true => simp
        | false =>
          by_cases hdrop : 1 < opts.oneFileSystem
          · simp [hdrop]
          · cases hpre : opts.relativePrefix with
            | none => simp [hdrop]
            | some start =>
              have hpath := hmount start path stats linkTarget hpre hin hsame (by omega)
              simp [hdrop,hpath]

end RootLevel

section Devices

theorem scannerSameFilesystem_congr {a b device : ℕ} (h : opts.oneFileSystem ≤ 0 ∨ a = b) :
    scannerSameFilesystem opts a device = scannerSameFilesystem opts b device := by
  unfold scannerSameFilesystem
  rcases h with h | rfl
  · simp [h]
  · rfl

variable {a b : ℕ} (h : opts.oneFileSystem ≤ 0 ∨ a = b)
include h

theorem visitEntry_device (d : OpenDir ρ) (e : Entry ρ) :
    visitEntry opts a d e = visitEntry opts b d e := by
  unfold visitEntry
  cases inspectIn opts d e with
  | skipped _ _ => rfl
  | kept path stats isDir linkTarget =>
    simp [visitInspected,scannerProcessEntry,scannerHandleMountDir,scannerSameFilesystem_congr opts h]

theorem contentsProduced_device (contents : Forest ρ) (d : OpenDir ρ) :
    contentsProduced opts a contents d = contentsProduced opts b contents d := by
  induction contents with
  | nil => rfl
  | cons e _ rest _ ih => rw [contentsProduced,contentsProduced,visitEntry_device opts h,ih]

theorem contentsTally_device (rootPath : Path) (contents : Forest ρ) (d : OpenDir ρ) :
    contentsTally opts rootPath a contents d = contentsTally opts rootPath b contents d := by
  induction contents generalizing d with
  | nil => rfl
  | cons e contents rest ihc ihr =>
    rw [contentsTally,contentsTally,visitEntry_device opts h,ihr]
    simp [ihc,contentsProduced_device opts h]

theorem openTally_device (rootPath : Path) (c : OpenDir ρ) (dir : SourceDir ρ) :
    openTally opts rootPath a c dir = openTally opts rootPath b c dir := by
  rw [openTally,openTally,contentsProduced_device opts h,contentsTally_device opts h]

end Devices

section Depth
variable (rootPath : Path) (rootDev : ℕ)

theorem entryTally_buffered (d : OpenDir ρ) (e : Entry ρ) (contents : Forest ρ) :
    entryTally opts rootPath rootDev d (buffered opts d e contents) =
      visitTally (visitEntry opts rootDev d e)+
        (if (visitEntry opts rootDev d e).subdir && withinDepth opts (d.depth+1) then
          dirTally opts rootPath rootDev d.node (childEntry d (buffered opts d e contents)) else 0) := by
  have hvisit : visitInspected opts rootDev d (buffered opts d e contents).entry.name
      (buffered opts d e contents).inspection = visitEntry opts rootDev d e := rfl
  rw [entryTally,hvisit]
  unfold childEntries dirsTally
  split_ifs
  · simp [childEntry]
  · rfl

/-- The same directory one level further up, as the scanner of a worker counts. -/
def lower (c : OpenDir ρ) : OpenDir ρ := { c with depth := c.depth-1 }

/-- What the directories exactly at the depth limit hold: the sequential scan
does not open them and a worker does. -/
def boundaryTally : Forest ρ → OpenDir ρ → Tally
  | .nil, _ => 0
  | .cons e contents rest, d =>
    let child := childEntry d (buffered opts d e contents)
    (if (visitEntry opts rootDev d e).subdir then
      match openedDir rootPath d.node child with
      | none => 0
      | some c =>
        if withinDepth opts c.depth then boundaryTally contents c
        else openTally opts rootPath rootDev (lower c) child.dir
    else 0)+boundaryTally rest d

section
variable (inherited : List ρ) (de : DirEntry ρ)

theorem openedDir_depth (k : ℕ) : openedDir rootPath inherited { de with depth := k } =
      (openedDir rootPath inherited de).map fun c => { c with depth := k } := by
  unfold openedDir openDirectory
  cases scannerPathRelative rootPath de.path with
  | none => rfl
  | some rel =>
    dsimp only
    split_ifs
    · rfl
    · cases de.dir.filters rel <;> rfl

theorem openedDir_eq_depth {c : OpenDir ρ} (h : openedDir rootPath inherited de = some c) :
    c.depth = de.depth := by
  have hself := openedDir_depth rootPath inherited de de.depth
  rw [h] at hself
  have hc : c = { c with depth := de.depth } := Option.some.inj hself
  rw [hc]

theorem visitEntry_lower {d : OpenDir ρ} {e : Entry ρ} (h : withinDepth opts d.depth = true) :
    visitEntry opts rootDev (lower d) e = visitEntry opts rootDev d e := by
  have hdeep : ¬(0 < opts.maxDepth ∧ opts.maxDepth < (d.depth : ℤ)+1) := by
    simp only [withinDepth,Bool.or_eq_true,decide_eq_true_eq] at h
    omega
  have hlow : ¬(0 < opts.maxDepth ∧ opts.maxDepth < ((lower d).depth : ℤ)+1) := by
    simp only [lower]
    omega
  unfold visitEntry
  have hinspect : inspectIn opts (lower d) e = inspectIn opts d e := rfl
  rw [hinspect]
  cases inspectIn opts d e with
  | skipped _ _ => rfl
  | kept path stats isDir linkTarget =>
    simp only [visitInspected,scannerProcessEntry,if_neg hdeep,if_neg hlow]
    rfl

theorem contentsProduced_lower {contents : Forest ρ} {d : OpenDir ρ}
    (h : withinDepth opts d.depth = true) :
    contentsProduced opts rootDev contents (lower d) = contentsProduced opts rootDev contents d := by
  induction contents with
  | nil => rfl
  | cons e _ rest _ ih =>
    rw [contentsProduced,contentsProduced,visitEntry_lower opts rootDev h,ih]

def childBoundary (inherited : List ρ) (de : DirEntry ρ) : Tally :=
  match openedDir rootPath inherited de with
  | none => 0
  | some c =>
    if withinDepth opts c.depth then boundaryTally opts rootPath rootDev de.dir.contents c
    else openTally opts rootPath rootDev (lower c) de.dir

theorem boundaryTally_cons (e : Entry ρ) (contents rest : Forest ρ) (d : OpenDir ρ) :
    boundaryTally opts rootPath rootDev (.cons e contents rest) d =
      (if (visitEntry opts rootDev d e).subdir then
        childBoundary opts rootPath rootDev d.node (childEntry d (buffered opts d e contents)) else 0)+
      boundaryTally opts rootPath rootDev rest d := by
  rfl

/-- The contents gain their boundary when they are counted one level up. -/
def ShiftsBy (contents : Forest ρ) : Prop :=
  ∀ c : OpenDir ρ, 0 < c.depth → withinDepth opts c.depth = true →
    contentsTally opts rootPath rootDev contents (lower c) =
      contentsTally opts rootPath rootDev contents c+boundaryTally opts rootPath rootDev contents c

theorem dirTally_lower (k : ℕ) (hk : de.depth = k+1)
    (hcontents : ShiftsBy opts rootPath rootDev de.dir.contents) :
    dirTally opts rootPath rootDev inherited { de with depth := k } =
      (if withinDepth opts (k+1) then dirTally opts rootPath rootDev inherited de else 0)+
        childBoundary opts rootPath rootDev inherited de := by
  unfold dirTally childBoundary
  rw [openedDir_depth]
  cases hopen : openedDir rootPath inherited de with
  | none => simp
  | some c =>
    have hc : c.depth = k+1 := by
      rw [openedDir_eq_depth rootPath inherited de hopen,hk]
    have hlower : { c with depth := k } = lower c := by
      simp [lower,hc]
    simp only [Option.map_some,hlower,hc]
    by_cases hwithin : withinDepth opts (k+1) = true
    · have hown : ownTally opts (lower c) = ownTally opts c := rfl
      rw [← hc] at hwithin
      rw [← hc,if_pos hwithin,if_pos hwithin,openTally,openTally,hown,
        contentsProduced_lower opts rootDev hwithin,hcontents c (by omega) hwithin]
      abel
    · rw [if_neg hwithin,if_neg hwithin,zero_add]

end

/-- A worker finds one level more below a directory than the sequential scan. -/
theorem contentsTally_lower {contents : Forest ρ} : ShiftsBy opts rootPath rootDev contents := by
  induction contents with
  | nil =>
    intro d _ _
    simp [contentsTally,boundaryTally]
  | cons e contents rest ihc ihr =>
    intro d hpos h
    obtain ⟨k,hk⟩ : ∃ k, d.depth = k+1 := ⟨d.depth-1,by omega⟩
    have hlow : (lower d).depth = k := by simp [lower,hk]
    have hchild : childEntry (lower d) (buffered opts (lower d) e contents) =
        { childEntry d (buffered opts d e contents) with depth := k+1 } := by
      simp only [childEntry,hlow]
      rfl
    have hshift := dirTally_lower opts rootPath rootDev d.node
      (childEntry d (buffered opts d e contents)) (k+1) (by simp [childEntry,hk]) ihc
    have hentry : entryTally opts rootPath rootDev (lower d) (buffered opts (lower d) e contents) =
        entryTally opts rootPath rootDev d (buffered opts d e contents)+
          (if (visitEntry opts rootDev d e).subdir then childBoundary opts rootPath rootDev d.node
            (childEntry d (buffered opts d e contents)) else 0) := by
      rw [entryTally_buffered,entryTally_buffered,visitEntry_lower opts rootDev h,hlow,hchild,
        ← hk,h,hk]
      cases (visitEntry opts rootDev d e).subdir with
      | false => simp
      | true =>
        rw [add_assoc]
        congr 1
    rw [contentsTally_cons,contentsTally_cons,boundaryTally_cons,ihr d hpos h,hentry]
    abel

end Depth

section Agreement

def rootEntries : Forest ρ → List (Entry ρ)
  | .nil => []
  | .cons e _ rest => e::rootEntries rest

variable (rootDirectory : Path) (dir : SourceDir ρ)

/-- What both scanners rely on: a root with at most one final slash, valid
filter files, and wire paths that the two root levels spell alike. -/
structure Regular : Prop where
  root_ne : rootDirectory ≠ []
  root_rel : scannerPathRelative rootDirectory rootDirectory = some []
  filters : ∀ rel, dir.filters rel ≠ .invalid
  contents : ValidFilters dir.contents
  start : RelativeStart opts
  mounts : ∀ e ∈ rootEntries dir.contents, MountAligned opts rootDirectory dir.device e

theorem scannerPathRelative_child (root : Path) (hne : root ≠ [])
    (hroot : scannerPathRelative root root = some []) (e : Entry ρ) :
    scannerPathRelative root (pathCat root e.name) = some e.name := by
  have hname : e.name.head? ≠ some slash := fun h => e.no_slash (List.mem_of_mem_head? h)
  rw [scannerPathRelative_eq_some] at hroot ⊢
  unfold pathCat
  rw [if_neg hne,if_neg e.name_ne,if_neg hname]
  rcases hroot with ⟨hs,hr⟩ | ⟨hs,⟨hr,-⟩ | hr⟩
  · refine .inl ⟨hs,?_⟩
    rw [hr]
    simp
  · refine .inr ⟨hs,.inr ?_⟩
    have hlast := rootStem_last.resolve_left hs
    rw [← hr] at hlast
    rw [if_neg hlast,← hr]
  · refine .inr ⟨hs,.inr ?_⟩
    generalize rootStem root = stem at hr
    rw [hr]
    simp

theorem visitEntry_subdir (rootDev : ℕ) {d : OpenDir ρ} (e : Entry ρ)
    (h : (visitEntry opts rootDev d e).subdir = true) :
    opts.oneFileSystem ≤ 0 ∨ inspectedDevice (inspectIn opts d e) = rootDev := by
  unfold visitEntry at h
  cases hin : inspectIn opts d e with
  | skipped _ _ =>
    rw [hin] at h
    cases h
  | kept path stats isDir linkTarget =>
    rw [hin] at h
    simp only [visitInspected,scannerProcessEntry,scannerHandleMountDir] at h
    simp only [inspectedDevice]
    split_ifs at h with h1 h2 h3 h4 h5
    · simpa [scannerSameFilesystem] using h3
    all_goals split at h <;> cases h

theorem dirTally_device (rootPath : Path) (a b : ℕ) (h : opts.oneFileSystem ≤ 0 ∨ a = b)
    (inherited : List ρ) (de : DirEntry ρ) :
    dirTally opts rootPath a inherited de = dirTally opts rootPath b inherited de := by
  unfold dirTally
  simp [openTally_device opts h]

theorem rootSubdir_tally (rootNode : List ρ) (rootDev : ℕ) (e : Entry ρ) (contents : Forest ρ)
    (hsub : (visitEntry opts rootDev (rootDir rootDirectory rootNode) e).subdir = true) :
    dirTally opts rootDirectory (rootSubdir opts rootDirectory e contents).dir.device rootNode
        (rootSubdir opts rootDirectory e contents) =
      (if withinDepth opts 1 then dirTally opts rootDirectory rootDev rootNode
        (childEntry (rootDir rootDirectory rootNode)
          (buffered opts (rootDir rootDirectory rootNode) e contents)) else 0)+
      childBoundary opts rootDirectory rootDev rootNode
        (childEntry (rootDir rootDirectory rootNode)
          (buffered opts (rootDir rootDirectory rootNode) e contents)) := by
  have hdevice := visitEntry_subdir opts rootDev e hsub
  have hsame := dirTally_device opts rootDirectory _ rootDev hdevice rootNode
    (rootSubdir opts rootDirectory e contents)
  refine hsame.trans ?_
  rw [← dirTally_lower opts rootDirectory rootDev rootNode _ 0 rfl
    (contentsTally_lower opts rootDirectory rootDev)]
  rfl

theorem rootScan_tally (hstart : RelativeStart opts) (rootNode : List ρ) (rootDev : ℕ)
    (contents : Forest ρ)
    (hmounts : ∀ e ∈ rootEntries contents, MountAligned opts rootDirectory rootDev e) :
    noteTally (scanRootDirectory opts rootNode rootDirectory rootDev contents).notes+
        fileTally (scanRootDirectory opts rootNode rootDirectory rootDev contents).rootFiles+
        ((scanRootDirectory opts rootNode rootDirectory rootDev contents).subdirs.map fun de =>
          dirTally opts rootDirectory de.dir.device rootNode de).sum =
      contentsTally opts rootDirectory rootDev contents (rootDir rootDirectory rootNode)+
        boundaryTally opts rootDirectory rootDev contents (rootDir rootDirectory rootNode) := by
  induction contents with
  | nil => simp [scanRootDirectory,contentsTally,boundaryTally,noteTally,fileTally]
  | cons e contents rest _ ih =>
    have hrest := ih fun x hx => hmounts x (List.mem_cons_of_mem _ hx)
    have hentry := scanRootEntry_eq opts rootDirectory rootNode rootDev hstart e
      (hmounts e List.mem_cons_self)
    rw [contentsTally_cons,boundaryTally_cons,entryTally_buffered,visitTally]
    simp only [scanRootDirectory,hentry,noteTally_append,fileTally_append,List.map_append,
      List.sum_append]
    cases hsub : (visitEntry opts rootDev (rootDir rootDirectory rootNode) e).subdir with
    | false =>
      simp only [Bool.false_eq_true,if_false,Bool.false_and,List.map_nil,List.sum_nil,zero_add,
        add_zero]
      rw [add_assoc _ (contentsTally opts rootDirectory rootDev rest _),← hrest]
      abel
    | true =>
      have htally := rootSubdir_tally opts rootDirectory rootNode rootDev e contents hsub
      have hdepth : (rootDir rootDirectory rootNode).depth+1 = 1 := rfl
      have hnode : (rootDir rootDirectory rootNode).node = rootNode := rfl
      simp only [if_true,Bool.true_and,List.map_cons,List.sum_cons,List.map_nil,List.sum_nil,
        add_zero,htally,hdepth,hnode]
      calc _ = noteTally (visitEntry opts rootDev (rootDir rootDirectory rootNode) e).notes+
            fileTally (visitEntry opts rootDev (rootDir rootDirectory rootNode) e).file.toList+
            ((if withinDepth opts 1 then dirTally opts rootDirectory rootDev rootNode
              (childEntry (rootDir rootDirectory rootNode)
                (buffered opts (rootDir rootDirectory rootNode) e contents)) else 0)+
            childBoundary opts rootDirectory rootDev rootNode
              (childEntry (rootDir rootDirectory rootNode)
                (buffered opts (rootDir rootDirectory rootNode) e contents)))+
            (contentsTally opts rootDirectory rootDev rest (rootDir rootDirectory rootNode)+
              boundaryTally opts rootDirectory rootDev rest (rootDir rootDirectory rootNode)) := by
              rw [← hrest]
              abel
        _ = _ := by abel

theorem rootFilterNode_eq (h : ∀ rel, dir.filters rel ≠ .invalid) :
    ∃ rootNode, rootFilterNode dir = some rootNode ∧
      openDirectory [] ⟨rootDirectory,0,[],dir⟩ [] = some (rootDir rootDirectory rootNode) := by
  unfold rootFilterNode openDirectory
  cases hf : dir.filters [] with
  | invalid => exact absurd hf (h [])
  | inherit => exact ⟨[],rfl,rfl⟩
  | rules own => exact ⟨[own],rfl,rfl⟩

variable {opts rootDirectory dir}

section
variable (h : Regular opts rootDirectory dir)
include h

theorem sequential_tally (hopens : dir.opens = true) {rootNode : List ρ}
    (hnode : openDirectory [] ⟨rootDirectory,0,[],dir⟩ [] = some (rootDir rootDirectory rootNode)) :
    logTally (sequentialRun opts rootDirectory dir) =
      noteTally (scannerRecordSyncedDir opts rootDirectory [])+
        contentsTally opts rootDirectory dir.device dir.contents (rootDir rootDirectory rootNode) := by
  have hsound : Sound rootDirectory ⟨rootDirectory,0,[],dir⟩ :=
    ⟨⟨[],h.root_rel,.inl hopens⟩,h.filters,h.contents⟩
  have hdrain := drain_tally opts ⟨rootDirectory,dir.device,[]⟩ h.root_ne hsound
  have hopened : openedDir rootDirectory [] ⟨rootDirectory,0,[],dir⟩ =
      some (rootDir rootDirectory rootNode) := by
    rw [openedDir,h.root_rel]
    simp [hopens,hnode]
  have hempty : emptyDirFiles opts (rootDir rootDirectory rootNode) dir.lstatDir
      (contentsProduced opts dir.device dir.contents (rootDir rootDirectory rootNode)) = [] := by
    unfold emptyDirFiles scannerEmitEmptyDir
    simp [rootDir]
  rw [sequentialRun,hdrain.2,dirTally,hopened]
  simp only [openTally,ownTally,hempty,fileTally_nil,add_zero]
  rfl

theorem rootSubdirs_sound (rootNode : List ρ) (rootDev : ℕ) (contents : Forest ρ)
    (hvalid : ValidFilters contents) :
    ∀ de ∈ (scanRootDirectory opts rootNode rootDirectory rootDev contents).subdirs,
      Sound rootDirectory de := by
  induction contents with
  | nil => simp [scanRootDirectory]
  | cons e contents rest _ ih =>
    obtain ⟨he,hcontents,hrest⟩ := hvalid
    intro de hde
    rcases List.mem_append.mp hde with hde | hde
    · split at hde
      · cases List.mem_singleton.mp hde
        have hrel := scannerPathRelative_child rootDirectory h.root_ne h.root_rel e
        exact ⟨⟨e.name,hrel,.inr (.inl e.name_ne)⟩,he,hcontents⟩
      · cases hde
    · exact ih hrest de hde

theorem workerScan_tally (rootNode : List ρ) (de : DirEntry ρ) (hde : Sound rootDirectory de) :
    (workerScan opts rootNode rootDirectory de).failed = false ∧
      logTally (workerScan opts rootNode rootDirectory de).events =
        dirTally opts rootDirectory de.dir.device rootNode de :=
  drain_tally opts ⟨rootDirectory,de.dir.device,rootNode⟩ h.root_ne hde

end

theorem pendingTally_assigned (scan : DirEntry ρ → DirScan) (tally : DirEntry ρ → Tally)
    (assigned : List (List (DirEntry ρ)))
    (h : ∀ dirs ∈ assigned, ∀ de ∈ dirs, logTally (scan de).events = tally de) :
    pendingTally (assigned.map fun dirs => dirs.map scan) = (assigned.flatten.map tally).sum := by
  induction assigned with
  | nil => rfl
  | cons dirs assigned ih =>
    have hdirs : (dirs.map scan).map (fun d => logTally d.events) = dirs.map tally := by
      rw [List.map_map]
      exact List.map_congr_left (h dirs List.mem_cons_self)
    have hrest := ih fun x hx => h x (List.mem_cons_of_mem _ hx)
    unfold pendingTally at hrest ⊢
    rw [List.map_cons,List.map_cons,List.sum_cons,hrest,workerTally,hdirs,List.flatten_cons,
      List.map_append,List.sum_append]

/-- Under any schedule the parallel scan collects what the sequential one does
and the directories at the depth limit. -/
theorem parallel_tally (h : Regular opts rootDirectory dir) (hopens : dir.opens = true)
    {rootNode : List ρ} (hnode : rootFilterNode dir = some rootNode) {out : List Event}
    (hrun : ParallelRun opts rootDirectory dir out) :
    logTally out = noteTally (scannerRecordSyncedDir opts rootDirectory [])+
      (contentsTally opts rootDirectory dir.device dir.contents (rootDir rootDirectory rootNode)+
        boundaryTally opts rootDirectory dir.device dir.contents (rootDir rootDirectory rootNode)) := by
  unfold ParallelRun parallelScannerCreate at hrun
  rw [hnode] at hrun
  simp only [hopens,Bool.not_true,Bool.false_eq_true,if_false] at hrun
  obtain ⟨final,hsteps,hdone,rfl⟩ := hrun
  have hroot := rootScan_tally opts rootDirectory h.start rootNode dir.device dir.contents h.mounts
  have hsound := rootSubdirs_sound h rootNode dir.device dir.contents h.contents
  generalize scanRootDirectory opts rootNode rootDirectory dir.device dir.contents = r at *
  have hdeal := dealOut_flatten r.subdirs (workerCounts_sum opts.numThreads r.subdirs.length)
  generalize dealOut (workerCounts opts.numThreads r.subdirs.length) r.subdirs = assigned at *
  have hassigned : ∀ dirs ∈ assigned, ∀ de ∈ dirs, Sound rootDirectory de := by
    intro dirs hdirs de hde
    apply hsound
    rw [← hdeal]
    exact List.mem_flatten.mpr ⟨dirs,hdirs,hde⟩
  rw [run_tally _ final hsteps rfl _ hdone]
  · have hworkers := pendingTally_assigned (workerScan opts rootNode rootDirectory)
      (fun de => dirTally opts rootDirectory de.dir.device rootNode de) assigned
      fun dirs hdirs de hde => (workerScan_tally h rootNode de (hassigned dirs hdirs de hde)).2
    rw [hworkers,hdeal,logTally_append,logTally_notes,noteTally_append,batchFiles_tally,← hroot]
    abel
  · intro worker hworker d hd
    obtain ⟨dirs,hdirs,rfl⟩ := List.mem_map.mp hworker
    obtain ⟨de,hde,rfl⟩ := List.mem_map.mp hd
    exact (workerScan_tally h rootNode de (hassigned dirs hdirs de hde)).1

def eventFiles : Event → List File
  | .chunk files => files
  | .note _ => []

def emitted (log : List Event) : Multiset File := (log.flatMap eventFiles : List File)

/-- The path is in the set of excluded, size-skipped or synchronized paths. -/
def Recorded (log : List Event) (n : Note) : Prop := Event.note n ∈ log

def Agree (a b : List Event) : Prop := emitted a = emitted b ∧ ∀ n, Recorded a n ↔ Recorded b n

theorem emitted_eq (log : List Event) : emitted log = (logTally log).1 := by
  unfold emitted
  induction log with
  | nil => rfl
  | cons ev log ih =>
    have hcons : logTally (ev::log) = eventTally ev+logTally log := rfl
    rw [hcons,Prod.fst_add,← ih,List.flatMap_cons,← Multiset.coe_add]
    cases ev <;> rfl

theorem recorded_iff (log : List Event) (n : Note) : Recorded log n ↔ n ∈ (logTally log).2 := by
  unfold Recorded
  induction log with
  | nil => simp [logTally]
  | cons ev log ih =>
    have hcons : logTally (ev::log) = eventTally ev+logTally log := rfl
    rw [hcons,Prod.snd_add,Multiset.mem_add,← ih,List.mem_cons]
    cases ev with
    | chunk files => simp [eventTally,fileTally]
    | note m => simp [eventTally,noteTally]

variable (opts rootDirectory dir) in
/-- The directories at the depth limit hold no entry to send and nothing to
record that the sequential scan has not recorded. -/
def BoundarySilent : Prop :=
  ∀ rootNode, rootFilterNode dir = some rootNode → dir.opens = true →
    (boundaryTally opts rootDirectory dir.device dir.contents (rootDir rootDirectory rootNode)).1 = 0 ∧
    ∀ n ∈ (boundaryTally opts rootDirectory dir.device dir.contents
      (rootDir rootDirectory rootNode)).2, Recorded (sequentialRun opts rootDirectory dir) n

theorem agree_iff {a b : List Event} {extra : Tally} (h : logTally a = logTally b+extra) :
    Agree a b ↔ extra.1 = 0 ∧ ∀ n ∈ extra.2, Recorded b n := by
  unfold Agree
  simp [emitted_eq,recorded_iff,h]

theorem unreadable_runs (h : Regular opts rootDirectory dir) (hopens : dir.opens = false)
    {out : List Event} (hrun : ParallelRun opts rootDirectory dir out) :
    out = [] ∧ sequentialRun opts rootDirectory dir = [] := by
  constructor
  · obtain ⟨rootNode,hnode,-⟩ := rootFilterNode_eq rootDirectory dir h.filters
    unfold ParallelRun parallelScannerCreate at hrun
    rw [hnode,hopens] at hrun
    exact hrun
  · have hstop : scannerStep opts ⟨rootDirectory,dir.device,[]⟩
        (startState ⟨rootDirectory,0,[],dir⟩) = none := by
      simp [scannerStep,startState,openNextDirectory,h.root_rel,hopens,endCall]
    rw [sequentialRun,drain]
    cases cost (startState ⟨rootDirectory,0,[],dir⟩) with
    | zero => rfl
    | succ n =>
      rw [Machine.run,hstop]
      rfl

end Agreement

section Examples

/-- Plain options with a depth limit and no filters, for two threads. -/
def depthOptions (maxDepth : ℤ) : ScannerOptions Unit where
  chunkSize := 100
  excludePatterns := []
  includePatterns := []
  maxSize := 0
  minSize := 0
  maxDepth := maxDepth
  numThreads := 2
  followSymlinks := false
  copyLinks := false
  safeLinks := false
  copyUnsafeLinks := false
  copyDirlinks := false
  mungeLinks := false
  oneFileSystem := 0
  preserveDevices := false
  preserveSpecials := false
  copyDevices := false
  fileList := none
  baseFilters := none
  perDirFilters := false
  excludePerDirFilterFiles := false
  relative := false
  relativePrefix := none
  pruneEmptyDirs := false
  emitEmptyDirs := false
  excludedPaths := false
  sizeSkippedPaths := false
  syncedDirs := false
  globMatch := fun _ _ => false
  symlinkUnsafe := fun _ _ => false
  symlinkUnmunge := id
  filterRulesApplySide := fun _ _ _ _ _ => .none

def leafEntry : Entry Unit :=
  ⟨[102],some ⟨.regular,3,1⟩,none,some ⟨.regular,3,1⟩,false,fun _ => .inherit,by decide,by decide⟩

def subdirEntry : Entry Unit :=
  ⟨[100],some ⟨.directory,0,1⟩,none,some ⟨.directory,0,1⟩,true,fun _ => .inherit,by decide,by decide⟩

/-- A root that holds one directory `d`, which holds one file `f`. -/
def nestedRoot : SourceDir Unit :=
  ⟨true,1,true,fun _ => .inherit,.cons subdirEntry (.cons leafEntry .nil .nil) .nil⟩

def leafFile : File := ⟨[114,47,100,47,102],.file,3,none⟩

theorem nestedRoot_regular (maxDepth : ℤ) : Regular (depthOptions maxDepth) [114] nestedRoot where
  root_ne := by decide
  root_rel := by decide
  filters := fun _ => nofun
  contents := ⟨fun _ => nofun,⟨fun _ => nofun,trivial,trivial⟩,trivial⟩
  start := nofun
  mounts := by
    intro e _ start path stats linkTarget hstart
    cases hstart

end Examples

end FastSync.ScanAgreement
