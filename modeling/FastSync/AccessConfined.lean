import FastSync.SaveEngines
import FastSync.WalkConfined

/-!
# What access below the root touches

The functions that make, replace, move and remove entries, and the three ways a
file gets to its path, work on the names of a directory that a walk ended in.
Creating, moving and removing calls take proper names only; the attribute calls
also take `.` and `..`.
-/

set_option autoImplicit false

namespace FastSync.AccessConfined
open DeletePaths Programs SystemCalls
open SecureWalk SaveEngines WalkConfined

/-- The path leads to the parent of the root: its last component is `..` and
nothing before it leads away. -/
def Climbs (root : Position) (path : Bytes) : Prop :=
  leafName path = [dot,dot] ∧ Flat root path

variable {d p : Position} {path : Bytes}

section Lands

variable {b : Bounds} {root : Position}

theorem dropLast_below (hd : root <+: d) (hne : d ≠ root) : root <+: d.dropLast := by
  obtain ⟨q,rfl⟩ := hd
  have hq : q ≠ [] := by
    rintro rfl
    exact hne (List.append_nil root)
  rw [List.dropLast_append_of_ne_nil hq]
  exact List.prefix_append _ _

/-- Every name in the directory a walk ended in stands for something below the
root, but for the one that climbs. -/
theorem reached_locate {r : Position × Bytes} (hr : Reached root path r)
    (hp : locate r.1 r.2 = some p) : root <+: p ∨ Climbs root path ∧ p = root.dropLast := by
  by_cases h2 : r.2 = [dot,dot]
  · have h : p = r.1.dropLast := by
      rw [h2] at hp
      exact (Option.some.inj hp).symm
    by_cases hroot : r.1 = root
    · exact .inr ⟨⟨hr.leaf ▸ h2,hr.flat hroot⟩,h.trans (by rw [hroot])⟩
    · exact .inl (h ▸ dropLast_below hr.below hroot)
  · exact .inl (locate_below hp h2 hr.below)

theorem reached_lands (hb : Covers root b) {r : Position × Bytes}
    (hr : Reached root path r) (hc : Climbs root path → b.via root.dropLast) :
    Lands b.via r.1 r.2 := by
  intro p hp
  rcases reached_locate hr hp with h | ⟨h,rfl⟩
  · exact hb p h
  · exact hc h

theorem named_lands (hb : Covers root b) {c : Bytes} (hd : root <+: d)
    (hc : ∃ n, leafOf c = .name n) : Lands b.via d c := by
  obtain ⟨n,hn⟩ := hc
  intro p hp
  rw [locate_name hn] at hp
  cases hp
  exact covers_entry hb hd n

end Lands

section Walk

variable {b : Bounds} {root : Position} {pr : Process}

theorem stays_parent (hb : Covers root b) (hr : pr.authorizedRoot = some root) (path : Bytes)
    (createDirs : Bool) :
    Effect (Within b) (fileOpenSecureParent pr path createDirs) (WhenOk (Reached root path)) :=
  walks_fileOpenSecureParent (within_walks hb) hr

theorem stays_identityApplyOwnershipLink {c : Bytes} (h : Lands b.via d c) :
    Stays b (identityApplyOwnershipLink pr d c) := by
  refine stays_unless fun _ => ?_
  refine stays_except (stays_statAt d c) (fun _ => stays_done) fun s _ => ?_
  refine stays_unless fun _ => ?_
  exact stays_except (stays_attributeAt h) (fun _ => stays_done) fun _ _ => stays_done

theorem stays_identityApplyOwnership (h : b.via p) : Stays b (identityApplyOwnership pr p) := by
  refine stays_unless fun _ => ?_
  refine stays_unless fun _ => ?_
  exact stays_except (stays_attributeFd h) (fun _ => stays_done) fun _ _ => stays_done

section
variable (hb : Covers root b) (hr : pr.authorizedRoot = some root) (path : Bytes)
include hb hr

theorem stays_statSecure : Stays b (statSecure pr path) := by
  refine stays_bind (stays_parent hb hr path false) ?_
  rintro (e | ⟨d,leaf⟩) -
  · exact stays_done
  · exact stays_statAt d leaf

theorem stays_filePathExistsSecure : Stays b (filePathExistsSecure pr path) := by
  exact stays_except (stays_statSecure hb hr path) (fun _ => stays_done) fun _ _ => stays_done

theorem stays_fileStatSecure : Stays b (fileStatSecure pr path) := by
  refine stays_bind (stays_statSecure hb hr path) ?_
  intro r _
  split
  · exact stays_done
  · exact stays_done

theorem stays_fileDestinationIsNewerSecure {m : Option Time} :
    Stays b (fileDestinationIsNewerSecure pr path m) := by
  refine stays_bind (stays_fileStatSecure hb hr path) ?_
  rintro (_ | t) -
  · exact stays_done
  · exact stays_done

theorem stays_fileDirectoryExistsSecure : Stays b (fileDirectoryExistsSecure pr path) := by
  refine stays_unless fun _ => ?_
  refine stays_except (stays_parent hb hr _ false) (fun _ => stays_done) ?_
  rintro ⟨d,leaf⟩ -
  exact stays_except (stays_openDirAt d leaf) (fun _ => stays_done) fun _ _ => stays_done

end

def Named (leaf : Bytes) (r : Bool × Bool) : Prop := r.2 = true → ∃ n, leafOf leaf = .name n

section
variable (hb : Covers root b) (hd : root <+: d) {leaf : Bytes}
include hb hd

theorem stays_makeLeaf : Effect (Within b) (makeLeaf d leaf) (Named leaf) := by
  refine stays_bind (stays_mkdirAt leaf (covers_entry hb hd)) ?_
  intro r hm
  split
  · refine stays_bind (stays_openDirAt d leaf) ?_
    rintro (e | p) -
    · exact stays_pure fun _ => hm
    · exact stays_pure fun _ => hm
  · refine stays_bind (stays_openDirAt d leaf) ?_
    rintro (e | p) -
    · exact stays_pure (by simp [Named])
    · exact stays_pure (by simp [Named])
  · exact stays_pure (by simp [Named])

theorem stays_remakeLeaf : Effect (Within b) (remakeLeaf d leaf) (Named leaf) := by
  refine stays_bind (stays_mkdirAt leaf (covers_entry hb hd)) ?_
  intro made hm
  have hn : made.toOption.isSome = true → ∃ n, leafOf leaf = .name n := by
    cases made with
    | error e => simp [Except.toOption]
    | ok u => exact fun _ => hm
  refine stays_bind (stays_openDirAt d leaf) ?_
  rintro (e | p) -
  · exact stays_pure hn
  · exact stays_pure hn

theorem stays_replaceLeaf : Effect (Within b) (replaceLeaf d leaf) (Named leaf) := by
  refine stays_bind (stays_statAt d leaf) ?_
  intro r _
  split
  · exact stays_pure (by simp [Named])
  · refine stays_bind (stays_unlinkAt (covers_entry hb hd)) ?_
    rintro (e | u) -
    · exact stays_pure (by simp [Named])
    · exact stays_remakeLeaf hb hd
  · exact stays_pure (by simp [Named])

theorem stays_ensureLeaf : Effect (Within b) (ensureLeaf d leaf) (Named leaf) := by
  refine stays_bind (stays_openDirAt d leaf) ?_
  intro r _
  split
  · exact stays_pure (by simp [Named])
  · exact stays_makeLeaf hb hd
  · exact stays_replaceLeaf hb hd
  · exact stays_pure (by simp [Named])

end

section
variable (hb : Covers root b) (hr : pr.authorizedRoot = some root)
include hb hr

theorem stays_fileEnsureDirectorySecure {path : Bytes} :
    Stays b (fileEnsureDirectorySecure pr path) := by
  refine stays_unless fun _ => ?_
  refine stays_except (stays_parent hb hr _ true) (fun _ => stays_done) ?_
  rintro ⟨d,leaf⟩ hd
  refine stays_bind (stays_ensureLeaf hb hd.below) fun r hn => ?_
  refine stays_when fun h => ?_
  exact stays_identityApplyOwnershipLink (named_lands hb hd.below (hn h.2.1))

theorem stays_fileRenameSecure {oldPath newPath : Bytes} :
    Stays b (fileRenameSecure pr oldPath newPath) := by
  refine stays_bind (stays_parent hb hr oldPath false) fun old ho => ?_
  refine stays_bind (stays_parent hb hr newPath true) fun new hn => ?_
  split
  · exact stays_except (stays_renameAt (covers_entry hb ho.below) (covers_entry hb hn.below))
      (fun _ => stays_done) fun _ _ => stays_done
  · exact stays_done

end

end Walk

section Wipe

variable {b : Bounds}

def Holds (b : Bounds) (d : Position) : Prop := ∀ q, d <+: q → q ≠ d → b.via q

theorem holds_entry (h : Holds b d) (n : Name) : b.via (d++[n]) :=
  h _ (List.prefix_append d [n]) (by simp)

theorem holds_child (h : Holds b d) {n : Name} : Holds b (d++[n]) :=
  fun q hq _ => h q ((List.prefix_append d [n]).trans hq) fun hqd => by
    have hl := hq.length_le
    rw [hqd, List.length_append, List.length_singleton] at hl
    omega

theorem holds_below {root : Position} (hb : Covers root b) (hd : root <+: d) :
    Holds b d := fun q hq _ => hb q (hd.trans hq)

theorem stays_wipeEntry {wipe : Position → Sys Bool} {n : Name} (h : Holds b d)
    (hw : ∀ d, Holds b d → Stays b (wipe d)) : Stays b (wipeEntry wipe d n) := by
  refine stays_bind (stays_statAt d n.1) ?_
  rintro (e | (_ | ⟨i,x⟩)) -
  · exact stays_done
  · refine stays_bind (stays_openDirAt d n.1) ?_
    rintro (e | child) hc
    · exact stays_done
    have hchild : child = d++[n] := by
      have hl : locate d n.1 = some child := hc
      rw [locate_name leafOf_name] at hl
      exact (Option.some.inj hl).symm
    refine stays_bind (hw child (hchild ▸ holds_child h)) fun ok _ => ?_
    refine stays_when fun _ => ?_
    exact stays_except (stays_rmdirAt (holds_entry h)) (fun _ => stays_done) fun _ _ => stays_done
  · exact stays_except (stays_unlinkAt (holds_entry h)) (fun _ => stays_done) fun _ _ => stays_done

theorem stays_wipeEach {wipe : Position → Sys Bool} {ns : List Name} (h : Holds b d)
    (hw : ∀ d, Holds b d → Stays b (wipe d)) : Stays b (wipeEach wipe d ns) := by
  induction ns with
  | nil => exact stays_done
  | cons n ns ih =>
    refine stays_bind (stays_wipeEntry h hw) fun ok _ => ?_
    exact stays_bind ih fun rest _ => stays_done

theorem stays_wipeDirFd {fuel : ℕ} (d : Position) (h : Holds b d) : Stays b (wipeDirFd fuel d) := by
  induction fuel generalizing d with
  | zero => exact stays_done
  | succ fuel ih =>
    refine stays_bind (stays_query _) ?_
    rintro (e | names) -
    · exact stays_done
    · exact stays_wipeEach h ih

theorem stays_wipeDir (h : Holds b d) : Stays b (wipeDir d) :=
  fun w => stays_wipeDirFd d h w

variable {root : Position} {pr : Process}

/-- With a path that climbs, what is removed is the content of the root's parent. -/
theorem stays_fileRemoveTreeSecure (hb : Covers root b) (hr : pr.authorizedRoot = some root)
    {path : Bytes} (hc : Climbs root path → Holds b root.dropLast) :
    Stays b (fileRemoveTreeSecure pr path) := by
  refine stays_except (stays_parent hb hr path false) (fun _ => stays_done) ?_
  rintro ⟨d,leaf⟩ hd
  refine stays_bind (stays_openDirAt d leaf) ?_
  rintro (e | dir) hdir
  · exact stays_done
  have hholds : Holds b dir := by
    rcases reached_locate hd hdir with h | ⟨h,rfl⟩
    · exact holds_below hb h
    · exact hc h
  refine stays_bind (stays_wipeDir hholds) fun ok _ => ?_
  refine stays_when fun _ => ?_
  exact stays_except (stays_rmdirAt (covers_entry hb hd.below)) (fun _ => stays_done)
    fun _ _ => stays_done

theorem stays_openLeaf {leaf : Bytes}
    (hd : Reached root path (d,leaf)) (hp : leafName path ≠ [dot,dot]) :
    Effect (Within b) (openDirAt d leaf) (WhenOk (root <+: ·)) := by
  refine effect_mono (stays_openDirAt d leaf) ?_
  rintro (e | p) hl
  · trivial
  · have h2 : leaf ≠ [dot,dot] := fun h => hp (hd.leaf.symm.trans h)
    exact locate_below hl h2 hd.below

theorem stays_fileOpenPrivateDir (hb : Covers root b) (hr : pr.authorizedRoot = some root)
    {path : Bytes} (hp : leafName path ≠ [dot,dot]) :
    Effect (Within b) (fileOpenPrivateDir pr path) (WhenOk (root <+: ·)) := by
  refine stays_except (stays_parent hb hr path true) (fun _ => stays_pure trivial) ?_
  rintro ⟨d,leaf⟩ hd
  have opens := stays_openLeaf (b := b) hd hp
  refine stays_bind opens fun r h => ?_
  split
  · exact stays_pure h
  · refine stays_bind (stays_mkdirAt leaf (covers_entry hb hd.below)) fun r _ => ?_
    split
    · exact opens
    · exact opens
    · exact stays_pure trivial
  · exact stays_pure trivial

theorem pathIsWithinRoot_below {root : Position}
    (h : pathIsWithinRoot (absPath root) (absPath p) = true) : root <+: p := by
  by_cases hne : root = []
  · exact hne ▸ List.nil_prefix
  rw [pathIsWithinRoot, Bool.and_eq_true, List.isPrefixOf_iff_prefix] at h
  obtain ⟨⟨rest,hrest⟩,hnext⟩ := h
  rw [← hrest, List.drop_left] at hnext
  have heq : relPath root++rest = relPath p := (List.cons.inj hrest).2
  cases rest with
  | nil =>
    rw [List.append_nil] at heq
    exact relPath_injective heq ▸ List.prefix_rfl
  | cons c rest =>
    have hc : c = slash := of_decide_eq_true hnext
    subst hc
    obtain ⟨n,s,rfl⟩ := below_of_relPath hne ⟨rest,by rw [← heq]; simp⟩
    exact List.prefix_append _ _

theorem stays_fileOpenTempDir (hr : pr.authorizedRoot = some root) {path : Bytes} :
    Effect (Within b) (fileOpenTempDir pr path) (WhenOk (root <+: ·)) := by
  refine stays_except (stays_query _) (fun _ => stays_pure trivial) fun p _ => ?_
  simp only [hr]
  refine stays_except (stays_look (Q := WhenOk (· = p)) _ (fun _ => rfl) fun _ => trivial)
    (fun _ => stays_pure trivial) fun resolved hp => ?_
  have heq : resolved = p := hp
  subst heq
  refine effect_ite (fun h => stays_pure ?_) fun _ => stays_pure trivial
  exact pathIsWithinRoot_below h

theorem stays_fileSymlinkAtSecure (hb : Covers root b) (hr : pr.authorizedRoot = some root)
    {path target : Bytes} :
    Effect (Within b) (fileSymlinkAtSecure pr path target)
      fun ok => ok = true → hasPathTraversal path = false := by
  refine effect_ite (fun _ => stays_pure (by simp)) fun ht => ?_
  have safe : ∀ ok : Bool, ok = true → hasPathTraversal path = false :=
    fun _ _ => Bool.eq_false_iff.mpr ht
  refine stays_bind (stays_parent hb hr path true) ?_
  rintro (e | ⟨d,leaf⟩) hd
  · exact stays_pure (safe _)
  have places : Effect (Within b) (fileSymlinkAtSecure.symlink target d leaf)
      fun ok => ok = true → hasPathTraversal path = false := by
    refine stays_bind (stays_createAt (covers_entry hb hd.below)) ?_
    rintro (e | u) -
    · exact stays_pure (safe _)
    · exact stays_pure (safe _)
  refine stays_bind (stays_statAt d leaf) fun r _ => ?_
  split
  · exact stays_pure (safe _)
  · refine stays_bind (stays_unlinkAt (covers_entry hb hd.below)) fun r _ => ?_
    split
    · exact places
    · exact places
    · exact stays_pure (safe _)
  · exact places

end Wipe

section Engines

variable {b : Bounds} {root : Position} {pr : Process}

theorem stays_prepareFile (h : b.via p) : Stays b (prepareFile p) := by
  exact stays_except (stays_touch h) (fun _ => stays_done) fun _ _ => stays_done

theorem stays_writeFile {i : ℕ} {data : Bytes} {t : Time} (h : b.via p) :
    Stays b (writeFile pr i p data t) := by
  have logs : ∀ (w : World) (fs : Fs),
      Within b w { w with fs := fs, touched := ⟨p,false⟩::w.touched } := by
    refine fun w fs => ⟨[⟨p,false⟩],rfl,?_⟩
    intro t ht
    cases List.mem_singleton.mp ht
    exact h
  refine stays_bind stays_answer ?_
  rintro (_ | ⟨e,n⟩) -
  · exact fun w => ⟨logs w _,trivial⟩
  · exact fun w => ⟨logs w _,trivial⟩

theorem stays_fillFile {i : ℕ} {data : Bytes} {o : StoreOptions} (h : b.via p) :
    Stays b (fillFile pr i p data o) := by
  refine stays_bind (stays_prepareFile h) fun ok _ => ?_
  refine stays_when fun _ => ?_
  exact stays_bind (stays_writeFile h) fun _ _ => stays_done

theorem stays_fileTime {i : ℕ} : Stays b (fileTime i) :=
  fun w => ⟨within_same w w rfl,trivial⟩

theorem stays_nextTempName {scratch : Option Position} {leaf : Bytes} {i : ℕ} :
    Stays b (nextTempName pr scratch leaf i) := by
  intro w
  refine ⟨within_same _ _ ?_,trivial⟩
  cases scratch <;> rfl

def Inside (root : Position) (scratch : Option Position) : Prop := ∀ p ∈ scratch, root <+: p

variable {scratch : Option Position}

theorem inside_getD (hs : Inside root scratch) (hd : root <+: d) : root <+: scratch.getD d := by
  cases scratch with
  | none => exact hd
  | some p => exact hs p rfl

theorem stays_openScratch (hr : pr.authorizedRoot = some root) {tempDir : Option Bytes} :
    Effect (Within b) (openScratch pr tempDir) (WhenOk (Inside root)) := by
  cases tempDir with
  | none => exact stays_pure fun p hp => by cases hp
  | some path =>
    refine stays_bind (stays_fileOpenTempDir hr) ?_
    rintro (e | p) hp
    · exact stays_done
    · refine stays_pure ?_
      rintro q ⟨⟩
      exact hp

variable (hb : Covers root b)
include hb

section
variable {o : StoreOptions}

theorem stays_writeInplace {leaf data : Bytes} (hd : root <+: d) :
    Stays b (writeInplace pr o d leaf data) := by
  refine stays_except (stays_openWrite (covers_entry hb hd)) (fun _ => stays_done) ?_
  rintro ⟨i,p⟩ hp
  refine stays_bind stays_fileTime fun t _ => ?_
  refine stays_unless fun _ => ?_
  exact stays_bind (stays_fillFile hp) fun _ _ => stays_done

theorem stays_storeInplace {leaf data : Bytes} (hd : root <+: d) :
    Stays b (storeInplace pr o d leaf data) := by
  refine stays_bind (stays_statAt d leaf) fun r _ => ?_
  split
  · exact stays_writeInplace hb hd
  · exact stays_done
  · exact stays_writeInplace hb hd

theorem stays_dropTemporary {dir : Position} {name : Bytes} (hd : root <+: dir) :
    Stays b (dropTemporary dir name) := by
  refine stays_bind (stays_unlinkAt (covers_entry hb hd)) fun r _ => ?_
  split
  · exact stays_done
  · exact stays_done
  · exact stays_done

theorem stays_commitTemporary {leaf name : Bytes} (hs : Inside root scratch) (hd : root <+: d) :
    Stays b (commitTemporary o scratch d leaf name) := by
  have hdir := inside_getD hs hd
  refine effect_ite (fun _ => ?_) fun _ => ?_
  · refine stays_bind (stays_linkAt (covers_entry hb hd)) fun r _ => ?_
    split
    · exact stays_dropTemporary hb hdir
    · exact stays_dropTemporary hb hdir
    · exact stays_done
  · exact stays_except (stays_renameAt (covers_entry hb hdir) (covers_entry hb hd))
      (fun _ => stays_done) fun _ _ => stays_done

theorem stays_discardTemporary {leaf name : Bytes} {attempted : Bool} (hs : Inside root scratch)
    (hd : root <+: d) : Stays b (discardTemporary o scratch d leaf name attempted) := by
  have hdir := inside_getD hs hd
  have unlinks : Stays b (do let _ ← unlinkAt (scratch.getD d) name; pure ()) :=
    stays_bind (stays_unlinkAt (covers_entry hb hdir)) fun _ _ => stays_done
  refine effect_ite (fun _ => unlinks) fun _ => ?_
  refine stays_bind (stays_renameAt (covers_entry hb hdir) (covers_entry hb hd)) ?_
  rintro (e | u) -
  · exact unlinks
  · exact stays_done

theorem stays_storeTemporary {leaf name data : Bytes} {i : ℕ} (hs : Inside root scratch)
    (hd : root <+: d) (hp : b.via p) :
    Stays b (storeTemporary pr o scratch d leaf name data i p) := by
  refine stays_bind (stays_fillFile hp) fun r _ => ?_
  refine stays_seq ?_ fun c => ?_
  · exact stays_when fun _ => stays_commitTemporary hb hs hd
  · refine stays_unless fun _ => ?_
    exact stays_bind (stays_discardTemporary hb hs hd) fun _ _ => stays_done

theorem stays_storeAttempts {leaf data : Bytes} (left i : ℕ) (hs : Inside root scratch)
    (hd : root <+: d) : Stays b (storeAttempts pr o scratch d leaf data left i) := by
  induction left generalizing i with
  | zero => exact stays_done
  | succ left ih =>
    refine stays_bind stays_nextTempName fun name _ => ?_
    refine stays_bind (stays_createAt (covers_entry hb (inside_getD hs hd))) ?_
    rintro (e | ⟨j,p⟩) hp
    · exact ih (i+1)
    · exact stays_storeTemporary hb hs hd hp.1

end

omit hb in
theorem stays_destinationNewer {o : StoreOptions} {update : Bool} {d : Position} {leaf : Bytes} :
    Stays b (destinationNewer o update d leaf) := by
  refine stays_bind (stays_statAt d leaf) fun r _ => ?_
  split
  · exact stays_done
  · exact stays_done

variable (hr : pr.authorizedRoot = some root)
include hr

section
variable {o : StoreOptions} {tempDir : Option Bytes}

theorem stays_storeBeside {leaf data : Bytes} (hd : root <+: d) :
    Stays b (storeBeside pr o tempDir d leaf data) := by
  refine stays_bind stays_destinationNewer fun newer _ => ?_
  refine stays_unless fun _ => ?_
  refine stays_bind (stays_openScratch hr) ?_
  rintro (e | scratch) hs
  · exact stays_done
  · exact stays_storeAttempts hb _ 0 hs hd

theorem stays_storeOnce {path data : Bytes} : Stays b (storeOnce pr o tempDir path data) := by
  refine stays_except (stays_parent hb hr path true) (fun _ => stays_done) ?_
  rintro ⟨d,leaf⟩ hd
  refine effect_ite (fun _ => ?_) fun _ => stays_storeBeside hb hr hd.below
  refine stays_bind (stays_storeInplace hb hd.below) fun ok _ => ?_
  exact stays_unless fun _ => stays_done

theorem stays_fileToDiskSecureImpl {path data : Bytes} :
    Stays b (fileToDiskSecureImpl pr o tempDir path data) := by
  refine stays_bind (stays_storeOnce hb hr) ?_
  rintro (_ | _ | _) -
  · exact stays_done
  · exact stays_done
  · exact stays_bind (stays_storeOnce hb hr) fun _ _ => stays_done

end

theorem stays_openBasis {basisPath : Bytes} : Stays b (openBasis pr basisPath) := by
  refine stays_except (stays_parent hb hr basisPath false) (fun _ => stays_done) ?_
  rintro ⟨d,leaf⟩ -
  refine stays_bind (stays_statAt d leaf) fun r _ => ?_
  split
  · exact stays_done
  · exact stays_done

omit hb hr in
theorem stays_copyFill {o : StoreOptions} {source : Bytes} {offset expected i : ℕ}
    (hp : b.via p) : Stays b (copyFill pr o source offset expected i p) := by
  unfold copyFill
  split
  · exact stays_bind (stays_fillFile hp) fun _ _ => stays_done
  · exact stays_bind (stays_writeFile hp) fun _ _ => stays_done

omit hr in
theorem stays_moveTemporary {ready : Bool} {dir : Position} {leaf name : Bytes}
    (hdir : root <+: dir) (hd : root <+: d) : Stays b (moveTemporary ready dir d leaf name) := by
  refine stays_bind (P := fun _ => True) ?_ ?_
  · exact stays_when fun _ => stays_renameAt (covers_entry hb hdir) (covers_entry hb hd)
  · rintro (e | u) -
    · exact stays_bind (stays_unlinkAt (covers_entry hb hdir)) fun _ _ => stays_done
    · exact stays_done

omit hr in
theorem stays_copyAttempts {o : StoreOptions}
    {leaf source : Bytes} (expected left i offset : ℕ) (hs : Inside root scratch)
    (hd : root <+: d) :
    Stays b (copyAttempts pr o scratch d leaf source expected left i offset) := by
  induction left generalizing i offset with
  | zero => exact stays_done
  | succ left ih =>
    have hdir := inside_getD hs hd
    refine stays_bind stays_nextTempName fun name _ => ?_
    refine stays_bind (stays_createAt (covers_entry hb hdir)) fun r hp => ?_
    split
    · exact ih (i+1) offset
    · exact stays_done
    · refine stays_seq ?_ fun ok => ?_
      · exact stays_bind (stays_copyFill hp.1) fun wrote _ =>
          stays_moveTemporary hb hdir hd
      · exact stays_unless fun _ => ih (i+1) _

section
variable {o : StoreOptions} {tempDir : Option Bytes} {path basisPath : Bytes} {expected : ℕ}

theorem stays_copyOnce : Stays b (copyOnce pr o tempDir path basisPath expected) := by
  refine stays_except (stays_parent hb hr path true) (fun _ => stays_done) ?_
  rintro ⟨d,leaf⟩ hd
  refine stays_bind (stays_openBasis hb hr) ?_
  rintro (_ | j) -
  · exact stays_done
  refine stays_bind stays_destinationNewer fun newer _ => ?_
  refine stays_unless fun _ => ?_
  refine stays_except (stays_openScratch hr) (fun _ => stays_done) fun scratch hs => ?_
  refine stays_seq (fun w => ⟨within_same w w rfl,trivial⟩) fun source => ?_
  refine stays_bind (stays_copyAttempts hb expected _ 0 0 hs hd.below) fun ok _ => ?_
  exact stays_unless fun _ => stays_done

theorem stays_fileCopyBasisStreamImpl :
    Stays b (fileCopyBasisStreamImpl pr o tempDir path basisPath expected) := by
  refine stays_bind (stays_copyOnce hb hr) ?_
  rintro (_ | _ | _) -
  · exact stays_done
  · exact stays_done
  · exact stays_bind (stays_copyOnce hb hr)
      fun _ _ => stays_done

end

omit hr in
theorem stays_linkAttempts {leaf : Bytes}
    {bd : Position} {bleaf : Bytes} (left i : ℕ) (hs : Inside root scratch) (hd : root <+: d) :
    Stays b (linkAttempts pr scratch d leaf bd bleaf left i) := by
  induction left generalizing i with
  | zero => exact stays_done
  | succ left ih =>
    refine stays_bind stays_nextTempName fun name _ => ?_
    refine stays_bind (stays_linkAt (covers_entry hb (inside_getD hs hd))) fun r _ => ?_
    split
    · exact stays_done
    · exact ih (i+1)
    · exact stays_done

omit hb hr in
theorem stays_syncLink {useFsync : Bool} : Stays b (syncLink useFsync) := by
  refine stays_when fun _ => ?_
  refine stays_bind stays_answer ?_
  rintro (_ | ⟨e,n⟩) -
  · exact stays_done
  · exact stays_done

theorem stays_linkBasis {useFsync : Bool}
    {leaf basisPath : Bytes} (hs : Inside root scratch) (hd : root <+: d) :
    Stays b (linkBasis pr useFsync scratch d leaf basisPath) := by
  refine stays_except (stays_parent hb hr basisPath false) (fun _ => stays_done) ?_
  rintro ⟨bd,bleaf⟩ -
  refine stays_bind (stays_linkAttempts hb _ 0 hs hd) ?_
  rintro (_ | name) -
  · exact stays_done
  · exact stays_bind stays_syncLink fun ok _ =>
      stays_moveTemporary hb (inside_getD hs hd) hd

theorem stays_fileToDiskSecureLinkImpl {o : StoreOptions} {useFsync : Bool}
    {tempDir : Option Bytes} {path basisPath data : Bytes} {size : ℕ} :
    Stays b (fileToDiskSecureLinkImpl pr o useFsync tempDir path basisPath data size) := by
  refine stays_except (stays_parent hb hr path true) (fun _ => stays_done) ?_
  rintro ⟨d,leaf⟩ hd
  refine stays_bind (stays_openScratch hr) ?_
  rintro (e | scratch) hs
  · exact stays_done
  refine stays_bind (stays_linkBasis hb hr hs hd.below) fun ok _ => ?_
  refine stays_unless fun _ => ?_
  refine stays_bind (stays_fileCopyBasisStreamImpl hb hr) fun ok _ => ?_
  exact stays_unless fun _ =>
    stays_fileToDiskSecureImpl hb hr

end Engines

end FastSync.AccessConfined
