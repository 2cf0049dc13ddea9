import FastSync.SaveEntry
import FastSync.AccessConfined

/-!
# What saving an entry touches

Every kind of entry is saved through entries of a directory below the authorized
root, but for three ways out: the attributes of a directory whose path ends in
`..`, `--force` on a file with such a path, and the unlink of a failed staging,
which takes a whole path.
-/

set_option autoImplicit false

namespace FastSync.SaveConfined
open DeletePaths Programs SystemCalls
open SecureWalk DelayUpdates SaveEntry
open WalkConfined AccessConfined
open DeleteCommit (delayUpdatesStagingDir)

section Entries

variable {b : Bounds} {root : Position} {pr : Process} {cfg : Config} {recv : Bytes} {file : File}

theorem stays_xattrApply {set : Sys (Except Errno Unit)} (hs : Stays b set) {n : ℕ} :
    Stays b (xattrApply set n) := by
  induction n with
  | zero => exact stays_done
  | succ n ih => exact stays_bind hs fun _ _ => ih

def stagedPath (recv : Bytes) (file : File) : Bytes := pathCat (stagingRoot recv) file.path

/-- The positions that the unlink of a failed staging may remove. -/
def Unstages (b : Bounds) (recv : Bytes) (file : File) : Prop :=
  ∀ fs a fs' ps, unlinkPath (stagedPath recv file) fs = .ok (a,fs',ps) → ∀ p ∈ ps, b.byPath p

variable (hb : Covers root b) (hr : pr.authorizedRoot = some root)
include hb hr

theorem stays_policySkips {path updatePath : Bytes} :
    Stays b (policySkips pr cfg file path updatePath) := by
  have exists' := stays_filePathExistsSecure hb hr path
  refine stays_seq ?_ fun misses => ?_
  · refine stays_when fun _ => ?_
    exact stays_bind exists' fun _ _ => stays_done
  refine stays_unless fun _ => ?_
  refine stays_seq ?_ fun meets => ?_
  · exact stays_when fun _ => exists'
  refine stays_unless fun _ => ?_
  exact stays_when fun _ => stays_fileDestinationIsNewerSecure hb hr updatePath

omit hb hr in
theorem stays_finishSpecial {d : Position} {leaf : Bytes} {m : Metadata} (h : Lands b.via d leaf) :
    Stays b (finishSpecial pr cfg d leaf m) := by
  refine stays_seq ?_ fun _ => ?_
  · exact stays_when fun _ => stays_attributeAt h
  refine stays_seq ?_ fun _ => stays_done
  exact stays_when fun _ => stays_identityApplyOwnershipLink h

omit hr in
theorem stays_makeSpecial {d : Position} {leaf : Bytes} {m : Metadata} {kind : Special}
    (hd : root <+: d) : Stays b (makeSpecial pr cfg d leaf m kind) := by
  refine stays_bind (stays_createAt (covers_entry hb hd)) fun r hn => ?_
  split
  · exact stays_finishSpecial (named_lands hb hd hn.2)
  · exact stays_bind (stays_statAt d leaf) fun _ _ => stays_done
  · exact stays_done

theorem stays_fileSaveSpecialToDisk : Stays b (fileSaveSpecialToDisk pr cfg recv file) := by
  refine stays_unless fun _ => ?_
  cases file.metadata with
  | none => exact stays_done
  | some m =>
    dsimp only
    cases m.format with
    | none => exact stays_done
    | some kind =>
      refine stays_unless fun _ => ?_
      refine stays_unless fun _ => ?_
      refine stays_except (stays_parent hb hr _ true) (fun _ => stays_done) ?_
      rintro ⟨d,leaf⟩ hd
      refine stays_bind (stays_policySkips hb hr) fun skips _ => ?_
      exact stays_unless fun _ =>
        stays_makeSpecial hb hd.below

variable {path : Bytes}

theorem stays_finishDirectory (hc : Climbs root path → b.via root.dropLast) :
    Stays b (finishDirectory pr cfg file path) := by
  refine stays_bind (stays_parent hb hr path false) fun parent hp => ?_
  have hdir : Effect (Within b) (openDirectory parent) (WhenOk b.via) := by
    cases parent with
    | error e => exact stays_done
    | ok r =>
      refine effect_mono (stays_openDirAt r.1 r.2) ?_
      rintro (e | p) hl
      · trivial
      · exact reached_lands hb hp hc p hl
  have howner : Stays b (directoryOwner pr file parent) := by
    refine stays_when fun _ => ?_
    cases parent with
    | error e => exact stays_done
    | ok r => exact stays_identityApplyOwnershipLink (reached_lands hb hp hc)
  have htimes : Stays b (directoryTimes cfg file parent) := by
    cases parent with
    | error e => exact stays_done
    | ok r =>
      refine stays_when fun _ => ?_
      exact stays_bind (stays_attributeAt (reached_lands hb hp hc)) fun _ _ => stays_done
  refine stays_bind hdir fun dir hd => ?_
  refine stays_bind howner fun ok _ => ?_
  refine stays_when fun _ => ?_
  refine stays_seq ?_ fun _ => stays_bind htimes fun _ _ => stays_done
  unfold directoryXattrs
  split
  · exact stays_when fun _ => stays_xattrApply (stays_attributeFd hd)
  · exact stays_done

theorem stays_fileSaveDirectoryToDisk
    (hc : Climbs root (pathCat recv file.path) → b.via root.dropLast) :
    Stays b (fileSaveDirectoryToDisk pr cfg recv file) := by
  refine stays_unless fun _ => ?_
  refine stays_bind (stays_fileEnsureDirectorySecure hb hr) fun ok _ => ?_
  exact stays_when fun _ => stays_finishDirectory hb hr hc

theorem stays_fileRestoreSymlinkMetadata (hc : ¬Climbs root path) :
    Stays b (fileRestoreSymlinkMetadata pr cfg file path) := by
  unfold fileRestoreSymlinkMetadata
  cases file.metadata with
  | none => exact stays_done
  | some m =>
    refine stays_except (stays_parent hb hr path false) (fun _ => stays_done) ?_
    rintro ⟨d,leaf⟩ hd
    have lands : Lands b.via d leaf := reached_lands hb hd fun h => absurd h hc
    refine stays_bind (stays_identityApplyOwnershipLink lands) fun _ _ => ?_
    refine stays_seq ?_ fun _ => ?_
    · exact stays_when fun _ => stays_attributeAt lands
    refine stays_seq ?_ fun _ => stays_done
    exact stays_when fun _ => stays_attributeAt lands

theorem stays_symlinkXattrs (hc : ¬Climbs root path) :
    Stays b (symlinkXattrs pr cfg file path) := by
  unfold symlinkXattrs
  split
  · refine stays_when fun _ => ?_
    refine stays_except (stays_parent hb hr path false) (fun _ => stays_done) ?_
    rintro ⟨d,leaf⟩ hd
    refine stays_unless fun _ => ?_
    exact stays_xattrApply (stays_attributeAt (reached_lands hb hd fun h => absurd h hc))
  · exact stays_done

omit hb hr in
theorem climbs_traversal (h : Climbs root path) : hasPathTraversal path = true := by
  refine decide_eq_true ?_
  rw [← h.1]
  exact List.getLast_mem _

/-- The link itself is made only under a path without `..`. -/
theorem stays_placeSymlink {linkPath target : Bytes} :
    Stays b (placeSymlink pr cfg file linkPath target) := by
  refine stays_bind (stays_fileEnsureDirectorySecure hb hr) fun ok _ => ?_
  refine stays_when fun _ => ?_
  refine stays_bind (stays_fileSymlinkAtSecure hb hr) fun ok ht => ?_
  refine stays_when fun hok => ?_
  have hc : ¬Climbs root linkPath := by
    intro h
    have h1 := climbs_traversal h
    rw [ht hok] at h1
    cases h1
  refine stays_seq ?_ fun ok => ?_
  · exact stays_when fun _ => stays_fileRestoreSymlinkMetadata hb hr hc
  refine stays_when fun _ => ?_
  exact stays_bind (stays_symlinkXattrs hb hr hc) fun _ _ => stays_done

theorem stays_fileSaveSymlinkToDisk : Stays b (fileSaveSymlinkToDisk pr cfg recv file) := by
  unfold fileSaveSymlinkToDisk
  cases file.symlinkTarget with
  | none => exact stays_done
  | some target =>
    exact stays_unless fun _ => stays_placeSymlink hb hr

omit hb hr in
theorem leafName_stagingRoot {recv : Bytes} : leafName (stagingRoot recv) ≠ [dot,dot] := by
  have hn : components delayUpdatesStagingDir = [delayUpdatesStagingDir] := by decide
  have hl : (components (stagingRoot recv)).getLast? = some delayUpdatesStagingDir := by
    rw [stagingRoot, pathCat]
    split_ifs with h1 h2
    · rw [hn]
      rfl
    · exact absurd h2 (by decide)
    · rw [components_append, show stripLeading delayUpdatesStagingDir = delayUpdatesStagingDir by
        decide, hn]
      simp
  intro h
  rw [List.getLast?_eq_getLast_of_ne_nil components_ne_nil, show (components
    (stagingRoot recv)).getLast _ = leafName (stagingRoot recv) from rfl, h] at hl
  exact absurd hl (by decide)

omit hb hr in
theorem stays_setContext {context : DelayUpdatesContext} : Stays b (setContext context) :=
  fun _ => ⟨within_same _ _ rfl,trivial⟩

theorem stays_delayUpdatesPrepare {context : DelayUpdatesContext} :
    Stays b (delayUpdatesPrepare pr recv context) := by
  refine stays_unless fun _ => ?_
  refine stays_except (stays_fileOpenPrivateDir hb hr leafName_stagingRoot)
    (fun _ => stays_done) fun fd hfd => ?_
  refine stays_bind stays_answer ?_
  rintro (_ | ⟨e,n⟩) -
  · refine stays_bind (stays_wipeDir (holds_below hb hfd)) fun ok _ => ?_
    refine stays_when fun _ => ?_
    exact stays_bind stays_setContext fun _ _ => stays_done
  · exact stays_done

omit hb hr in
theorem stays_delayContext : Stays b delayContext := by
  intro w
  refine ⟨within_same _ _ ?_,trivial⟩
  unfold delayContext
  split <;> rfl

omit hb hr in
theorem stays_delayUpdatesRecord {entry : StagedFileEntry} :
    Stays b (delayUpdatesRecord entry) := by
  refine stays_bind stays_answer ?_
  rintro (_ | ⟨e,n⟩) -
  · rintro ⟨fs,rs,sequence,touched,opened,context⟩
    refine ⟨within_same _ _ ?_,trivial⟩
    cases context <;> rfl
  · exact stays_done

theorem stays_backUp {replaced path : Bytes} : Stays b (backUp pr cfg recv replaced path) := by
  refine stays_bind (stays_fileStatSecure hb hr replaced) ?_
  rintro (_ | t) -
  · exact stays_done
  refine stays_bind (stays_fileEnsureDirectorySecure hb hr) fun ok _ => ?_
  exact stays_when fun _ => stays_fileRenameSecure hb hr

theorem stays_clearDirectory
    (hc : cfg.forceDelete = true → Climbs root path → Holds b root.dropLast) :
    Stays b (clearDirectory pr cfg path) := by
  refine stays_when fun hf => ?_
  refine stays_bind (stays_fileDirectoryExistsSecure hb hr path) fun ok _ => ?_
  exact stays_when fun _ => stays_fileRemoveTreeSecure hb hr (hc hf)

theorem stays_hardlinkReadSource {path : Bytes} : Stays b (hardlinkReadSource pr path) := by
  refine stays_except (stays_parent hb hr path false) (fun _ => stays_done) ?_
  rintro ⟨d,leaf⟩ -
  refine stays_bind (stays_statAt d leaf) fun r _ => ?_
  split
  · exact stays_done
  · exact stays_unless fun _ => stays_done
  · exact stays_done

theorem stays_hardlinkSiblingAbsentFirst {destination : Bytes} :
    Stays b (hardlinkSiblingAbsentFirst pr destination) := by
  refine stays_bind (stays_filePathExistsSecure hb hr destination) fun ok _ => ?_
  exact stays_unless fun _ => stays_done

omit hb hr in
theorem stays_unstage (hu : Unstages b recv file) {r : FileSaveResult} :
    Stays b (do let _ ← changePath (unlinkPath (stagedPath recv file)); pure r) :=
  stays_bind (stays_changePath hu) fun _ _ => stays_done

theorem stays_stageSibling (hu : Unstages b recv file) {target : Bytes} :
    Stays b (stageSibling pr cfg recv file target) := by
  refine stays_bind stays_delayContext fun context _ => ?_
  refine stays_bind (stays_delayUpdatesPrepare hb hr) fun ok _ => ?_
  refine stays_when fun _ => ?_
  refine stays_bind (stays_hardlinkReadSource hb hr) ?_
  rintro (absent | data) -
  · exact stays_when fun _ => stays_hardlinkSiblingAbsentFirst hb hr
  refine stays_bind (stays_fileToDiskSecureLinkImpl hb hr) fun ok _ => ?_
  refine effect_ite (fun _ => ?_) fun _ => stays_unstage hu
  refine stays_bind stays_delayUpdatesRecord fun ok _ => ?_
  exact stays_unless fun _ => stays_unstage hu

omit hb hr in
theorem stays_resolveTempDir? : Stays b (resolveTempDir? cfg recv) := by
  unfold resolveTempDir?
  cases cfg.tempDir with
  | none => exact stays_done
  | some dir =>
    refine stays_bind (P := fun _ => True) ?_ ?_
    · refine effect_ite (fun _ => ?_) fun _ => ?_
      · exact stays_unless fun _ => stays_done
      refine stays_except (stays_query _) (fun _ => stays_done) fun canonicalTemp _ => ?_
      refine stays_bind (stays_query _) ?_
      rintro (e | canonicalRoot) -
      · exact stays_done
      exact stays_unless fun _ => stays_done
    · rintro (_ | path) -
      · exact stays_done
      · exact stays_done

theorem stays_linkSibling {target : Bytes} : Stays b (linkSibling pr cfg recv file target) := by
  refine stays_bind (stays_hardlinkReadSource hb hr) ?_
  rintro (absent | data) -
  · exact stays_when fun _ => stays_hardlinkSiblingAbsentFirst hb hr
  refine stays_bind stays_resolveTempDir? ?_
  rintro (_ | tempDir) -
  · exact stays_done
  exact stays_bind (stays_fileToDiskSecureLinkImpl hb hr)
    fun _ _ => stays_done

theorem stays_fileSaveHardlinkSibling (hu : cfg.delayUpdates = true → Unstages b recv file)
    {target : Bytes} : Stays b (fileSaveHardlinkSibling pr cfg recv file target) := by
  refine stays_bind (stays_policySkips hb hr) fun skips _ => ?_
  refine stays_unless fun _ => ?_
  exact effect_ite (fun hd => stays_stageSibling hb hr (hu hd))
    fun _ => stays_linkSibling hb hr

theorem stays_stageData {path : Bytes} : Stays b (stageData pr cfg file path) := by
  unfold stageData
  split
  · exact stays_fileToDiskSecureLinkImpl hb hr
  · exact stays_fileCopyBasisStreamImpl hb hr
  · exact stays_fileToDiskSecureImpl hb hr

theorem stays_fileStageDelayedUpdate (hu : Unstages b recv file) {destination : Bytes} :
    Stays b (fileStageDelayedUpdate pr cfg recv file destination) := by
  refine stays_bind (stays_policySkips hb hr) fun skips _ => ?_
  refine stays_unless fun _ => ?_
  refine stays_unless fun _ => ?_
  refine stays_bind stays_delayContext fun context _ => ?_
  refine stays_bind (stays_delayUpdatesPrepare hb hr) fun ok _ => ?_
  refine stays_when fun _ => ?_
  refine stays_bind (stays_stageData hb hr) fun ok _ => ?_
  refine stays_when fun _ => ?_
  refine stays_bind stays_delayUpdatesRecord fun ok _ => ?_
  exact stays_unless fun _ => stays_unstage hu

theorem stays_fileSaveInstallData {tempDir : Option Bytes} :
    Stays b (fileSaveInstallData pr cfg recv file tempDir) := by
  unfold fileSaveInstallData
  split
  · exact stays_fileToDiskSecureLinkImpl hb hr
  · exact stays_fileCopyBasisStreamImpl hb hr
  · exact stays_fileToDiskSecureImpl hb hr

theorem stays_installRegular {tempDir : Option Bytes} :
    Stays b (installRegular pr cfg recv file tempDir) := by
  refine stays_unless fun _ => ?_
  refine stays_bind (stays_fileSaveInstallData hb hr) fun ok _ => ?_
  refine stays_when fun _ => ?_
  refine stays_when fun _ => ?_
  exact stays_bind (stays_fileRenameSecure hb hr) fun _ _ => stays_done

theorem stays_makeWay (hc : cfg.forceDelete = true → Climbs root (pathCat recv file.path) →
      Holds b root.dropLast) : Stays b (makeWay pr cfg recv file) := by
  refine stays_seq ?_ fun ok => ?_
  · exact stays_unless fun _ => stays_clearDirectory hb hr hc
  refine stays_when fun _ => ?_
  exact stays_when fun _ => stays_backUp hb hr

theorem stays_saveRegular (hu : cfg.delayUpdates = true → Unstages b recv file)
    (hc : cfg.forceDelete = true → Climbs root (pathCat recv file.path) → Holds b root.dropLast) :
    Stays b (saveRegular pr cfg recv file) := by
  refine stays_unless fun _ => ?_
  refine stays_bind stays_resolveTempDir? ?_
  rintro (_ | tempDir) -
  · exact stays_done
  refine effect_ite (fun hd => stays_fileStageDelayedUpdate hb hr (hu hd)) fun _ => ?_
  refine stays_bind (stays_policySkips hb hr) fun skips _ => ?_
  refine stays_unless fun _ => ?_
  refine stays_bind (stays_makeWay hb hr hc) fun ok _ => ?_
  exact stays_when fun _ => stays_installRegular hb hr

theorem stays_applyDirTime {entry : DirTime}
    (hc : Climbs root (pathCat recv entry.path) → b.via root.dropLast) :
    Stays b (applyDirTime pr cfg recv entry) := by
  refine stays_except (stays_parent hb hr _ false) (fun _ => stays_done) ?_
  rintro ⟨d,leaf⟩ hd
  have lands : Lands b.via d leaf := reached_lands hb hd hc
  refine stays_bind (stays_statAt d leaf) fun r _ => ?_
  split
  · refine stays_bind (stays_openDirAt d leaf) fun dir hdir => ?_
    have hvia : ∀ p, dir = .ok p → b.via p := by
      rintro p rfl
      exact lands p hdir
    refine stays_seq ?_ fun _ => ?_
    · cases dir with
      | error e => exact stays_done
      | ok p =>
        exact stays_bind (stays_identityApplyOwnership (hvia p rfl)) fun _ _ => stays_done
    refine stays_seq ?_ fun _ => ?_
    · exact stays_when fun _ => stays_attributeAt lands
    refine stays_seq ?_ fun _ => ?_
    · cases dir with
      | error e => exact stays_done
      | ok p =>
        refine stays_when fun _ => ?_
        exact stays_bind (stays_attributeFd (hvia p rfl)) fun _ _ => stays_done
    · unfold applyDirXattrs
      split
      · exact stays_when fun _ => stays_xattrApply (stays_attributeFd (hvia _ rfl))
      · exact stays_done
  · exact stays_done

theorem stays_dirMetadataListApply {entries : List DirTime}
    (hc : ∀ entry ∈ entries, Climbs root (pathCat recv entry.path) → b.via root.dropLast) :
    Stays b (dirMetadataListApply pr cfg recv entries) := by
  refine stays_when fun _ => ?_
  induction entries with
  | nil => exact stays_done
  | cons entry entries ih =>
    refine stays_bind (stays_applyDirTime hb hr (hc entry (by simp))) fun _ _ => ?_
    exact ih fun e he => hc e (by simp [he])

end Entries

end FastSync.SaveConfined
