import FastSync.ReadOnly
import FastSync.SaveConfined

/-!
# Where saving leaves the authorized root

A run is confined when everything it touches lies below the authorized root.
What the confinement lemmas leave open are the ways out, and each of them is
taken by some run.
-/

set_option autoImplicit false

namespace FastSync.SaveEscapes
open DeletePaths Programs SystemCalls
open SecureWalk DelayUpdates SaveEntry
open ReadOnly WalkConfined AccessConfined SaveConfined

section Lexical

theorem traversal_stripTrailing {a : Bytes} (h : hasPathTraversal a = false) :
    [dot,dot] ∉ components (stripTrailing a) := by
  have ha : [dot,dot] ∉ components a := of_decide_eq_false h
  unfold stripTrailing
  split
  next hl =>
    obtain ⟨q,rfl⟩ := List.getLast?_eq_some_iff.mp hl
    rw [components_append] at ha
    rw [List.dropLast_concat]
    exact fun hm => ha (List.mem_append_left _ hm)
  · exact ha

theorem traversal_stripLeading {a : Bytes} (h : hasPathTraversal a = false) :
    [dot,dot] ∉ components (stripLeading a) := by
  have ha : [dot,dot] ∉ components a := of_decide_eq_false h
  unfold stripLeading
  split
  next hl =>
    cases a with
    | nil => cases hl
    | cons c a =>
      rw [show c = slash from Option.some.inj hl, components, if_pos rfl] at ha
      exact fun hm => ha (List.mem_cons_of_mem _ hm)
  · exact ha

theorem traversal_pathCat {a c : Bytes} (ha : hasPathTraversal a = false)
    (hc : hasPathTraversal c = false) : hasPathTraversal (pathCat a c) = false := by
  unfold pathCat
  split_ifs
  · exact hc
  · exact ha
  · refine decide_eq_false ?_
    rw [components_append, List.mem_append]
    rintro (h | h)
    · exact traversal_stripTrailing ha h
    · exact traversal_stripLeading hc h

theorem climbs_pathCat {root : Position} {recv path : Bytes} (hrecv : hasPathTraversal recv = false)
    (hpath : hasPathTraversal path = false) : ¬Climbs root (pathCat recv path) := by
  intro h
  have h1 := climbs_traversal h
  rw [traversal_pathCat hrecv hpath] at h1
  cases h1

end Lexical

section Save

variable {b : Bounds} {root : Position} {pr : Process} {cfg : Config} {recv : Bytes} {file : File}

/-- The bounds admit the ways in which a saved entry may leave the root. -/
structure WaysOut (b : Bounds) (root : Position) (cfg : Config) (recv : Bytes) (file : File) :
    Prop where
  unstaged : cfg.delayUpdates = true → Unstages b recv file
  attributes : file.isDir = true → Climbs root (pathCat recv file.path) → b.via root.dropLast
  forced : cfg.forceDelete = true → file.isDir = false → Climbs root (pathCat recv file.path) →
    Holds b root.dropLast

theorem parent_dir {fs : Fs} (h : fs.node root = some .dir) : fs.node root.dropLast = some .dir := by
  rcases List.eq_nil_or_concat' root with rfl | ⟨d,n,rfl⟩
  · exact h
  · rw [List.dropLast_concat]
    exact fs.tree.closed d n (by rw [show fs.tree.node (d++[n]) = _ from h]; simp)

theorem within_bind {α β : Type} {m : Sys α} {k : α → Sys β} {w : World}
    (hm : Within b w (m w).2) (hk : Stays b (k (m w).1)) :
    Within b w ((m >>= k) w).2 := within_composable.trans _ _ _ hm (hk _).1

section
variable (hb : Covers root b) (hr : pr.authorizedRoot = some root)
include hb hr

theorem writeDevice_within {w : World}
    (hw : Climbs root (pathCat recv file.path) → w.fs.node root = some .dir) :
    Within b w (fileSaveWriteDevice pr recv file w).2 := by
  unfold fileSaveWriteDevice
  split
  · exact within_same w w rfl
  rw [bind_apply]
  have hparent := stays_parent hb hr (pathCat recv file.path) false w
  have hfs := reads_fs (reads_fileOpenSecureParent pr (pathCat recv file.path)) w
  generalize fileOpenSecureParent pr (pathCat recv file.path) false w = r at hparent hfs
  obtain ⟨(e | ⟨d,leaf⟩),w1⟩ := r
  · exact hparent.1
  refine within_composable.trans _ _ _ hparent.1 (within_bind (stays_statAt d leaf w1).1 ?_)
  split
  next i kind hs =>
    -- the parent of a directory is no device node
    have hlands : Lands b.via d leaf := by
      intro p hp
      rcases reached_locate hparent.2 hp with h | ⟨hc,rfl⟩
      · exact hb p h
      have hdir : w1.fs.node root.dropLast = some .dir := by
        rw [show w1.fs = w.fs from hfs]
        exact parent_dir (hw hc)
      have hstat : stat d leaf w1.fs = .ok .dir := by
        simp [stat, show locate d leaf = some root.dropLast from hp, Fs.lstat, hdir]
      obtain ⟨rs,r,hq,hr⟩ := query_run (stat d leaf) w1
      rw [statAt, hq] at hs
      rcases hr with rfl | ⟨e,rfl⟩
      · rw [hstat] at hs
        cases hs
      · cases hs
    refine stays_when fun _ => ?_
    exact stays_except (stays_attributeAt hlands) (fun _ => stays_done) fun _ _ => stays_done
  · exact stays_done

theorem stays_saveByKind (hout : WaysOut b root cfg recv file) :
    Stays b (saveByKind pr cfg recv file) := by
  refine effect_ite (fun hd => stays_fileSaveDirectoryToDisk hb hr (hout.attributes hd)) fun hd => ?_
  have regular := stays_saveRegular hb hr hout.unstaged fun hf =>
    hout.forced hf (Bool.eq_false_iff.mpr hd)
  refine effect_ite (fun _ => stays_fileSaveSymlinkToDisk hb hr) fun _ => ?_
  refine effect_ite (fun _ => ?_) fun _ => regular
  cases file.hardlinkTarget with
  | none => exact regular
  | some target => exact stays_fileSaveHardlinkSibling hb hr hout.unstaged

theorem save_within (hout : WaysOut b root cfg recv file) {w : World}
    (hw : Climbs root (pathCat recv file.path) → w.fs.node root = some .dir) :
    Within b w (fileSaveToDiskFullEx pr cfg recv file w).2 := by
  have kinds := (stays_saveByKind hb hr hout w).1
  unfold fileSaveToDiskFullEx fileSaveTrySpecialDispatch
  split_ifs
  · exact within_same w w rfl
  · exact within_same w w rfl
  · exact within_same w w rfl
  · exact kinds
  · exact (stays_fileSaveSpecialToDisk hb hr w).1
  · exact within_same w w rfl
  · exact writeDevice_within hb hr hw
  · exact kinds

end

end Save

def touches {α : Type} (m : Sys α) (w : World) : List Touch :=
  (m w).2.touched.take ((m w).2.touched.length-w.touched.length)

theorem touches_within {α : Type} {b : Bounds} {m : Sys α} {w : World}
    (h : Within b w (m w).2) : ∀ t ∈ touches m w, b.Admits t := by
  obtain ⟨ts,hw,hts⟩ := h
  rwa [touches, hw, List.length_append, Nat.add_sub_cancel, List.take_left]

def Confined {α : Type} (root : Position) (m : Sys α) (w : World) : Prop :=
  ∀ t ∈ touches m w, root <+: t.position

instance {α : Type} (root : Position) (m : Sys α) (w : World) : Decidable (Confined root m w) :=
  inferInstanceAs (Decidable (∀ t ∈ touches m w, root <+: t.position))

/-- How a touch of a saved entry can lie outside the root: the unlink of a failed
staging follows the links on its path, a directory whose path climbs gives new
attributes to the root's parent, and `--force` empties that parent. -/
inductive Escape (root : Position) (cfg : Config) (recv : Bytes) (file : File) : Touch → Prop
  | unstaged (p : Position) (fs : Fs) (a : Unit) (fs' : Fs) (hd : cfg.delayUpdates = true)
      (h : unlinkPath (stagedPath recv file) fs = .ok (a,fs',[p])) : Escape root cfg recv file ⟨p,true⟩
  | attributes (hd : file.isDir = true) (hc : Climbs root (pathCat recv file.path)) :
      Escape root cfg recv file ⟨root.dropLast,false⟩
  | forced (p : Position) (hf : cfg.forceDelete = true) (hd : file.isDir = false)
      (hc : Climbs root (pathCat recv file.path)) (hp : root.dropLast <+: p)
      (hne : p ≠ root.dropLast) : Escape root cfg recv file ⟨p,false⟩

section Claims

variable {root : Position} {pr : Process} {cfg : Config} {recv : Bytes} {file : File}

def saveBounds (root : Position) (cfg : Config) (recv : Bytes) (file : File) : Bounds where
  via := fun p => root <+: p ∨ Escape root cfg recv file ⟨p,false⟩
  byPath := fun p => Escape root cfg recv file ⟨p,true⟩

theorem saveBounds_covers : Covers root (saveBounds root cfg recv file) := fun _ h => .inl h

theorem saveBounds_ways : WaysOut (saveBounds root cfg recv file) root cfg recv file where
  unstaged := by
    intro hd fs a fs' ps h p hp
    unfold unlinkPath at h
    split at h
    · cases h
    next d c hs =>
      obtain ⟨n,-,rfl⟩ := unlink_touches h
      cases List.mem_singleton.mp hp
      refine .unstaged _ fs a fs' hd ?_
      rw [unlinkPath, hs]
      exact h
  attributes := fun hd hc => .inr (.attributes hd hc)
  forced := fun hf hd hc q hq hne => .inr (.forced q hf hd hc hq hne)

theorem save_touches (hr : pr.authorizedRoot = some root) {w : World}
    (hw : Climbs root (pathCat recv file.path) → w.fs.node root = some .dir) :
    ∀ t ∈ touches (fileSaveToDiskFullEx pr cfg recv file) w,
      root <+: t.position ∨ Escape root cfg recv file t := by
  intro t ht
  have h := touches_within (save_within saveBounds_covers hr saveBounds_ways hw) t ht
  obtain ⟨p,byPath⟩ := t
  cases byPath with
  | true => exact .inr h
  | false => exact h

/-- The root's parent gets new attributes, for a directory record that climbs. -/
def Restamped (root : Position) (recv : Bytes) (entries : List DirTime) (t : Touch) : Prop :=
  t = ⟨root.dropLast,false⟩ ∧ ∃ entry ∈ entries, Climbs root (pathCat recv entry.path)

theorem dirTimes_touches (hr : pr.authorizedRoot = some root) {entries : List DirTime} {w : World} :
    ∀ t ∈ touches (dirMetadataListApply pr cfg recv entries) w,
      root <+: t.position ∨ Restamped root recv entries t := by
  let b : Bounds :=
    { via := fun p => root <+: p ∨ Restamped root recv entries ⟨p,false⟩
      byPath := fun _ => False }
  have hb : Covers root b := fun _ h => .inl h
  intro t ht
  have hwithin : Within b w (dirMetadataListApply pr cfg recv entries w).2 :=
    (stays_dirMetadataListApply hb hr (fun entry he hc => .inr ⟨rfl,entry,he,hc⟩) w).1
  have h := touches_within hwithin t ht
  obtain ⟨p,byPath⟩ := t
  cases byPath with
  | true => exact h.elim
  | false => exact h

theorem confined_iff {α : Type} {m : Sys α} {w : World} {E : Touch → Prop}
    (h : ∀ t ∈ touches m w, root <+: t.position ∨ E t) :
    Confined root m w ↔ ¬∃ t ∈ touches m w, E t ∧ ¬root <+: t.position := by
  constructor
  · rintro hc ⟨t,ht,-,hn⟩
    exact hn (hc t ht)
  · intro hn t ht
    by_contra hp
    exact hn ⟨t,ht,(h t ht).resolve_left hp,hp⟩

/-- The unlink of a failed staging removed something outside the root. -/
def UnstagesOutside {α : Type} (root : Position) (cfg : Config) (recv : Bytes) (file : File)
    (m : Sys α) (w : World) : Prop :=
  cfg.delayUpdates = true ∧ ∃ p fs fs', ⟨p,true⟩ ∈ touches m w ∧
    unlinkPath (stagedPath recv file) fs = .ok ((),fs',[p]) ∧ ¬root <+: p

end Claims

section Example

def emptyFs : Fs where
  tree :=
    { node := fun p => if p = [] then some .dir else none
      support := []
      rooted := rfl
      closed := by
        intro p n h
        simp at h
      covered := by
        intro p hp h
        simp [hp] at h }
  content := fun _ => .link []
  next := 0
  bounded := by
    intro p i h
    by_cases hp : p = [] <;> simp [hp] at h

def emptyWorld : World := ⟨emptyFs,[],0,[],[],none⟩

def rootName : Name := ⟨[114],by decide⟩
def outsideName : Name := ⟨[111],by decide⟩
def victimName : Name := ⟨[118],by decide⟩

def startWorld : World :=
  ((do
    let _ ← mkdirAt [] [114]
    let _ ← mkdirAt [] [111]
    let _ ← createAt (.file [1] (0,0)) [outsideName] [118]
    pure () : Sys Unit) emptyWorld).2

def plainIdentity : Identity := ⟨false,false,false,false,fun _ => false⟩

def plainProcess : Process := ⟨some [rootName],[],false,false,1,(0,0),plainIdentity⟩

def plainConfig : Config where
  existing := false
  ignoreExisting := false
  update := false
  backup := false
  suffix := none
  backupDir := none
  inplace := false
  keepPartial := false
  partialDir := none
  tempDir := none
  forceDelete := false
  delayUpdates := false
  writeDevices := false
  fakeSuper := false
  useXattrs := false
  useMetadata := false
  preserveTimes := false
  preserveAtimes := false
  preservePerms := false
  omitDirTimes := false
  omitLinkTimes := false
  preserveDevices := false
  preserveSpecials := false
  superPermitted := false
  mungeLinks := false
  useFsync := false
  dryRun := false
  chmodSpec := none

def plainFile (path data : Bytes) : File where
  path := path
  data := some data
  size := data.length
  metadata := none
  xattrs := none
  isDir := false
  dirTimeOnly := false
  isSymlink := false
  symlinkTarget := none
  isSpecial := false
  rdevMajor := 0
  rdevMinor := 0
  linkGroup := 0
  linkFirst := false
  hardlinkTarget := none
  basisLink := none
  basisCopy := none

def receiveRoot : Bytes := [47,114]

/-- `t`, then a link `.fastsync-stage/a` to `/o`, then `a/v` as a sibling of `t`. -/
def stagedFile : File := plainFile [116] [7]

def plantedLink : File :=
  { plainFile [46,102,97,115,116,115,121,110,99,45,115,116,97,103,101,47,97] [] with
    isSymlink := true, symlinkTarget := some [47,111] }

def escapingSibling : File :=
  { plainFile [97,47,118] [] with linkGroup := 1, hardlinkTarget := some [116] }

def delayConfig : Config := { plainConfig with delayUpdates := true }

def plantedWorld : World :=
  ((do
    let _ ← fileSaveToDiskFullEx plainProcess delayConfig receiveRoot stagedFile
    let _ ← fileSaveToDiskFullEx plainProcess delayConfig receiveRoot plantedLink
    pure () : Sys Unit) startWorld).2

def trustingProcess : Process := { plainProcess with trustSender := true }

def timesConfig : Config := { plainConfig with preserveTimes := true }

def forceConfig : Config := { plainConfig with forceDelete := true }

def climbingDirectory : File :=
  { plainFile [46,46] [] with isDir := true, metadata := some ⟨none,0,(5,0),false⟩ }

def climbingRecord : DirTime := ⟨[46,46],0,none⟩

end Example

end FastSync.SaveEscapes
