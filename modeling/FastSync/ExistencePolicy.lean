import FastSync.SaveEscapes

/-!
# The existence policies

`--existing` and `--ignore-existing` leave an entry alone by what stands at its
destination. Each kind of entry asks at its own moment: a regular file and a
hard-link sibling before anything else happens to the tree, a special node after
its parent has been made, and a symbolic link never.
-/

set_option autoImplicit false

namespace FastSync.ExistencePolicy
open DeletePaths Programs SystemCalls
open SecureWalk DelayUpdates SaveEntry ReadOnly
open WalkConfined

def Creates (w w' : World) : Prop := ∃ p, w.fs.node p = none ∧ w'.fs.node p ≠ none

def Grows (w w' : World) : Prop := ∀ p, w.fs.node p ≠ none → w'.fs.node p ≠ none

theorem creates_grows {w w' w'' : World} (h : Creates w w') (h' : Grows w' w'') : Creates w w'' := by
  obtain ⟨p,hp,hp'⟩ := h
  exact ⟨p,hp,h' p hp'⟩

theorem grows_composable : Composable Grows where
  refl := fun _ _ h => h
  trans := fun _ _ _ h h' p hp => h' p (h p hp)

theorem grows_of_fs {w w' : World} (h : w'.fs = w.fs) : Grows w w' := fun p hp => by rwa [h]

theorem grows_done {α : Type} {a : α} : Effect Grows (pure a) fun _ => True :=
  effect_pure grows_composable trivial

theorem grows_seq {α β : Type} {m : Sys α} {f : α → Sys β} (hm : Effect Grows m fun _ => True)
    (hf : ∀ a, Effect Grows (f a) fun _ => True) : Effect Grows (m >>= f) fun _ => True :=
  effect_bind grows_composable hm fun a _ => hf a

variable {d : Position} {r : Position × Bytes}

section Parent

theorem mkdir_grows {c : Bytes} {fs fs' : Fs} {a : Unit} {ps : List Position}
    (h : mkdir d c fs = .ok (a,fs',ps)) :
    (∀ p, fs.node p ≠ none → fs'.node p ≠ none) ∧ ∃ p, fs.node p = none ∧ fs'.node p ≠ none := by
  unfold mkdir at h
  split at h
  · cases h
  next n hn =>
    cases h
    constructor
    · intro p hp
      show (if p = d++[n] then some .dir else fs.tree.node p) ≠ none
      split
      · simp
      · exact hp
    · refine ⟨d++[n],(freeAt_ok hn).2,?_⟩
      show (if d++[n] = d++[n] then some .dir else fs.tree.node (d++[n])) ≠ none
      simp

theorem grows_walks (base : Position) : WalkRules Grows true base where
  composable := grows_composable
  look := by
    intro α k w
    obtain ⟨rs,r,hq,-⟩ := query_run k w
    rw [hq]
    exact ⟨grows_of_fs rfl,trivial⟩
  openDir := by
    intro d c _ _ w
    obtain ⟨rs,⟨e,h⟩ | ⟨p,hp,h⟩⟩ := openDirAt_run
    · rw [h]
      exact ⟨grows_of_fs rfl,trivial⟩
    · rw [h]
      exact ⟨grows_of_fs rfl,(openDir_ok hp).1⟩
  mkdir := by
    intro _ d c _ w
    obtain ⟨rs,⟨e,h⟩ | ⟨a,fs,ps,hc,h⟩⟩ := perform_run
    · rw [mkdirAt,change,h]
      exact ⟨grows_of_fs rfl,trivial⟩
    · rw [mkdirAt,change,h]
      exact ⟨(mkdir_grows hc).1,trivial⟩
  own := by
    intro _ d c _ _ w
    obtain ⟨rs,⟨e,h⟩ | ⟨a,fs,ps,hc,h⟩⟩ := perform_run
    · rw [attributeAt,change,h]
      exact ⟨grows_of_fs rfl,trivial⟩
    · rw [attributeAt,change,h]
      exact ⟨grows_of_fs (setAttribute_keeps hc),trivial⟩

variable (pr : Process) {fd : Position} {relBuf c : Bytes} {w w1 : World}

theorem tryComponent_opened {createDirs : Bool} {p : Position}
    (h : openDirAt fd c w = (.ok p,w1)) : tryComponent pr createDirs fd c w = (.opened p,w1) := by
  rw [tryComponent,bind_apply,h]
  rfl

variable {e : Errno}

theorem tryComponent_refused {createDirs : Bool} (h : openDirAt fd c w = (.error e,w1))
    (he : e ≠ .noent) : tryComponent pr createDirs fd c w = (.failed e,w1) := by
  rw [tryComponent,bind_apply,h]
  show (if createDirs = true ∧ e = .noent then makeComponent pr fd c else pure (.failed e)) w1 = _
  rw [if_neg fun hc => he hc.2]
  rfl

theorem tryComponent_missing (h : openDirAt fd c w = (.error .noent,w1)) :
    tryComponent pr false fd c w = (.failed .noent,w1) ∧
      tryComponent pr true fd c w = makeComponent pr fd c w1 := by
  constructor
  · rw [tryComponent,bind_apply,h]
    show (if false = true ∧ Errno.noent = .noent then makeComponent pr fd c
      else pure (.failed .noent)) w1 = _
    rfl
  · rw [tryComponent,bind_apply,h]
    show (if true = true ∧ Errno.noent = .noent then makeComponent pr fd c
      else pure (.failed .noent)) w1 = _
    rw [if_pos (by simp)]

theorem settle_missing : settleComponent pr fd relBuf c (.failed .noent) w = (.error .noent,w) := by
  unfold settleComponent
  cases pr.authorizedRoot with
  | none => rfl
  | some root =>
    show (if _ then _ else _ : Sys (Except Errno Position)) w = _
    rw [if_neg (by simp)]
    rfl

theorem openComponent_cases (fd : Position) (relBuf c : Bytes) (w : World) :
    openComponent pr true fd relBuf c w = openComponent pr false fd relBuf c w ∨
      ∃ w1, openDirAt fd c w = (.error .noent,w1) ∧
        openComponent pr false fd relBuf c w = (.error .noent,w1) := by
  cases ho : openDirAt fd c w with
  | mk r w1 =>
    cases r with
    | ok p =>
      left
      rw [openComponent,openComponent,bind_apply,bind_apply,tryComponent_opened pr ho,
        tryComponent_opened pr ho]
    | error e =>
      by_cases he : e = .noent
      · subst he
        right
        refine ⟨w1,rfl,?_⟩
        rw [openComponent,bind_apply,(tryComponent_missing pr ho).1]
        exact settle_missing pr
      · left
        rw [openComponent,openComponent,bind_apply,bind_apply,tryComponent_refused pr ho he,
          tryComponent_refused pr ho he]

theorem walkParent_present {cs : List Bytes} {p : Position}
    (h : (walkParent pr false cs fd relBuf w).1 = .ok p) :
    walkParent pr true cs fd relBuf w = walkParent pr false cs fd relBuf w := by
  induction cs generalizing fd relBuf w with
  | nil => rfl
  | cons c cs ih =>
    rw [walkParent] at h
    rw [walkParent,walkParent]
    split_ifs at h ⊢
    · exact ih h
    · rcases openComponent_cases pr fd relBuf c w with hs | ⟨w1,-,hf⟩
      · rw [bind_apply,bind_apply,hs]
        rw [bind_apply] at h
        generalize openComponent pr false fd relBuf c w = r at h
        obtain ⟨(e | next),w1⟩ := r
        · rfl
        · exact ih h
      · rw [bind_apply,hf] at h
        cases h

def Misses {α : Type} (w : World) (r : Except Errno α × World) : Prop :=
  (∃ e, r.1 = .error e) ∨ Creates w r.2

variable {pr}

theorem mkdir_error {c : Bytes} {fs : Fs} (h : mkdir d c fs = .error e) :
    e = .noent ∨ e = .exist := by
  unfold mkdir freeAt at h
  split at h
  next e' he =>
    cases h
    split at he
    · exact .inl (Except.error.inj he).symm
    · exact .inr (Except.error.inj he).symm
    · exact .inr (Except.error.inj he).symm
    · split_ifs at he
      · exact .inl (Except.error.inj he).symm
      · exact .inr (Except.error.inj he).symm
  · cases h

variable {base : Position}

theorem openComponent_missing (relBuf : Bytes)
    (hb : pr.authorizedRoot = some base ∨ pr.authorizedRoot = none) (hd : base <+: fd)
    (h1 : c ≠ [dot]) (h2 : c ≠ [dot,dot]) (hw : w.replies = [])
    (ho : openDirAt fd c w = (.error .noent,w)) :
    Misses w (openComponent pr true fd relBuf c w) := by
  rw [openComponent,bind_apply,(tryComponent_missing pr ho).2,makeComponent,bind_apply,mkdirAt,
    change,perform_pass hw]
  cases hm : mkdir fd c w.fs with
  | error e =>
    left
    rcases mkdir_error hm with rfl | rfl
    · exact ⟨.noent,by rw [apply]; exact congrArg Prod.fst (settle_missing pr)⟩
    · refine ⟨.noent,?_⟩
      show (settleComponent pr fd relBuf c (reopen fd c w).1 (reopen fd c w).2).1 = _
      rw [reopen,bind_apply,ho]
      exact congrArg Prod.fst (settle_missing pr)
  | ok r =>
    right
    have hmade : Creates w { w with
        fs := r.2.1, touched := (r.2.2.map fun p => ⟨p,false⟩)++w.touched } := (mkdir_grows hm).2
    refine creates_grows hmade ?_
    exact (effect_bind grows_composable (walks_ownComponent pr (grows_walks base) rfl hd h1 h2)
      (fun _ ha => walks_settleComponent pr (grows_walks base) hb ha) _).1

theorem openDirAt_failed (hw : w.replies = []) (h : openDirAt d c w = (.error e,w1)) : w1 = w := by
  rw [openDirAt,bind_apply,query_pass hw] at h
  cases ho : openDir d c w.fs with
  | error e' =>
    rw [ho] at h
    exact (Prod.mk.inj h).2.symm
  | ok p =>
    rw [ho] at h
    cases h

theorem walkParent_missing
    (hb : pr.authorizedRoot = some base ∨ pr.authorizedRoot = none) {cs : List Bytes}
    (hd : base <+: fd) (hw : w.replies = []) (h : (walkParent pr false cs fd relBuf w).1 = .error e) :
    Misses w (walkParent pr true cs fd relBuf w) := by
  induction cs generalizing fd relBuf w with
  | nil => cases h
  | cons c cs ih =>
    rw [walkParent] at h ⊢
    split_ifs at h ⊢ with h2 h1
    · exact .inl ⟨_,rfl⟩
    · exact ih hd hw h
    rw [bind_apply] at h ⊢
    have hnext := (walks_openComponent pr (grows_walks base) hb fd relBuf c hd h1 h2 w).2
    rcases openComponent_cases pr fd relBuf c w with hs | ⟨w1,ho,-⟩
    · have hfs := reads_fs (reads_openComponent pr fd relBuf c) w
      have hrs := reads_replies (reads_openComponent pr fd relBuf c) w hw
      rw [hs] at hnext ⊢
      generalize openComponent pr false fd relBuf c w = r at h hnext hfs hrs ⊢
      obtain ⟨(e' | next),w1⟩ := r
      · exact .inl ⟨e',rfl⟩
      · rcases ih hnext.1 hrs h with he | ⟨p,hp,hp'⟩
        · exact .inl he
        · exact .inr ⟨p,hfs ▸ hp,hp'⟩
    · cases openDirAt_failed hw ho
      have hm := openComponent_missing relBuf hb hd h1 h2 hw ho
      generalize openComponent pr true fd relBuf c w = r at hm hnext ⊢
      obtain ⟨(e' | next),w1⟩ := r
      · exact .inl ⟨e',rfl⟩
      · rcases hm with ⟨e',he⟩ | hm
        · cases he
        · exact .inr (creates_grows hm
            (walks_walkParent pr (grows_walks base) hb next _ hnext.1 w1).1)

theorem walkTo_present {cs : List Bytes} {leaf : Bytes}
    (h : (walkTo pr false cs fd leaf w).1 = .ok r) :
    walkTo pr true cs fd leaf w = walkTo pr false cs fd leaf w := by
  rw [walkTo,bind_apply] at h
  cases hp : (walkParent pr false cs fd [] w).1 with
  | error e =>
    rw [hp] at h
    cases h
  | ok p => rw [walkTo,walkTo,bind_apply,bind_apply,walkParent_present pr hp]

theorem walkTo_missing
    (hb : pr.authorizedRoot = some base ∨ pr.authorizedRoot = none) {cs : List Bytes} {leaf : Bytes}
    (hd : base <+: fd) (hw : w.replies = [])
    (h : (walkTo pr false cs fd leaf w).1 = .error e) : Misses w (walkTo pr true cs fd leaf w) := by
  rw [walkTo,bind_apply] at h ⊢
  cases hp : (walkParent pr false cs fd [] w).1 with
  | ok p =>
    rw [hp] at h
    cases h
  | error e' =>
    have hm := walkParent_missing hb hd hw hp
    generalize walkParent pr true cs fd [] w = r at hm ⊢
    obtain ⟨(e' | p),w1⟩ := r
    · exact .inl ⟨e',rfl⟩
    · rcases hm with ⟨e',he⟩ | hm
      · cases he
      · exact .inr hm

theorem parent_present {path : Bytes} (h : (fileOpenSecureParent pr path false w).1 = .ok r) :
    fileOpenSecureParent pr path true w = fileOpenSecureParent pr path false w := by
  unfold fileOpenSecureParent at h ⊢
  cases hr : pr.authorizedRoot with
  | some root =>
    simp only [hr] at h ⊢
    split_ifs with hn
    · rfl
    · rw [if_neg hn] at h
      exact walkTo_present h
  | none =>
    simp only [hr] at h ⊢
    rw [bind_apply] at h ⊢
    rw [bind_apply]
    generalize openDirAt _ _ w = o at h ⊢
    obtain ⟨(e | fd),w1⟩ := o
    · rfl
    · exact walkTo_present h

theorem parent_missing {path : Bytes} (hw : w.replies = [])
    (h : (fileOpenSecureParent pr path false w).1 = .error e) :
    Misses w (fileOpenSecureParent pr path true w) := by
  unfold fileOpenSecureParent at h ⊢
  cases hr : pr.authorizedRoot with
  | some root =>
    simp only [hr] at h ⊢
    split_ifs with hn
    · exact .inl ⟨_,rfl⟩
    · rw [if_neg hn] at h
      exact walkTo_missing (.inl hr) List.prefix_rfl hw h
  | none =>
    simp only [hr] at h ⊢
    have hreads := reads_openDirAt (if (dirname path).head? = some slash then [] else pr.cwd) [dot]
    have hfs := reads_fs hreads w
    have hrs := reads_replies hreads w hw
    rw [bind_apply] at h ⊢
    generalize openDirAt _ _ w = o at h hfs hrs ⊢
    obtain ⟨(e | fd),w1⟩ := o
    · exact .inl ⟨e,rfl⟩
    · rcases walkTo_missing (.inr hr) List.nil_prefix hrs h with he | ⟨p,hp,hp'⟩
      · exact .inl he
      · exact .inr ⟨p,hfs ▸ hp,hp'⟩

end Parent

section Policies

variable {pr : Process} {cfg : Config} {recv : Bytes} {file : File} {w w' : World}

/-- Something stands at the destination of the entry, as the receiver reaches it. -/
def existsAt (pr : Process) (recv : Bytes) (file : File) (w : World) : Bool :=
  (filePathExistsSecure pr (pathCat recv file.path) w).1

/-- `--existing` and nothing is there, or `--ignore-existing` and something is. -/
def Triggered (pr : Process) (cfg : Config) (recv : Bytes) (file : File) (w : World) : Prop :=
  cfg.existing = true ∧ existsAt pr recv file w = false ∨
    cfg.ignoreExisting = true ∧ existsAt pr recv file w = true

theorem reads_missesExisting {path : Bytes} : Reads (missesExisting pr cfg path) :=
  reads_ite (reads_bind (reads_filePathExistsSecure pr path) fun _ => reads_pure _) (reads_pure _)

theorem reads_meetsExisting {path : Bytes} : Reads (meetsExisting pr cfg path) :=
  reads_ite (reads_filePathExistsSecure pr path) (reads_pure _)

theorem reads_policySkips {path updatePath : Bytes} :
    Reads (policySkips pr cfg file path updatePath) := by
  refine reads_bind reads_missesExisting fun _ => reads_ite (reads_pure _) ?_
  refine reads_bind reads_meetsExisting fun _ => reads_ite (reads_pure _) ?_
  exact reads_ite (reads_fileDestinationIsNewerSecure pr updatePath) (reads_pure _)

theorem policySkips_triggered (ht : Triggered pr cfg recv file w) (hfs : w'.fs = w.fs)
    (hw : w.replies = []) (hrs : w'.replies = []) (updatePath : Bytes) :
    (policySkips pr cfg file (pathCat recv file.path) updatePath w').1 = true := by
  have found : ∀ v : World, v.fs = w.fs → v.replies = [] →
      (filePathExistsSecure pr (pathCat recv file.path) v).1 = existsAt pr recv file w :=
    fun v hv hr => reads_result (reads_filePathExistsSecure pr _) hv (hr.trans hw.symm)
  rw [policySkips,bind_apply]
  rcases ht with ⟨he,hx⟩ | ⟨hi,hx⟩
  · have hm : (missesExisting pr cfg (pathCat recv file.path) w').1 = true := by
      rw [missesExisting,if_pos he,bind_apply,found w' hfs hrs,hx]
      rfl
    rw [hm]
    rfl
  · have hm : (missesExisting pr cfg (pathCat recv file.path) w').1 = false := by
      rw [missesExisting]
      split
      · rw [bind_apply,found w' hfs hrs,hx]
        rfl
      · rfl
    have hreads : Reads (missesExisting pr cfg (pathCat recv file.path)) := reads_missesExisting
    have hfs1 := (reads_fs hreads w').trans hfs
    have hrs1 := reads_replies hreads w' hrs
    have hme : (meetsExisting pr cfg (pathCat recv file.path)
        (missesExisting pr cfg (pathCat recv file.path) w').2).1 = true := by
      rw [meetsExisting,if_pos hi,found _ hfs1 hrs1,hx]
    rw [hm,if_neg (by simp),bind_apply,hme]
    rfl

def Untouched (w : World) (r : FileSaveResult × World) : Prop :=
  r.1 = .skipped ∧ r.2.fs = w.fs ∧ r.2.touched = w.touched

def Violated (w : World) (r : FileSaveResult × World) : Prop :=
  r.1 ≠ .skipped ∨ Creates w r.2

theorem skip_untouched {m : Sys Bool} (hm : Reads m) (k : Sys FileSaveResult)
    (h : (m w).1 = true) : Untouched w ((m >>= fun b => if b then pure .skipped else k) w) := by
  rw [bind_apply,h]
  exact ⟨rfl,reads_fs hm w,reads_touched hm w⟩

end Policies

section Kinds

variable {pr : Process} {cfg : Config} {recv : Bytes} {file : File} {w : World}

/-- The node may be made, and its parent is there. -/
def SpecialObeys (pr : Process) (cfg : Config) (recv : Bytes) (file : File) (w : World) : Prop :=
  file.path ≠ [] ∧ ∃ m kind, file.metadata = some m ∧ m.format = some kind ∧
    (specialWanted cfg kind = false ∨
      fileSpecialRdevValid file.rdevMajor file.rdevMinor kind = true ∧
        ∃ r, (fileOpenSecureParent pr (pathCat recv file.path) false w).1 = .ok r)

def RegularObeys (cfg : Config) (recv : Bytes) (w : World) : Prop :=
  escapingOption cfg.backupDir = false ∧ escapingOption cfg.partialDir = false ∧
    (resolveTempDir? cfg recv w).1 ≠ none

theorem reads_resolveTempDir? (cfg : Config) (recv : Bytes) : Reads (resolveTempDir? cfg recv) := by
  unfold resolveTempDir?
  cases cfg.tempDir with
  | none => exact reads_pure _
  | some dir =>
    refine reads_bind ?_ ?_
    · refine reads_ite (reads_ite (reads_pure _) (reads_pure _)) ?_
      refine reads_bind reads_query ?_
      rintro (e | canonicalTemp)
      · exact reads_pure _
      refine reads_bind reads_query ?_
      rintro (e | canonicalRoot)
      · exact reads_pure _
      · exact reads_ite (reads_pure _) (reads_pure _)
    · rintro (_ | path)
      · exact reads_pure _
      · exact reads_pure _

theorem regular_obeys (ht : Triggered pr cfg recv file w) (hw : w.replies = [])
    (hdelay : cfg.delayUpdates = false) (ho : RegularObeys cfg recv w) :
    Untouched w (saveRegular pr cfg recv file w) := by
  obtain ⟨hb,hp,htemp⟩ := ho
  have hfs := reads_fs (reads_resolveTempDir? cfg recv) w
  have htouched := reads_touched (reads_resolveTempDir? cfg recv) w
  have hrs := reads_replies (reads_resolveTempDir? cfg recv) w hw
  rw [saveRegular,hb,hp,if_neg (by simp),bind_apply]
  generalize resolveTempDir? cfg recv w = r at htemp hfs htouched hrs
  obtain ⟨(_ | tempDir),w1⟩ := r
  · exact absurd rfl htemp
  show Untouched w ((if cfg.delayUpdates = true then _ else saveNow pr cfg recv file tempDir) w1)
  rw [hdelay,if_neg (by simp)]
  have h : Untouched w1 (saveNow pr cfg recv file tempDir w1) :=
    skip_untouched reads_policySkips _ (policySkips_triggered ht hfs hw hrs _)
  exact ⟨h.1,h.2.1.trans hfs,h.2.2.trans htouched⟩

theorem regular_violates (ho : ¬RegularObeys cfg recv w) :
    Violated w (saveRegular pr cfg recv file w) := by
  left
  rw [saveRegular]
  split
  · simp [pure_apply]
  next hb =>
    rw [Bool.or_eq_true,not_or,Bool.not_eq_true,Bool.not_eq_true] at hb
    have htemp : (resolveTempDir? cfg recv w).1 = none := by
      by_contra h
      exact ho ⟨hb.1,hb.2,h⟩
    rw [bind_apply,htemp]
    simp [pure_apply]

theorem sibling_obeys (ht : Triggered pr cfg recv file w) (hw : w.replies = []) {target : Bytes} :
    Untouched w (fileSaveHardlinkSibling pr cfg recv file target w) :=
  skip_untouched reads_policySkips _ (policySkips_triggered ht rfl hw hw _)

theorem any_composable : Composable fun _ _ : World => True := ⟨fun _ => trivial,fun _ _ _ _ _ => trivial⟩

theorem any_bind {α β : Type} {m : Sys α} {k : α → Sys β} {Q : β → Prop}
    (hk : ∀ a, Effect (fun _ _ => True) (k a) Q) : Effect (fun _ _ => True) (m >>= k) Q :=
  effect_bind any_composable (P := fun _ => True) (fun _ => ⟨trivial,trivial⟩) fun a _ => hk a

theorem symlink_violates : Violated w (fileSaveSymlinkToDisk pr cfg recv file w) := by
  left
  have done : Effect (fun _ _ => True) (pure .written : Sys FileSaveResult) (· ≠ .skipped) :=
    effect_pure any_composable (by simp)
  have fails : Effect (fun _ _ => True) (pure .error : Sys FileSaveResult) (· ≠ .skipped) :=
    effect_pure any_composable (by simp)
  suffices h : Effect (fun _ _ => True) (fileSaveSymlinkToDisk pr cfg recv file) (· ≠ .skipped) from
    (h w).2
  unfold fileSaveSymlinkToDisk
  cases file.symlinkTarget with
  | none => exact fails
  | some target =>
    refine effect_ite (fun _ => fails) fun _ => ?_
    refine any_bind fun _ => effect_ite (fun _ => ?_) fun _ => fails
    refine any_bind fun _ => effect_ite (fun _ => ?_) fun _ => fails
    refine any_bind fun _ => effect_ite (fun _ => ?_) fun _ => fails
    exact any_bind fun _ => done

section Special

theorem grows_perform {α : Type} {byPath : Bool} {k : Fs → Change α}
    (hk : ∀ fs a fs' ps, k fs = .ok (a,fs',ps) → ∀ p, fs.node p ≠ none → fs'.node p ≠ none) :
    Effect Grows (perform byPath k) fun _ => True := by
  intro w
  obtain ⟨rs,⟨e,h⟩ | ⟨a,fs,ps,hc,h⟩⟩ := perform_run
  · rw [h]
    exact ⟨grows_of_fs rfl,trivial⟩
  · rw [h]
    exact ⟨hk w.fs a fs ps hc,trivial⟩

theorem grows_reads {α : Type} {m : Sys α} (hm : Reads m) : Effect Grows m fun _ => True :=
  fun w => ⟨grows_of_fs (reads_fs hm w),trivial⟩

theorem create_grows {x : Inode} {c : Bytes} {fs fs' : Fs} {a : ℕ × Position}
    {ps : List Position} (h : create x d c fs = .ok (a,fs',ps)) (p : Position)
    (hp : fs.node p ≠ none) : fs'.node p ≠ none := by
  unfold create at h
  split at h
  · cases h
  next n hn =>
    cases h
    show (if p = d++[n] then some (.leaf fs.next) else fs.tree.node p) ≠ none
    split
    · simp
    · exact hp

theorem grows_attributeAt {d : Position} {c : Bytes} :
    Effect Grows (attributeAt d c) fun _ => True :=
  grows_perform fun _ _ _ _ h p hp => by rwa [setAttribute_keeps h]

theorem grows_identityApplyOwnershipLink {d : Position} {c : Bytes} :
    Effect Grows (identityApplyOwnershipLink pr d c) fun _ => True := by
  refine effect_ite (fun _ => grows_done) fun _ => ?_
  refine grows_seq (grows_reads reads_statAt) ?_
  rintro (e | s)
  · exact grows_done
  refine effect_ite (fun _ => grows_done) fun _ => ?_
  refine grows_seq grows_attributeAt ?_
  rintro (e | u)
  · exact grows_done
  · exact grows_done

theorem grows_makeSpecial {d : Position} {leaf : Bytes} {m : Metadata} {kind : Special} :
    Effect Grows (makeSpecial pr cfg d leaf m kind) fun _ => True := by
  refine grows_seq (grows_perform fun _ _ _ _ => create_grows) fun r => ?_
  split
  · refine grows_seq ?_ fun _ => grows_seq ?_ fun _ => grows_done
    · exact effect_ite (fun _ => grows_attributeAt) fun _ => grows_done
    · exact effect_ite (fun _ => grows_identityApplyOwnershipLink) fun _ => grows_done
  · exact grows_seq (grows_reads reads_statAt) fun _ => grows_done
  · exact grows_done

theorem placeSpecial_obeys (ht : Triggered pr cfg recv file w) (hw : w.replies = []) {m : Metadata}
    {kind : Special} (hp : (fileOpenSecureParent pr (pathCat recv file.path) false w).1 = .ok r) :
    Untouched w (placeSpecial pr cfg recv file m kind w) := by
  have hreads := reads_fileOpenSecureParent pr (pathCat recv file.path)
  have hfs := reads_fs hreads w
  have htouched := reads_touched hreads w
  have hrs := reads_replies hreads w hw
  rw [placeSpecial,bind_apply,parent_present hp]
  generalize fileOpenSecureParent pr (pathCat recv file.path) false w = o at hp hfs htouched hrs
  obtain ⟨(e | ⟨d,leaf⟩),w1⟩ := o
  · cases hp
  · have h := skip_untouched reads_policySkips (makeSpecial pr cfg d leaf m kind)
      (policySkips_triggered ht hfs hw hrs (pathCat recv file.path))
    exact ⟨h.1,h.2.1.trans hfs,h.2.2.trans htouched⟩

theorem placeSpecial_violates (hw : w.replies = []) {m : Metadata} {kind : Special}
    (hp : ¬∃ r, (fileOpenSecureParent pr (pathCat recv file.path) false w).1 = .ok r) :
    Violated w (placeSpecial pr cfg recv file m kind w) := by
  cases he : (fileOpenSecureParent pr (pathCat recv file.path) false w).1 with
  | ok r => exact absurd ⟨r,he⟩ hp
  | error e =>
    have hm := parent_missing hw he
    rw [placeSpecial,bind_apply]
    generalize fileOpenSecureParent pr (pathCat recv file.path) true w = o at hm
    obtain ⟨(e' | ⟨d,leaf⟩),w1⟩ := o
    · exact .inl (by simp [pure_apply])
    rcases hm with ⟨e',he'⟩ | hm
    · cases he'
    -- whatever becomes of the node, its parent was made and stays
    refine .inr (creates_grows hm ?_)
    refine (grows_seq (grows_reads reads_policySkips) fun skips => ?_) w1 |>.1
    exact effect_ite (fun _ => grows_done) fun _ => grows_makeSpecial

theorem validate_traversal (hv : fileSaveValidate pr cfg file = true) :
    ¬(pr.trustSender = false ∧ hasPathTraversal file.path = true) := by
  rintro ⟨h1,h2⟩
  simp [fileSaveValidate,h1,h2] at hv

theorem special_eq (hpath : ¬(file.path = [] ∨ pr.trustSender = false ∧
      hasPathTraversal file.path = true)) {m : Metadata} {kind : Special}
    (hm : file.metadata = some m) (hk : m.format = some kind) :
    fileSaveSpecialToDisk pr cfg recv file =
      if !specialWanted cfg kind then pure .skipped
      else if !fileSpecialRdevValid file.rdevMajor file.rdevMinor kind then pure .error
      else placeSpecial pr cfg recv file m kind := by
  rw [fileSaveSpecialToDisk,if_neg hpath]
  simp [hm,hk]

theorem special_obeys (ht : Triggered pr cfg recv file w) (hw : w.replies = [])
    (hv : fileSaveValidate pr cfg file = true) (ho : SpecialObeys pr cfg recv file w) :
    Untouched w (fileSaveSpecialToDisk pr cfg recv file w) := by
  obtain ⟨hpath,m,kind,hm,hk,h⟩ := ho
  rw [special_eq (not_or.mpr ⟨hpath,validate_traversal hv⟩) hm hk]
  rcases h with h | ⟨hr,r,hp⟩
  · rw [if_pos (by simp [h])]
    exact ⟨rfl,rfl,rfl⟩
  · split_ifs with h1 h2
    · exact ⟨rfl,rfl,rfl⟩
    · simp [hr] at h2
    · exact placeSpecial_obeys ht hw hp

theorem special_violates (hw : w.replies = []) (ho : ¬SpecialObeys pr cfg recv file w) :
    Violated w (fileSaveSpecialToDisk pr cfg recv file w) := by
  have fails : fileSaveSpecialToDisk pr cfg recv file = pure .error →
      Violated w (fileSaveSpecialToDisk pr cfg recv file w) := by
    intro h
    rw [h]
    exact .inl (by simp [pure_apply])
  by_cases hpath : file.path = [] ∨ pr.trustSender = false ∧ hasPathTraversal file.path = true
  · exact fails (by rw [fileSaveSpecialToDisk,if_pos hpath])
  cases hm : file.metadata with
  | none => exact fails (by rw [fileSaveSpecialToDisk,if_neg hpath]; simp [hm])
  | some m =>
    cases hk : m.format with
    | none => exact fails (by rw [fileSaveSpecialToDisk,if_neg hpath]; simp [hm,hk])
    | some kind =>
      rw [special_eq hpath hm hk]
      split_ifs with hwanted hrdev
      · exact absurd ⟨(not_or.mp hpath).1,m,kind,hm,hk,.inl (by simpa using hwanted)⟩ ho
      · exact .inl (by simp [pure_apply])
      · refine placeSpecial_violates hw fun hp => ho ?_
        exact ⟨(not_or.mp hpath).1,m,kind,hm,hk,.inr ⟨by simpa using hrdev,hp⟩⟩

end Special

end Kinds

section Law

variable (pr : Process) (cfg : Config) (recv : Bytes) (file : File) (w : World)

/-- `--existing` leaves an entry alone whose destination does not exist. -/
def ExistingLaw : Prop :=
  cfg.existing = true → existsAt pr recv file w = false →
    (fileSaveToDiskFullEx pr cfg recv file w).1 = .skipped ∧
      ¬Creates w (fileSaveToDiskFullEx pr cfg recv file w).2

/-- `--ignore-existing` leaves an entry alone whose destination exists. -/
def IgnoreExistingLaw : Prop :=
  cfg.ignoreExisting = true → existsAt pr recv file w = true →
    Untouched w (fileSaveToDiskFullEx pr cfg recv file w)

/-- A device under `--fake-super` is saved as a regular file. -/
def goesSpecial : Bool :=
  file.isSpecial && !(cfg.fakeSuper && (file.metadata.bind Metadata.format).any isDevice)

def isSibling : Bool :=
  decide (file.linkGroup ≠ 0) && !file.linkFirst && file.hardlinkTarget.isSome

/-- The entries whose policies are asked in time: valid ones that are siblings,
regular files no option refuses, or nodes whose parent is there. -/
def Obeys : Prop :=
  fileSaveValidate pr cfg file = true ∧
    if goesSpecial cfg file then SpecialObeys pr cfg recv file w
    else if file.isSymlink then False
    else if isSibling file then True
    else RegularObeys cfg recv w

variable {pr cfg recv file w}

theorem saveByKind_sibling (hdir : file.isDir = false) (hlink : file.isSymlink = false)
    (hs : isSibling file = true) :
    ∃ target, saveByKind pr cfg recv file = fileSaveHardlinkSibling pr cfg recv file target := by
  simp only [isSibling,Bool.and_eq_true,decide_eq_true_eq,Option.isSome_iff_exists] at hs
  obtain ⟨⟨hg,hf⟩,target,ht⟩ := hs
  exact ⟨target,by simp [saveByKind,hdir,hlink,hg,ht,Bool.not_eq_true' _ ▸ hf]⟩

theorem saveByKind_regular (hdir : file.isDir = false) (hlink : file.isSymlink = false)
    (hs : isSibling file = false) : saveByKind pr cfg recv file = saveRegular pr cfg recv file := by
  rw [saveByKind,hdir,hlink,if_neg (by simp),if_neg (by simp)]
  split
  next hg =>
    cases ht : file.hardlinkTarget with
    | none => rfl
    | some target => simp [isSibling,hg.1,hg.2,ht] at hs
  · rfl

theorem saveByKind_symlink (hdir : file.isDir = false) (hlink : file.isSymlink = true) :
    saveByKind pr cfg recv file = fileSaveSymlinkToDisk pr cfg recv file := by
  rw [saveByKind,hdir,hlink,if_neg (by simp),if_pos rfl]

section
variable (hdry : cfg.dryRun = false)
include hdry

theorem save_valid (hdev : cfg.writeDevices = false) (hrec : file.dirTimeOnly = false)
    (hv : fileSaveValidate pr cfg file = true) :
    fileSaveToDiskFullEx pr cfg recv file =
      if goesSpecial cfg file then fileSaveSpecialToDisk pr cfg recv file
      else saveByKind pr cfg recv file := by
  have hdispatch : fileSaveTrySpecialDispatch pr cfg recv file =
      if goesSpecial cfg file then some (fileSaveSpecialToDisk pr cfg recv file) else none := by
    unfold fileSaveTrySpecialDispatch goesSpecial
    split_ifs <;> simp_all
  rw [fileSaveToDiskFullEx,hdry,hv,hrec,if_neg (by simp),if_neg (by simp),if_neg (by simp),
    hdispatch]
  split_ifs <;> rfl

theorem save_obeys (hdelay : cfg.delayUpdates = false) (hdev : cfg.writeDevices = false)
    (hdir : file.isDir = false) (hrec : file.dirTimeOnly = false) (hw : w.replies = [])
    (ht : Triggered pr cfg recv file w) (ho : Obeys pr cfg recv file w) :
    Untouched w (fileSaveToDiskFullEx pr cfg recv file w) := by
  obtain ⟨hv,hkind⟩ := ho
  rw [save_valid hdry hdev hrec hv]
  split_ifs at hkind ⊢ with hsp hlink hs
  · exact special_obeys ht hw hv hkind
  · obtain ⟨target,h⟩ := saveByKind_sibling hdir (Bool.eq_false_iff.mpr hlink) hs
    rw [h]
    exact sibling_obeys ht hw
  · rw [saveByKind_regular hdir (Bool.eq_false_iff.mpr hlink) (Bool.eq_false_iff.mpr hs)]
    exact regular_obeys ht hw hdelay hkind

theorem save_violates (hdev : cfg.writeDevices = false) (hdir : file.isDir = false)
    (hrec : file.dirTimeOnly = false) (hw : w.replies = []) (ho : ¬Obeys pr cfg recv file w) :
    Violated w (fileSaveToDiskFullEx pr cfg recv file w) := by
  by_cases hv : fileSaveValidate pr cfg file = true
  · rw [save_valid hdry hdev hrec hv]
    split_ifs with hsp
    · refine special_violates hw fun h => ho ⟨hv,?_⟩
      rwa [if_pos hsp]
    · cases hlink : file.isSymlink with
      | true =>
        rw [saveByKind_symlink hdir hlink]
        exact symlink_violates
      | false =>
        cases hs : isSibling file with
        | true => exact absurd ⟨hv,by simp [hsp,hlink,hs]⟩ ho
        | false =>
          rw [saveByKind_regular hdir hlink hs]
          exact regular_violates fun h => ho ⟨hv,by simpa [hsp,hlink,hs] using h⟩
  · left
    simp [fileSaveToDiskFullEx,hdry,Bool.eq_false_iff.mpr hv,pure_apply]

end

end Law

section Example
open SaveEscapes

def existingConfig : Config := { plainConfig with existing := true, preserveSpecials := true }

def ignoreConfig : Config := { plainConfig with ignoreExisting := true }

def linkEntry : File := { plainFile [116] [] with isSymlink := true, symlinkTarget := some [120] }

def pipeEntry : File :=
  { plainFile [112,47,113] [] with isSpecial := true, metadata := some ⟨some .fifo,0,(0,0),false⟩ }

def filledWorld : World :=
  (fileSaveToDiskFullEx plainProcess plainConfig receiveRoot stagedFile startWorld).2

end Example

end FastSync.ExistencePolicy
