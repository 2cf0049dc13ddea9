import FastSync.StorePayload

/-!
# What the calls do to the destination

Each call of the install either changes no name, or adds, moves or removes the
temporary name. From this the state between the creation of a temporary and its
end is described once, and every way of ending it by one lemma.
-/

set_option autoImplicit false

namespace FastSync.StoreMoves
open InodeStore InodeStore.Volume
open StoreWrite StoreInstall

section Calls

/-- No entry and no byte changed, and no unlink was refused. -/
structure Quiet (w w' : World) : Prop where
  fs : w'.fs = w.fs
  trace : w'.trace = w.trace
  flag : w'.unlinkFailed = w.unlinkFailed

structure Entered (w w' : World) (v : Fs) : Prop where
  fs : w'.fs = v
  trace : w'.trace = v::w.trace
  flag : w'.unlinkFailed = w.unlinkFailed

theorem Entered.shown {w w' : World} {v : Fs} {P : Fs → Prop} (h : Entered w w' v)
    (before : ∀ fs ∈ w.trace, P fs) (now : P w'.fs) : ∀ fs ∈ w'.trace, P fs := by
  rw [h.trace, ← h.fs]
  exact List.forall_mem_cons.mpr ⟨now,before⟩

theorem Quiet.refl (w : World) : Quiet w w := ⟨rfl,rfl,rfl⟩

theorem Quiet.trans {a b c : World} (h : Quiet a b) (h' : Quiet b c) : Quiet a c :=
  ⟨h'.fs.trans h.fs,h'.trace.trans h.trace,h'.flag.trans h.flag⟩

theorem answer_quiet {w : World} : Quiet w w.answer.2 := ⟨rfl,rfl,rfl⟩

theorem consult_quiet (w : World) : Quiet w w.consult.2 := ⟨rfl,rfl,rfl⟩

theorem nextTempName_quiet (t : Target) (i : ℕ) (w : World) : Quiet w (nextTempName t i w).2 := by
  unfold nextTempName
  split
  · exact ⟨rfl,rfl,rfl⟩
  · exact Quiet.refl w

theorem openTempDir_quiet (t : Target) (w : World) : Quiet w (openTempDir t w).2 := by
  unfold openTempDir
  split_ifs
  · exact consult_quiet w
  · exact Quiet.refl w

theorem probe_quiet (t : Target) (w : World) : Quiet w (probe t w).2 := consult_quiet w

theorem openBasis_quiet (b : Basis) (w : World) : Quiet w (openBasis b w).2 := by
  unfold openBasis
  dsimp only
  split_ifs
  · exact consult_quiet w
  · exact (consult_quiet w).trans (consult_quiet _)
  · exact (consult_quiet w).trans (consult_quiet _)

theorem openBasis_some {b : Basis} {w w' : World} {j : ℕ} (h : openBasis b w = (some j, w')) :
    w.fs.entries b.dir b.leaf = some j := by
  unfold openBasis at h
  dsimp only at h
  split_ifs at h
  · cases h
  · exact (Prod.mk.inj h).1
  · cases h

theorem filePathExistsSecure_quiet {t : Target} {w : World} :
    Quiet w (filePathExistsSecure t w).2 := by
  unfold filePathExistsSecure
  dsimp only
  split_ifs
  · exact consult_quiet w
  · exact (consult_quiet w).trans (consult_quiet _)

theorem syncLink_quiet (o : StoreOptions) (w : World) : Quiet w (syncLink o w).2 := by
  unfold syncLink
  dsimp only
  split_ifs
  · exact answer_quiet.trans (consult_quiet _)
  · exact answer_quiet
  · exact Quiet.refl w

section
variable (d : ℕ) (n : Name)

theorem openExclusive_fd {w w' : World} {i : ℕ} (h : openExclusive d n w = (.fd i, w')) :
    w.fs.entries d n = none ∧ i = w.fs.next ∧ Entered w w' (w.fs.create d n []) := by
  unfold openExclusive at h
  dsimp only at h
  split_ifs at h
  · split at h
    · cases h
    · rename_i hfree
      cases h
      exact ⟨hfree,rfl,rfl,rfl,rfl⟩
  · cases h

theorem openExclusive_quiet {w w' : World} {x : Opened} (h : openExclusive d n w = (x, w'))
    (hx : ∀ i, x ≠ .fd i) : Quiet w w' := by
  unfold openExclusive at h
  dsimp only at h
  split_ifs at h
  · split at h <;> cases h
    · exact answer_quiet
    · exact absurd rfl (hx _)
  · cases h
    exact answer_quiet

section
variable {d' : ℕ} {n' : Name} (w w' : World)

theorem linkat_done (h : linkat d n d' n' w = (.done, w')) :
    w.fs.entries d n ≠ none ∧ w.fs.entries d' n' = none ∧ Entered w w' (w.fs.link d n d' n') := by
  unfold linkat refusal at h
  dsimp only at h
  split_ifs at h with h1 h2 h3 <;> cases h
  exact ⟨h2,not_not.mp h3,rfl,rfl,rfl⟩

theorem linkat_quiet {m : Moved} (h : linkat d n d' n' w = (m, w')) (hm : m ≠ .done) :
    Quiet w w' := by
  unfold linkat at h
  dsimp only at h
  split_ifs at h <;> cases h
  · exact answer_quiet
  · exact answer_quiet
  · exact absurd rfl hm
  · exact answer_quiet

theorem renameat_done (h : renameat d n d' n' w = (.done, w')) :
    Entered w w' (w.fs.rename d n d' n') := by
  unfold renameat refusal at h
  dsimp only at h
  split_ifs at h <;> cases h
  exact ⟨rfl,rfl,rfl⟩

theorem renameat_quiet {m : Moved} (h : renameat d n d' n' w = (m, w')) (hm : m ≠ .done) :
    Quiet w w' := by
  unfold renameat at h
  dsimp only at h
  split_ifs at h <;> cases h
  · exact answer_quiet
  · exact absurd rfl hm
  · exact answer_quiet

end

theorem unlinkat_cases (w : World) :
    ((unlinkat d n w).1 = true ∧ Entered w (unlinkat d n w).2 (w.fs.unlink d n)) ∨
      ((unlinkat d n w).1 = false ∧ (unlinkat d n w).2.fs = w.fs ∧
        (unlinkat d n w).2.trace = w.trace ∧ (unlinkat d n w).2.unlinkFailed = true) := by
  unfold unlinkat
  dsimp only
  split_ifs
  · exact .inl ⟨rfl,rfl,rfl,rfl⟩
  · exact .inr ⟨rfl,rfl,rfl,rfl⟩

theorem unlinkat_refused {w : World} (h : (unlinkat d n w).1 = false) :
    (unlinkat d n w).2.fs = w.fs ∧ (unlinkat d n w).2.trace = w.trace ∧
      (unlinkat d n w).2.unlinkFailed = true := by
  rcases unlinkat_cases d n w with ⟨hyes,-⟩ | ⟨-,hrest⟩
  · rw [h] at hyes
    cases hyes
  · exact hrest

end

theorem tempName_ne (leaf : Name) (pid n : ℕ) : tempName leaf pid n ≠ leaf := by
  intro h
  have hlen := congrArg List.length h
  simp only [tempName, List.length_append, List.length_cons] at hlen
  omega

theorem nextTempName_ne {t : Target} {i : ℕ} {w : World} : (nextTempName t i w).1 ≠ t.leaf := by
  unfold nextTempName
  split <;> exact tempName_ne _ _ _

end Calls

section States

/-- Every old name still denotes its object, the objects hold what they held,
and a destination that was absent still is. -/
structure Kept (t : Target) (v fs : Fs) : Prop where
  names : ∀ d n i, v.entries d n = some i → fs.entries d n = some i
  absent : v.entries t.dir t.leaf = none → fs.entries t.dir t.leaf = none
  old : ∀ i < v.next, fs.content i = v.content i
  grown : v.next ≤ fs.next

def Complete (t : Target) (good : ℕ → Bytes → Prop) (fs : Fs) : Prop :=
  ∃ i, fs.entries t.dir t.leaf = some i ∧ good i (fs.content i)

theorem Kept.refl (t : Target) (v : Fs) : Kept t v v :=
  ⟨fun _ _ _ h => h,fun h => h,fun _ _ => rfl,Nat.le_refl _⟩

theorem Kept.trans {t : Target} {a b c : Fs} (h : Kept t a b) (h' : Kept t b c) : Kept t a c where
  names := fun d n i hi => h'.names d n i (h.names d n i hi)
  absent := fun hn => h'.absent (h.absent hn)
  old := fun i hi => (h'.old i (Nat.lt_of_lt_of_le hi h.grown)).trans (h.old i hi)
  grown := Nat.le_trans h.grown h'.grown

theorem Kept.dest {t : Target} {v fs : Fs} (h : Kept t v fs) :
    fs.entries t.dir t.leaf = v.entries t.dir t.leaf := by
  cases hv : v.entries t.dir t.leaf with
  | none => exact h.absent hv
  | some i => exact h.names _ _ i hv

theorem Kept.denotes {t : Target} {v fs : Fs} (h : Kept t v fs) :
    fs.denotes t.dir t.leaf = v.denotes t.dir t.leaf := by
  unfold Volume.denotes
  rw [h.dest]
  cases hv : v.entries t.dir t.leaf with
  | none => rfl
  | some i => rw [Option.map_some, Option.map_some, h.old i (v.bounded _ _ i hv)]

/-- How a call leaves the destination: as it was, or (`moved`) complete. The
names are exactly accounted for unless an unlink was refused. -/
structure Settles (t : Target) (good : ℕ → Bytes → Prop) (w w' : World) (moved : Bool) : Prop where
  shown : ∀ fs ∈ w'.trace, fs ∈ w.trace ∨ Kept t w.fs fs ∨ Complete t good fs
  flag : w'.unlinkFailed = false → w.unlinkFailed = false
  still : moved = false → Kept t w.fs w'.fs ∧
    (w'.unlinkFailed = false → w'.fs.entries = w.fs.entries)
  done : moved = true → Complete t good w'.fs ∧
    (w'.unlinkFailed = false → ∃ i, w'.fs.entries = setEntry w.fs.entries t.dir t.leaf (some i))

variable {t : Target} {good : ℕ → Bytes → Prop}

theorem Settles.of_quiet {w w' : World} (h : Quiet w w') : Settles t good w w' false where
  shown := by
    intro fs hfs
    rw [h.trace] at hfs
    exact .inl hfs
  flag := fun hf => h.flag ▸ hf
  still := fun _ => ⟨h.fs ▸ Kept.refl t w.fs,fun _ => congrArg Volume.entries h.fs⟩
  done := fun hm => nomatch hm

variable {moved : Bool}

theorem Settles.trans {a b c : World} (h : Settles t good a b false)
    (h' : Settles t good b c moved) : Settles t good a c moved where
  shown := by
    intro fs hfs
    rcases h'.shown fs hfs with hb | hkept | hdone
    · exact h.shown fs hb
    · exact .inr (.inl ((h.still rfl).1.trans hkept))
    · exact .inr (.inr hdone)
  flag := fun hf => h.flag (h'.flag hf)
  still := by
    intro hm
    obtain ⟨hkept,hentries⟩ := h'.still hm
    refine ⟨(h.still rfl).1.trans hkept,?_⟩
    intro hf
    rw [hentries hf, (h.still rfl).2 (h'.flag hf)]
  done := by
    intro hm
    obtain ⟨hdone,hentries⟩ := h'.done hm
    refine ⟨hdone,?_⟩
    intro hf
    obtain ⟨i,hi⟩ := hentries hf
    rw [(h.still rfl).2 (h'.flag hf)] at hi
    exact ⟨i,hi⟩

theorem Settles.mono {w w' : World} {good' : ℕ → Bytes → Prop}
    (h : Settles t good w w' moved) (hgood : ∀ i c, good i c → good' i c) :
    Settles t good' w w' moved where
  shown := by
    intro fs hfs
    rcases h.shown fs hfs with hb | hkept | ⟨i,hi,hc⟩
    · exact .inl hb
    · exact .inr (.inl hkept)
    · exact .inr (.inr ⟨i,hi,hgood i _ hc⟩)
  flag := h.flag
  still := h.still
  done := by
    intro hm
    obtain ⟨⟨i,hi,hc⟩,hentries⟩ := h.done hm
    exact ⟨⟨i,hi,hgood i _ hc⟩,hentries⟩

/-- The scratch directory plays no part in what the destination shows. -/
theorem Settles.unscratch {w w' : World}
    (h : Settles { t with scratch := none } good w w' moved) : Settles t good w w' moved where
  shown := fun fs hfs => (h.shown fs hfs).imp id (Or.imp (fun k => ⟨k.1,k.2,k.3,k.4⟩) id)
  flag := h.flag
  still := by
    intro hm
    obtain ⟨hkept,hentries⟩ := h.still hm
    exact ⟨⟨hkept.1,hkept.2,hkept.3,hkept.4⟩,hentries⟩
  done := h.done

end States

section Midway

/-- Between the creation of the temporary `name` for the object `i` and its end;
`a` is the state before. -/
structure Midway (t : Target) (good : ℕ → Bytes → Prop) (name : Name) (i : ℕ) (a w : World) :
    Prop where
  apart : name ≠ t.leaf
  free : a.fs.entries t.tempDir name = none
  entries : w.fs.entries = setEntry a.fs.entries t.tempDir name (some i)
  old : ∀ j < a.fs.next, w.fs.content j = a.fs.content j
  grown : a.fs.next ≤ w.fs.next
  shown : ∀ fs ∈ w.trace, fs ∈ a.trace ∨ Kept t a.fs fs ∨ Complete t good fs
  flag : w.unlinkFailed = false → a.unlinkFailed = false

variable {t : Target} {good : ℕ → Bytes → Prop} {name : Name} {i : ℕ} {a w w' : World}

theorem kept_of_entries {v fs : Fs} (apart : name ≠ t.leaf) (free : v.entries t.tempDir name = none)
    (entries : fs.entries = setEntry v.entries t.tempDir name (some i))
    (old : ∀ j < v.next, fs.content j = v.content j) (grown : v.next ≤ fs.next) :
    Kept t v fs where
  names := by
    intro d n j hj
    rw [entries, setEntry_ne]
    · exact hj
    · rintro ⟨rfl,rfl⟩
      rw [free] at hj
      cases hj
  absent := by
    intro hnone
    rw [entries, setEntry_ne]
    · exact hnone
    · rintro ⟨-,rfl⟩
      exact apart rfl
  old := old
  grown := grown

theorem Midway.kept (h : Midway t good name i a w) : Kept t a.fs w.fs :=
  kept_of_entries h.apart h.free h.entries h.old h.grown

theorem Midway.quiet (h : Midway t good name i a w) (hq : Quiet w w') :
    Midway t good name i a w' where
  apart := h.apart
  free := h.free
  entries := hq.fs ▸ h.entries
  old := hq.fs ▸ h.old
  grown := hq.fs ▸ h.grown
  shown := hq.trace ▸ h.shown
  flag := fun hf => h.flag (hq.flag.symm.trans hf)

theorem Midway.onFile {α : Type} (h : Midway t good name i a w) (hnew : a.fs.next ≤ i)
    (f : Handle → α × Handle) : Midway t good name i a (w.onFile i f).2 := by
  have hfill : ∀ c : Bytes, ∀ j < a.fs.next, (w.fs.fill i c).content j = a.fs.content j := by
    intro c j hj
    rw [← h.old j hj]
    exact if_neg (by omega)
  refine ⟨h.apart,h.free,h.entries,hfill _,h.grown,?_,h.flag⟩
  intro fs hfs
  rcases List.mem_append.mp hfs with hnow | hbefore
  · obtain ⟨c,-,rfl⟩ := List.mem_map.mp hnow
    exact .inr (.inl (kept_of_entries h.apart h.free h.entries (hfill c) h.grown))
  · exact h.shown fs hbefore

theorem midway_create (apart : name ≠ t.leaf) (h : openExclusive t.tempDir name a = (.fd i, w)) :
    Midway t good name i a w ∧ a.fs.next ≤ i ∧ w.fs.content i = [] := by
  obtain ⟨hfree,rfl,hin⟩ := openExclusive_fd _ _ h
  have hentries : w.fs.entries = setEntry a.fs.entries t.tempDir name (some a.fs.next) :=
    congrArg Volume.entries hin.fs
  have hold : ∀ j < a.fs.next, w.fs.content j = a.fs.content j := by
    intro j hj
    rw [hin.fs]
    exact if_neg (by omega)
  have hgrown : a.fs.next ≤ w.fs.next := by
    rw [hin.fs]
    exact Nat.le_succ _
  refine ⟨⟨apart,hfree,hentries,hold,hgrown,?_,fun hf => hin.flag.symm.trans hf⟩,Nat.le_refl _,?_⟩
  · apply hin.shown fun _ hfs => Or.inl hfs
    exact .inr (.inl (kept_of_entries apart hfree hentries hold hgrown))
  · rw [hin.fs]
    exact if_pos rfl

theorem midway_link {b : Basis} (apart : name ≠ t.leaf) (hbasis : a.fs.entries b.dir b.leaf = some i)
    (h : linkat b.dir b.leaf t.tempDir name a = (.done, w)) : Midway t good name i a w := by
  obtain ⟨-,hfree,hin⟩ := linkat_done _ _ a w h
  have hentries : w.fs.entries = setEntry a.fs.entries t.tempDir name (some i) := by
    rw [hin.fs, ← hbasis]
    rfl
  have hold : ∀ j < a.fs.next, w.fs.content j = a.fs.content j := by
    intro j _
    rw [hin.fs]
    rfl
  have hgrown : a.fs.next ≤ w.fs.next := by
    rw [hin.fs]
    exact Nat.le_refl _
  refine ⟨apart,hfree,hentries,hold,hgrown,?_,fun hf => hin.flag.symm.trans hf⟩
  apply hin.shown fun _ hfs => Or.inl hfs
  exact .inr (.inl (kept_of_entries apart hfree hentries hold hgrown))

theorem Midway.unlink (h : Midway t good name i a w) :
    Settles t good a (unlinkat t.tempDir name w).2 false := by
  rcases unlinkat_cases t.tempDir name w with ⟨-,hin⟩ | ⟨-,hfs,htrace,hflag⟩
  · have hback : (unlinkat t.tempDir name w).2.fs.entries = a.fs.entries := by
      rw [hin.fs]
      show setEntry w.fs.entries t.tempDir name none = a.fs.entries
      rw [h.entries, ← h.free, setEntry_restore]
    have hkept : Kept t a.fs (unlinkat t.tempDir name w).2.fs := by
      refine ⟨?_,?_,?_,?_⟩
      · intro d n j hj
        rw [hback, hj]
      · intro hnone
        rw [hback, hnone]
      · intro j hj
        rw [hin.fs]
        exact h.old j hj
      · rw [hin.fs]
        exact h.grown
    exact ⟨hin.shown h.shown (.inr (.inl hkept)),fun hf => h.flag (hin.flag.symm.trans hf),
      fun _ => ⟨hkept,fun _ => hback⟩,fun hm => nomatch hm⟩
  · have hstop : (unlinkat t.tempDir name w).2.unlinkFailed ≠ false := by
      rw [hflag]
      decide
    exact ⟨htrace ▸ h.shown,fun hf => absurd hf hstop,
      fun _ => ⟨hfs ▸ h.kept,fun hf => absurd hf hstop⟩,fun hm => nomatch hm⟩

theorem drop_temporary {entries : ℕ → Name → Option ℕ} {x y : Option ℕ} (apart : name ≠ t.leaf)
    (free : entries t.tempDir name = none) :
    setEntry (setEntry (setEntry entries t.tempDir name x) t.dir t.leaf y) t.tempDir name none =
      setEntry entries t.dir t.leaf y := by
  funext d n
  unfold setEntry
  by_cases hd : d = t.tempDir ∧ n = name
  · have hnd : ¬(d = t.dir ∧ n = t.leaf) := fun he => apart (hd.2.symm.trans he.2)
    rw [if_pos hd, if_neg hnd, hd.1, hd.2, free]
  · simp only [if_neg hd]

theorem Midway.rename (h : Midway t good name i a w) (hother : a.fs.entries t.dir t.leaf ≠ some i)
    (hgood : good i (w.fs.content i))
    (hmove : renameat t.tempDir name t.dir t.leaf w = (.done, w')) : Settles t good a w' true := by
  have hin := renameat_done _ _ w w' hmove
  have hdest : w.fs.entries t.dir t.leaf = a.fs.entries t.dir t.leaf := h.kept.dest
  have htemp : w.fs.entries t.tempDir name = some i := by rw [h.entries, setEntry_self]
  have hne : w.fs.entries t.tempDir name ≠ w.fs.entries t.dir t.leaf := by
    rw [hdest, htemp]
    exact fun he => hother he.symm
  rw [rename_of_ne _ _ _ _ _ hne] at hin
  have hentries : w'.fs.entries = setEntry a.fs.entries t.dir t.leaf (some i) := by
    rw [hin.fs]
    show setEntry (setEntry w.fs.entries t.dir t.leaf (w.fs.entries t.tempDir name)) t.tempDir name
      none = _
    rw [htemp, h.entries, drop_temporary h.apart h.free]
  have hcomplete : Complete t good w'.fs := by
    refine ⟨i,?_,?_⟩
    · rw [hentries, setEntry_self]
    · rw [hin.fs]
      exact hgood
  exact ⟨hin.shown h.shown (.inr (.inr hcomplete)),fun hf => h.flag (hin.flag.symm.trans hf),
    (fun hm => nomatch hm),fun _ => ⟨hcomplete,fun _ => ⟨i,hentries⟩⟩⟩

theorem Midway.refused (h : Midway t good name i a w) (hno : (unlinkat t.tempDir name w).1 = false) :
    Midway t good name i a (unlinkat t.tempDir name w).2 := by
  obtain ⟨hfs,htrace,hflag⟩ := unlinkat_refused _ _ hno
  exact ⟨h.apart,h.free,hfs ▸ h.entries,hfs ▸ h.old,hfs ▸ h.grown,htrace ▸ h.shown,
    fun hf => nomatch hflag.symm.trans hf⟩

/-- The object of the temporary has its destination name as well. -/
structure Doubled (t : Target) (good : ℕ → Bytes → Prop) (name : Name) (i : ℕ) (a w : World) :
    Prop where
  apart : name ≠ t.leaf
  free : a.fs.entries t.tempDir name = none
  entries : w.fs.entries =
    setEntry (setEntry a.fs.entries t.tempDir name (some i)) t.dir t.leaf (some i)
  complete : good i (w.fs.content i)
  shown : ∀ fs ∈ w.trace, fs ∈ a.trace ∨ Kept t a.fs fs ∨ Complete t good fs
  flag : w.unlinkFailed = false → a.unlinkFailed = false

theorem Doubled.dest (h : Doubled t good name i a w) : Complete t good w.fs := by
  refine ⟨i,?_,h.complete⟩
  rw [h.entries, setEntry_self]

theorem Midway.link (h : Midway t good name i a w) (hgood : good i (w.fs.content i))
    (hlink : linkat t.tempDir name t.dir t.leaf w = (.done, w')) : Doubled t good name i a w' := by
  obtain ⟨-,-,hin⟩ := linkat_done _ _ w w' hlink
  have htemp : w.fs.entries t.tempDir name = some i := by rw [h.entries, setEntry_self]
  have hboth : w'.fs.entries =
      setEntry (setEntry a.fs.entries t.tempDir name (some i)) t.dir t.leaf (some i) := by
    rw [hin.fs]
    show setEntry w.fs.entries t.dir t.leaf (w.fs.entries t.tempDir name) = _
    rw [htemp, h.entries]
  have hcontent : good i (w'.fs.content i) := by
    rw [hin.fs]
    exact hgood
  have hcomplete : Complete t good w'.fs := ⟨i,by rw [hboth, setEntry_self],hcontent⟩
  exact ⟨h.apart,h.free,hboth,hcontent,hin.shown h.shown (.inr (.inr hcomplete)),
    fun hf => h.flag (hin.flag.symm.trans hf)⟩

theorem Doubled.refused (h : Doubled t good name i a w)
    (hno : (unlinkat t.tempDir name w).1 = false) :
    Doubled t good name i a (unlinkat t.tempDir name w).2 := by
  obtain ⟨hfs,htrace,hflag⟩ := unlinkat_refused _ _ hno
  exact ⟨h.apart,h.free,hfs ▸ h.entries,hfs ▸ h.complete,htrace ▸ h.shown,
    fun hf => nomatch hflag.symm.trans hf⟩

theorem Doubled.unlink (h : Doubled t good name i a w) :
    Settles t good a (unlinkat t.tempDir name w).2 true := by
  rcases unlinkat_cases t.tempDir name w with ⟨-,hin⟩ | ⟨hno,-,-,hflag⟩
  · have hentries : (unlinkat t.tempDir name w).2.fs.entries =
        setEntry a.fs.entries t.dir t.leaf (some i) := by
      rw [hin.fs]
      show setEntry w.fs.entries t.tempDir name none = _
      rw [h.entries, drop_temporary h.apart h.free]
    have hcomplete : Complete t good (unlinkat t.tempDir name w).2.fs := by
      refine ⟨i,?_,?_⟩
      · rw [hentries, setEntry_self]
      · rw [hin.fs]
        exact h.complete
    exact ⟨hin.shown h.shown (.inr (.inr hcomplete)),
      fun hf => h.flag (hin.flag.symm.trans hf),(fun hm => nomatch hm),
      fun _ => ⟨hcomplete,fun _ => ⟨i,hentries⟩⟩⟩
  · have h' := h.refused hno
    exact ⟨h'.shown,h'.flag,(fun hm => nomatch hm),
      fun _ => ⟨h'.dest,fun hf => nomatch hflag.symm.trans hf⟩⟩

end Midway

end FastSync.StoreMoves
