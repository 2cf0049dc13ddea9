import FastSync.StoreMoves

/-!
# Atomic installs

The three ways of installing a file, run against every pattern of answers. A
write or a copy under a temporary name leaves the destination as it was or
complete, and leaves no other name behind.
-/

set_option autoImplicit false

namespace FastSync.StoreAtomic
open ByteFile InodeStore.Volume
open StoreWrite StoreInstall StorePayload StoreMoves

def Holds (data : Bytes) : ℕ → Bytes → Prop := fun _ c => c = data

/-- How an install ends. It may report a failure with the destination complete
only when an unlink was refused, and asks to be run again (`again`) only with the
destination as it was. -/
def Ends (t : Target) (good : ℕ → Bytes → Prop) (a w : World) (end' : Outcome) (again : Bool) :
    Prop :=
  ∃ moved, Settles t good a w moved ∧ (end' = .installed → moved = true) ∧
    (end' ≠ .installed → w.unlinkFailed = false → moved = false) ∧ (again = true → moved = false)

section Ends

variable {t : Target} {good : ℕ → Bytes → Prop} {a b w : World} {end' : Outcome} {again : Bool}

theorem Ends.of_moved (h : Settles t good a w true) : Ends t good a w .installed false :=
  ⟨true,h,fun _ => rfl,fun hi => absurd rfl hi,fun hx => nomatch hx⟩

theorem Ends.of_still (h : Settles t good a w false) (hend : end' ≠ .installed) :
    Ends t good a w end' again :=
  ⟨false,h,fun hi => absurd hi hend,fun _ _ => rfl,fun _ => rfl⟩

theorem Ends.of_quiet (h : Quiet a w) (hend : end' ≠ .installed) : Ends t good a w end' again :=
  Ends.of_still (Settles.of_quiet h) hend

theorem Ends.after (h : Settles t good a b false) (h' : Ends t good b w end' again) :
    Ends t good a w end' again := by
  obtain ⟨moved,hs,hrest⟩ := h'
  exact ⟨moved,h.trans hs,hrest⟩

theorem Ends.after_quiet (h : Quiet a b) (h' : Ends t good b w end' again) :
    Ends t good a w end' again := Ends.after (Settles.of_quiet h) h'

/-- How a write ends: what it reports installed is complete, and unless failed
temporaries are retained it ends as above. -/
def Writes (t : Target) (o : StoreOptions) (data : Bytes) (a w : World) (end' : Outcome)
    (again : Bool) : Prop :=
  (end' = .installed → Complete t (Holds data) w.fs) ∧
    (o.keepPartial = false → Ends t (Holds data) a w end' again)

variable {o : StoreOptions} {data : Bytes}

theorem Writes.of_quiet (h : Quiet a w) (hend : end' ≠ .installed) :
    Writes t o data a w end' again :=
  ⟨fun he => absurd he hend,fun _ => Ends.of_quiet h hend⟩

theorem Writes.after_quiet (h : Quiet a b) (h' : Writes t o data b w end' again) :
    Writes t o data a w end' again := ⟨h'.1,fun hkeep => Ends.after_quiet h (h'.2 hkeep)⟩

end Ends

section Store

variable {t : Target} {good : ℕ → Bytes → Prop} {name : Name} {i : ℕ} {a w : World}

section
variable (o : StoreOptions)

/-- The end of a commit: installed, an existing destination left alone, the
temporary still there, or both names there after a refused unlink. -/
theorem commitTemporary_cases (h : Midway t good name i a w)
    (hother : a.fs.entries t.dir t.leaf ≠ some i) (hgood : good i (w.fs.content i)) :
    ((commitTemporary t o name w).1 = (.installed, false) ∧
        Settles t good a (commitTemporary t o name w).2 true) ∨
      ((commitTemporary t o name w).1 = (.leftExisting, false) ∧
        Settles t good a (commitTemporary t o name w).2 false) ∨
      ((commitTemporary t o name w).1.1 = .failed ∧
        Midway t good name i a (commitTemporary t o name w).2) ∨
      ((commitTemporary t o name w).1 = (.failed, false) ∧ o.noReplace = true ∧
        (commitTemporary t o name w).2.unlinkFailed = true ∧
        Doubled t good name i a (commitTemporary t o name w).2) := by
  unfold commitTemporary
  by_cases hreplace : o.noReplace = true
  · rw [if_pos hreplace]
    split
    · rename_i w1 hlink
      have hdouble := h.link hgood hlink
      rcases unlinkat_cases t.tempDir name w1 with ⟨hu,-⟩ | ⟨hu,-,-,hflag⟩
      · left
        refine ⟨?_,hdouble.unlink⟩
        simp [hu]
      · right; right; right
        refine ⟨?_,hreplace,hflag,hdouble.refused hu⟩
        simp [hu]
    · rename_i w1 hlink
      have hmid := h.quiet (linkat_quiet _ _ w w1 hlink (fun hm => nomatch hm))
      rcases unlinkat_cases t.tempDir name w1 with ⟨hu,-⟩ | ⟨hu,-,-,-⟩
      · right; left
        refine ⟨?_,hmid.unlink⟩
        simp [hu]
      · right; right; left
        refine ⟨?_,hmid.refused hu⟩
        simp [hu]
    · rename_i w1 hlink
      exact .inr (.inr (.inl
        ⟨rfl,h.quiet (linkat_quiet _ _ w w1 hlink (fun hm => nomatch hm))⟩))
    · rename_i w1 hlink
      exact .inr (.inr (.inl
        ⟨rfl,h.quiet (linkat_quiet _ _ w w1 hlink (fun hm => nomatch hm))⟩))
  · rw [if_neg hreplace]
    split
    · rename_i w1 hmove
      exact .inl ⟨rfl,h.rename hother hgood hmove⟩
    · rename_i w1 hmove
      exact .inr (.inr (.inl
        ⟨rfl,h.quiet (renameat_quiet _ _ w w1 hmove (fun hm => nomatch hm))⟩))
    · rename_i m w1 hdone hcross hmove
      exact .inr (.inr (.inl ⟨rfl,h.quiet (renameat_quiet _ _ w w1 hmove hdone)⟩))

theorem discardTemporary_eq {attempted : Bool} {w : World}
    (hkeep : o.keepPartial = false ∨ o.noReplace = true) :
    discardTemporary t o attempted name w = (unlinkat t.tempDir name w).2 := by
  apply if_pos
  rcases hkeep with h | h <;> simp [h]

section
variable (data : Bytes)

theorem onFile_holds {w : World} {i : ℕ} (hempty : w.fs.content i = [])
    (hfill : (w.onFile i (fillTemporary o data)).1.2 = true) :
    Holds data i ((w.onFile i (fillTemporary o data)).2.consult.2.fs.content i) := by
  have hcontent := fillTemporary_eq_true hempty rfl (Prod.ext (Prod.ext rfl hfill) rfl)
  exact (if_pos rfl).trans hcontent

theorem storeTemporary_writes (h : Midway t (Holds data) name i a w) (hnew : a.fs.next ≤ i)
    (hempty : w.fs.content i = []) :
    Writes t o data a (storeTemporary t o data name i w).2 (storeTemporary t o data name i w).1.1
      (storeTemporary t o data name i w).1.2 := by
  have hother : a.fs.entries t.dir t.leaf ≠ some i := fun he =>
    Nat.lt_irrefl i (Nat.lt_of_lt_of_le (a.fs.bounded _ _ i he) hnew)
  have hmid := (h.onFile hnew (fillTemporary o data)).quiet (consult_quiet _)
  unfold storeTemporary
  dsimp only
  by_cases hok : ((w.onFile i (fillTemporary o data)).1.2 &&
      (w.onFile i (fillTemporary o data)).2.consult.1) = true
  · rw [if_pos hok]
    have hgood := onFile_holds o data hempty (Bool.and_eq_true_iff.mp hok).1
    rcases commitTemporary_cases o hmid hother hgood with
      ⟨hr,hs⟩ | ⟨hr,hs⟩ | ⟨hr,hs⟩ | ⟨hr,hreplace,hflag,hs⟩
    · rw [if_neg (by rw [hr]; decide), hr]
      exact ⟨fun _ => (hs.done rfl).1,fun _ => Ends.of_moved hs⟩
    · rw [if_neg (by rw [hr]; decide), hr]
      exact ⟨(fun he => nomatch he),fun _ => Ends.of_still hs (fun he => nomatch he)⟩
    · rw [if_pos hr]
      refine ⟨(fun he => nomatch hr.symm.trans he),fun hkeep => ?_⟩
      rw [hr, discardTemporary_eq o (.inl hkeep)]
      exact Ends.of_still hs.unlink (fun he => nomatch he)
    · rw [if_pos (by rw [hr])]
      rw [hr, discardTemporary_eq o (.inr hreplace)]
      refine ⟨(fun he => nomatch he),fun _ => ⟨true,hs.unlink,fun _ => rfl,?_,fun hx => nomatch hx⟩⟩
      intro _ hf
      rcases unlinkat_cases t.tempDir name
        (commitTemporary t o name (w.onFile i (fillTemporary o data)).2.consult.2).2 with
        ⟨-,hin⟩ | ⟨-,-,-,hrefused⟩
      · rw [hin.flag, hflag] at hf
        cases hf
      · rw [hrefused] at hf
        cases hf
  · rw [if_neg hok, if_pos rfl]
    refine ⟨(fun he => nomatch he),fun hkeep => ?_⟩
    rw [discardTemporary_eq o (.inl hkeep)]
    exact Ends.of_still hmid.unlink (fun he => nomatch he)

theorem storeAttempts_writes (left n : ℕ) (w : World) :
    Writes t o data w (storeAttempts t o data left n w).2 (storeAttempts t o data left n w).1.1
      (storeAttempts t o data left n w).1.2 := by
  induction left generalizing n w with
  | zero => exact Writes.of_quiet (Quiet.refl w) (fun he => nomatch he)
  | succ left ih =>
    rw [storeAttempts]
    have hname := nextTempName_quiet t n w
    split
    · rename_i j w1 hopen
      obtain ⟨hmid,hnew,hempty⟩ := midway_create nextTempName_ne hopen
      exact Writes.after_quiet hname (storeTemporary_writes o data hmid hnew hempty)
    · rename_i x w1 hx hopen
      have hq := openExclusive_quiet _ _ hopen hx
      exact Writes.after_quiet (hname.trans hq) (ih (n+1) w1)

section
variable (hplace : o.inplace = false)
include hplace

theorem storeOnce_writes (w : World) :
    Writes t o data w (storeOnce t o data w).2 (storeOnce t o data w).1.1
      (storeOnce t o data w).1.2 := by
  have hp := consult_quiet w
  have hq := hp.trans (probe_quiet t w.consult.2)
  have hs := hq.trans (openTempDir_quiet t (probe t w.consult.2).2)
  unfold storeOnce
  simp only [hplace, Bool.false_eq_true, if_false]
  split_ifs
  · exact Writes.of_quiet hp (fun he => nomatch he)
  · exact Writes.of_quiet hq (fun he => nomatch he)
  · exact Writes.of_quiet hs (fun he => nomatch he)
  · exact Writes.after_quiet hs (storeAttempts_writes o data _ _ _)

theorem fileToDiskSecureImpl_ends (hkeep : o.keepPartial = false) (w : World) :
    Ends t (Holds data) w (fileToDiskSecureImpl t o data w).2 (fileToDiskSecureImpl t o data w).1
      false := by
  obtain ⟨moved,hs,hin,hout,hagain⟩ := (storeOnce_writes (t := t) o data hplace w).2 hkeep
  unfold fileToDiskSecureImpl
  dsimp only
  split_ifs with hcross
  · rw [hagain hcross] at hs
    obtain ⟨moved',hs',hin',hout',-⟩ := (storeOnce_writes (t := { t with scratch := none }) o data
      hplace (storeOnce t o data w).2).2 hkeep
    exact Ends.after hs ⟨moved',hs'.unscratch,hin',hout',fun hx => nomatch hx⟩
  · exact ⟨moved,hs,hin,hout,fun hx => nomatch hx⟩

/-- Whatever is done with failed temporaries, an install that is reported shows
the payload. -/
theorem fileToDiskSecureImpl_installed {w : World}
    (hin : (fileToDiskSecureImpl t o data w).1 = .installed) :
    Complete t (Holds data) (fileToDiskSecureImpl t o data w).2.fs := by
  unfold fileToDiskSecureImpl at hin ⊢
  dsimp only at hin ⊢
  split_ifs at hin ⊢
  · exact (storeOnce_writes (t := { t with scratch := none }) o data hplace _).1 hin
  · exact (storeOnce_writes o data hplace w).1 hin

end

end

end

end Store

section Copy

/-- Exactly `size` bytes of `basis`, from the offset `start` on. -/
def CopyOf (basis : Bytes) (size start : ℕ) : ℕ → Bytes → Prop :=
  fun _ c => c = (basis.drop start).take size ∧ c.length = size

def basisBytes (b : Basis) (fs : Fs) : Bytes := ((fs.entries b.dir b.leaf).map fs.content).getD []

theorem basisBytes_kept {t : Target} {b : Basis} {v fs : Fs} {j : ℕ} (h : Kept t v fs)
    (hj : v.entries b.dir b.leaf = some j) : basisBytes b fs = basisBytes b v := by
  unfold basisBytes
  rw [hj, h.names _ _ j hj, Option.map_some, Option.map_some, h.old j (v.bounded _ _ j hj)]

variable {t : Target} {name : Name} {i : ℕ} {a w : World}

theorem copyTemporary_settles {o : StoreOptions} {basis : Bytes} {size src : ℕ}
    (h : ∀ good, Midway t good name i a w) (hnew : a.fs.next ≤ i) :
    ((copyTemporary t o basis size name i src w).1.1 = true →
        Settles t (CopyOf basis size src) a (copyTemporary t o basis size name i src w).2 true) ∧
      ((copyTemporary t o basis size name i src w).1.1 = false →
        ∀ good, Settles t good a (copyTemporary t o basis size name i src w).2 false) := by
  have hother : a.fs.entries t.dir t.leaf ≠ some i := fun he =>
    Nat.lt_irrefl i (Nat.lt_of_lt_of_le (a.fs.bounded _ _ i he) hnew)
  have hmid := fun good => ((h good).onFile hnew (fillCopy o basis size src)).quiet (consult_quiet _)
  unfold copyTemporary
  dsimp only
  by_cases hok : ((w.onFile i (fillCopy o basis size src)).1.1 &&
      (w.onFile i (fillCopy o basis size src)).2.consult.1) = true
  · rw [if_pos hok]
    have hfill : (w.onFile i (fillCopy o basis size src)).1.1 = true :=
      (Bool.and_eq_true_iff.mp hok).1
    by_cases hmove : (renameat t.tempDir name t.dir t.leaf
        (w.onFile i (fillCopy o basis size src)).2.consult.2).1 = .done
    · rw [if_pos hmove]
      refine ⟨fun _ => ?_,fun hx => nomatch hx⟩
      obtain ⟨hcopy,hlen⟩ := fillCopy_eq_true rfl
        (Prod.ext (Prod.ext hfill rfl) rfl)
      apply (hmid _).rename hother _ (Prod.ext hmove rfl)
      have hcontent : (w.onFile i (fillCopy o basis size src)).2.consult.2.fs.content i =
          (basis.drop src).take size := (if_pos rfl).trans hcopy
      exact ⟨hcontent,by rw [hcontent, hlen]⟩
    · rw [if_neg hmove]
      refine ⟨(fun hx => nomatch hx),fun _ good => ?_⟩
      exact ((hmid good).quiet (renameat_quiet _ _ _ _ rfl hmove)).unlink
  · rw [if_neg hok, if_neg (fun hx => nomatch hx)]
    exact ⟨(fun hx => nomatch hx),fun _ good => (hmid good).unlink⟩

theorem copyAttempts_settles (o : StoreOptions) (basis : Bytes) (size left n src : ℕ) (w : World) :
    (∀ start, (copyAttempts t o basis size left n src w).1 = some start →
        Settles t (CopyOf basis size start) w (copyAttempts t o basis size left n src w).2 true) ∧
      ((copyAttempts t o basis size left n src w).1 = none →
        ∀ good, Settles t good w (copyAttempts t o basis size left n src w).2 false) := by
  induction left generalizing n src w with
  | zero => exact ⟨(fun _ hx => nomatch hx),fun _ _ => Settles.of_quiet (Quiet.refl w)⟩
  | succ left ih =>
    rw [copyAttempts]
    have hname := nextTempName_quiet t n w
    split
    · rename_i w1 hopen
      have hq := openExclusive_quiet _ _ hopen (fun _ hx => nomatch hx)
      exact ⟨(fun _ hx => nomatch hx),fun _ _ => Settles.of_quiet (hname.trans hq)⟩
    · rename_i w1 hopen
      have hq := openExclusive_quiet _ _ hopen (fun _ hx => nomatch hx)
      obtain ⟨hsome,hnone⟩ := ih (n+1) src w1
      exact ⟨fun start hs => (Settles.of_quiet (hname.trans hq)).trans (hsome start hs),
        fun hn good => (Settles.of_quiet (hname.trans hq)).trans (hnone hn good)⟩
    · rename_i j w1 hopen
      have hmid := fun good => @midway_create t good _ _ _ _ nextTempName_ne hopen
      obtain ⟨hdone,hfail⟩ := copyTemporary_settles (fun good => (hmid good).1)
        (hmid (fun _ _ => True)).2.1
      dsimp only
      split_ifs with hr
      · refine ⟨?_,fun hx => nomatch hx⟩
        intro start hs
        cases hs
        exact (Settles.of_quiet hname).trans (hdone hr)
      · rw [Bool.not_eq_true] at hr
        obtain ⟨hsome,hnone⟩ := ih (n+1)
          (copyTemporary t o basis size (nextTempName t n w).1 j src w1).1.2
          (copyTemporary t o basis size (nextTempName t n w).1 j src w1).2
        exact ⟨fun start hs => ((Settles.of_quiet hname).trans (hfail hr _)).trans (hsome start hs),
          fun hn good => ((Settles.of_quiet hname).trans (hfail hr good)).trans (hnone hn good)⟩

structure CopyEnds (t : Target) (basis : Bytes) (size : ℕ) (w : World) (r : CopyEnd × World) :
    Prop where
  installed : r.1.outcome = .installed → Settles t (CopyOf basis size r.1.start) w r.2 true
  otherwise : r.1.outcome ≠ .installed → ∀ good, Settles t good w r.2 false
  exhausted : r.1.exhausted = true → r.1.outcome = .failed

theorem CopyEnds.of_quiet {basis : Bytes} {size : ℕ} {r : CopyEnd × World} (h : Quiet w r.2)
    (hout : r.1.outcome ≠ .installed) (hex : r.1.exhausted = false) : CopyEnds t basis size w r where
  installed := fun hin => absurd hin hout
  otherwise := fun _ _ => Settles.of_quiet h
  exhausted := fun he => nomatch hex.symm.trans he

section
variable (o : StoreOptions) (b : Basis) (size : ℕ) (w : World)

theorem copyOnce_ends :
    CopyEnds t (basisBytes b w.fs) size w (copyOnce t o b size w) ∧
      ((copyOnce t o b size w).1.exhausted = true → w.fs.entries b.dir b.leaf ≠ none) := by
  have hp := consult_quiet w
  have hb := hp.trans (openBasis_quiet b w.consult.2)
  have hquit : ∀ oc w', oc ≠ Outcome.installed → Quiet w w' →
      CopyEnds t (basisBytes b w.fs) size w (⟨oc,0,false⟩, w') ∧
        (false = true → w.fs.entries b.dir b.leaf ≠ none) :=
    fun oc w' hoc hq => ⟨CopyEnds.of_quiet hq hoc rfl,fun hx => nomatch hx⟩
  unfold copyOnce
  by_cases h1 : (!w.consult.1) = true
  · rw [if_pos h1]
    exact hquit _ _ (fun he => nomatch he) hp
  · rw [if_neg h1]
    split
    · rename_i w1 hopen
      rw [hopen] at hb
      exact hquit _ _ (fun he => nomatch he) hb
    · rename_i j w1 hopen
      have hj := openBasis_some hopen
      rw [hopen] at hb
      have hbytes : basisBytes b w.fs = w1.fs.content j := by
        unfold basisBytes
        rw [show w.fs.entries b.dir b.leaf = some j from hj, hb.fs]
        rfl
      have hq := hb.trans (probe_quiet t w1)
      by_cases h2 : isNewer t o (probe t w1).1 = true
      · rw [if_pos h2]
        exact hquit _ _ (fun he => nomatch he) hq
      · rw [if_neg h2]
        have he : Quiet w (if o.noReplace = true then filePathExistsSecure t (probe t w1).2
            else (false, (probe t w1).2)).2 := by
          split_ifs
          · exact hq.trans filePathExistsSecure_quiet
          · exact hq
        generalize (if o.noReplace = true then filePathExistsSecure t (probe t w1).2
            else (false, (probe t w1).2)) = e at he ⊢
        have hs := he.trans (openTempDir_quiet t e.2)
        by_cases h3 : e.1 = true
        · rw [if_pos h3]
          exact hquit _ _ (fun he => nomatch he) he
        · rw [if_neg h3]
          by_cases h4 : (!(openTempDir t e.2).1) = true
          · rw [if_pos h4]
            exact hquit _ _ (fun he => nomatch he) hs
          · rw [if_neg h4]
            obtain ⟨hsome,hnone⟩ := copyAttempts_settles (t := t) o (w1.fs.content j) size
              tempAttempts 0 0 (openTempDir t e.2).2
            split
            · rename_i start w2 hcopy
              rw [hcopy] at hsome
              refine ⟨⟨fun _ => ?_,fun hx => absurd rfl hx,fun hx => nomatch hx⟩,fun hx => nomatch hx⟩
              rw [hbytes]
              exact (Settles.of_quiet hs).trans (hsome start rfl)
            · rename_i w2 hcopy
              rw [hcopy] at hnone
              refine ⟨⟨(fun hx => nomatch hx),fun _ good => ?_,fun _ => rfl⟩,fun _ => ?_⟩
              · exact (Settles.of_quiet hs).trans (hnone rfl good)
              · rw [show w.fs.entries b.dir b.leaf = some j from hj]
                exact fun hx => nomatch hx

theorem fileCopyBasisStreamImpl_ends :
    CopyEnds t (basisBytes b w.fs) size w (fileCopyBasisStreamImpl t o b size w) := by
  obtain ⟨hends,hbasis⟩ := copyOnce_ends (t := t) o b size w
  unfold fileCopyBasisStreamImpl
  dsimp only
  split_ifs with hagain
  · have hex : (copyOnce t o b size w).1.exhausted = true := (Bool.and_eq_true_iff.mp hagain).1
    have hfail : (copyOnce t o b size w).1.outcome ≠ .installed := by
      rw [hends.exhausted hex]
      exact fun hx => nomatch hx
    have hfirst := hends.otherwise hfail
    obtain ⟨j,hj⟩ := Option.ne_none_iff_exists'.mp (hbasis hex)
    obtain ⟨hends',-⟩ := copyOnce_ends (t := { t with scratch := none }) o b size
      (copyOnce t o b size w).2
    rw [basisBytes_kept ((hfirst (fun _ _ => True)).still rfl).1 hj] at hends'
    exact ⟨fun hin => (hfirst _).trans ((hends'.installed hin).unscratch),
      fun hout good => (hfirst good).trans ((hends'.otherwise hout good).unscratch),
      hends'.exhausted⟩
  · exact hends

end

end Copy

end FastSync.StoreAtomic
