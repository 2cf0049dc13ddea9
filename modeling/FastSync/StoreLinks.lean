import FastSync.StoreAtomic

/-!
# Installing by a hard link, and what installs leave behind

A basis is linked under a temporary name that is then moved over the
destination; when that fails it is copied, and at last the payload is written.
Moving one name of an object over another does nothing, so a destination that is
already the basis keeps the temporary beside it.
-/

set_option autoImplicit false

namespace FastSync.StoreLinks
open ByteFile InodeStore InodeStore.Volume
open StoreWrite StoreInstall StoreMoves StoreAtomic

section Link

variable {t : Target} {b : Basis} {name : Name} {i : ℕ} {a w w' : World}

theorem linkAttempts_none (left n : ℕ) (w w' : World) (h : linkAttempts t b left n w = (none, w')) :
    Quiet w w' := by
  induction left generalizing n w with
  | zero =>
    cases h
    exact Quiet.refl _
  | succ left ih =>
    rw [linkAttempts] at h
    have hname := nextTempName_quiet t n w
    split at h
    · cases h
    · rename_i w1 hlink
      have hq := linkat_quiet _ _ _ w1 hlink (fun hm => nomatch hm)
      exact (hname.trans hq).trans (ih (n+1) w1 h)
    · rename_i m w1 hdone htaken hlink
      cases h
      exact hname.trans (linkat_quiet _ _ _ _ hlink hdone)

theorem Midway.of_quiet {good : ℕ → Bytes → Prop} (hq : Quiet w a)
    (h : Midway t good name i a w') : Midway t good name i w w' where
  apart := h.apart
  free := hq.fs ▸ h.free
  entries := hq.fs ▸ h.entries
  old := hq.fs ▸ h.old
  grown := hq.fs ▸ h.grown
  shown := hq.fs ▸ hq.trace ▸ h.shown
  flag := fun hf => hq.flag.symm.trans (h.flag hf)

theorem linkAttempts_some (left n : ℕ) (w w' : World) (name : Name)
    (h : linkAttempts t b left n w = (some name, w')) :
    ∃ i, w.fs.entries b.dir b.leaf = some i ∧ ∀ good, Midway t good name i w w' := by
  induction left generalizing n w with
  | zero => cases h
  | succ left ih =>
    rw [linkAttempts] at h
    have hname := nextTempName_quiet t n w
    split at h
    · rename_i w1 hlink
      cases h
      obtain ⟨i,hi⟩ := Option.ne_none_iff_exists'.mp (linkat_done _ _ _ _ hlink).1
      have hi' : w.fs.entries b.dir b.leaf = some i := by rw [← hname.fs, hi]
      exact ⟨i,hi',fun good =>
        Midway.of_quiet hname (midway_link nextTempName_ne hi hlink)⟩
    · rename_i w1 hlink
      have hq := hname.trans (linkat_quiet _ _ _ w1 hlink (fun hm => nomatch hm))
      obtain ⟨i,hi,hmid⟩ := ih (n+1) w1 h
      exact ⟨i,hq.fs ▸ hi,fun good => Midway.of_quiet hq (hmid good)⟩
    · cases h

def IsObject (fs : Fs) (i : ℕ) : ℕ → Bytes → Prop := fun j c => j = i ∧ c = fs.content i

theorem linkTemporary_done {o : StoreOptions} (h : ∀ good, Midway t good name i a w)
    (hold : i < a.fs.next) (hin : (linkTemporary t o name w).1 = true) :
    (a.fs.entries t.dir t.leaf ≠ some i →
        Settles t (IsObject a.fs i) a (linkTemporary t o name w).2 true) ∧
      (a.fs.entries t.dir t.leaf = some i →
        ∀ good, Midway t good name i a (linkTemporary t o name w).2) := by
  have hmid := fun good => (h good).quiet (syncLink_quiet o w)
  unfold linkTemporary at hin ⊢
  dsimp only at hin ⊢
  by_cases hsync : (syncLink o w).1 = true
  · rw [if_pos hsync] at hin ⊢
    by_cases hmove : (renameat t.tempDir name t.dir t.leaf (syncLink o w).2).1 = .done
    · rw [if_pos hmove]
      refine ⟨?_,?_⟩
      · intro hother
        apply (hmid _).rename hother _ (Prod.ext hmove rfl)
        exact ⟨rfl,(hmid (fun _ _ => True)).old i hold⟩
      · intro hsame good
        have hentered := renameat_done _ _ _ _ (Prod.ext hmove rfl)
        have hm := hmid good
        have heq : (syncLink o w).2.fs.entries t.tempDir name =
            (syncLink o w).2.fs.entries t.dir t.leaf := by
          rw [hm.kept.dest, hsame, hm.entries, setEntry_self]
        rw [rename_of_eq _ _ _ _ _ heq] at hentered
        refine ⟨hm.apart,hm.free,hentered.fs ▸ hm.entries,hentered.fs ▸ hm.old,
          hentered.fs ▸ hm.grown,?_,fun hf => hm.flag (hentered.flag.symm.trans hf)⟩
        apply hentered.shown hm.shown
        rw [hentered.fs]
        exact .inr (.inl hm.kept)
    · rw [if_neg hmove] at hin
      cases hin
  · rw [if_neg hsync, if_neg (fun hx => nomatch hx)] at hin
    cases hin

theorem linkTemporary_failed (o : StoreOptions) (h : ∀ good, Midway t good name i a w)
    (hin : (linkTemporary t o name w).1 = false) (good : ℕ → Bytes → Prop) :
    Settles t good a (linkTemporary t o name w).2 false := by
  have hmid := (h good).quiet (syncLink_quiet o w)
  unfold linkTemporary at hin ⊢
  dsimp only at hin ⊢
  by_cases hsync : (syncLink o w).1 = true
  · rw [if_pos hsync] at hin ⊢
    by_cases hmove : (renameat t.tempDir name t.dir t.leaf (syncLink o w).2).1 = .done
    · rw [if_pos hmove] at hin
      cases hin
    · rw [if_neg hmove]
      exact (hmid.quiet (renameat_quiet _ _ _ _ rfl hmove)).unlink
  · rw [if_neg hsync, if_neg (fun hx => nomatch hx)]
    exact hmid.unlink

/-- A basis that was linked in: the destination is the basis now, or it was the
basis already and the temporary stays. -/
theorem linkBasis_done {o : StoreOptions} {w : World} (hin : (linkBasis t o b w).1 = true) :
    ∃ i, w.fs.entries b.dir b.leaf = some i ∧
      (w.fs.entries t.dir t.leaf ≠ some i →
        Settles t (IsObject w.fs i) w (linkBasis t o b w).2 true) ∧
      (w.fs.entries t.dir t.leaf = some i →
        ∃ name, ∀ good, Midway t good name i w (linkBasis t o b w).2) := by
  unfold linkBasis at hin ⊢
  dsimp only at hin ⊢
  split_ifs at hin ⊢
  split at hin
  · rename_i name w1 hlink
    obtain ⟨i,hi,hmid⟩ := linkAttempts_some _ _ _ w1 name hlink
    have hmid' := fun good => Midway.of_quiet (consult_quiet w) (hmid good)
    obtain ⟨hother,hsame⟩ := linkTemporary_done hmid' (w.fs.bounded _ _ i hi) hin
    exact ⟨i,hi,hother,fun hd => ⟨name,hsame hd⟩⟩
  · cases hin

theorem linkBasis_failed {o : StoreOptions} {w : World} (hin : (linkBasis t o b w).1 = false) :
    (∀ good, Settles t good w (linkBasis t o b w).2 false) ∧
      basisBytes b (linkBasis t o b w).2.fs = basisBytes b w.fs := by
  have hsame : ∀ w', Quiet w w' → (∀ good, Settles t good w w' false) ∧
      basisBytes b w'.fs = basisBytes b w.fs :=
    fun w' hq => ⟨fun good => Settles.of_quiet hq,by rw [hq.fs]⟩
  unfold linkBasis at hin ⊢
  dsimp only at hin ⊢
  split_ifs at hin ⊢
  · exact hsame _ (consult_quiet w)
  · split at hin
    · rename_i name w1 hlink
      obtain ⟨i,hi,hmid⟩ := linkAttempts_some _ _ _ w1 name hlink
      have hs := fun good => linkTemporary_failed o
        (fun good => Midway.of_quiet (consult_quiet w) (hmid good)) hin good
      exact ⟨hs,basisBytes_kept ((hs (fun _ _ => True)).still rfl).1 hi⟩
    · rename_i w1 hlink
      exact hsame _ ((consult_quiet w).trans (linkAttempts_none _ _ _ w1 hlink))

end Link

section Traces

/-- At every moment the destination denotes what it did, or a complete object. -/
def Shows (t : Target) (good : ℕ → Bytes → Prop) (fs : Fs) (w : World) : Prop :=
  ∀ v ∈ w.fs::w.trace, v.denotes t.dir t.leaf = fs.denotes t.dir t.leaf ∨
    ∃ i c, v.denotes t.dir t.leaf = some (i, c) ∧ good i c

/-- The names are the old ones and at most the destination. -/
def NamesKept (t : Target) (v v' : Fs) : Prop :=
  ∀ d n, (v.entries d n ≠ none → v'.entries d n ≠ none) ∧
    (v'.entries d n ≠ none → v.entries d n ≠ none ∨ (d = t.dir ∧ n = t.leaf))

theorem namesKept_of_eq {t : Target} {v v' : Fs} (h : v'.entries = v.entries) : NamesKept t v v' := by
  intro d n
  rw [h]
  exact ⟨id,.inl⟩

theorem namesKept_of_set {t : Target} {v v' : Fs} {i : ℕ}
    (h : v'.entries = setEntry v.entries t.dir t.leaf (some i)) : NamesKept t v v' := by
  intro d n
  rw [h]
  by_cases hd : d = t.dir ∧ n = t.leaf
  · rw [hd.1, hd.2, setEntry_self]
    exact ⟨(fun _ hx => nomatch hx),fun _ => Or.inr ⟨rfl,rfl⟩⟩
  · rw [setEntry_ne _ _ _ _ _ _ hd]
    exact ⟨id,.inl⟩

variable {t : Target} {good : ℕ → Bytes → Prop} {fs : Fs} {w : World} {replies : List Reply}
  {sequence : ℕ} {moved : Bool}

theorem Complete.denotes {v : Fs} (h : Complete t good v) :
    ∃ i c, v.denotes t.dir t.leaf = some (i, c) ∧ good i c := by
  obtain ⟨i,hi,hgood⟩ := h
  refine ⟨i,v.content i,?_,hgood⟩
  rw [Volume.denotes, hi]
  rfl

section
variable (h : Settles t good (World.start fs replies sequence) w moved)
include h

theorem Settles.shows : Shows t good fs w := by
  intro v hv
  rcases List.mem_cons.mp hv with rfl | hv
  · cases moved with
    | false => exact .inl (h.still rfl).1.denotes
    | true => exact .inr (Complete.denotes (h.done rfl).1)
  · rcases h.shown v hv with hx | hkept | hdone
    · cases hx
    · exact .inl hkept.denotes
    · exact .inr (Complete.denotes hdone)

theorem Settles.namesKept (hflag : w.unlinkFailed = false) : NamesKept t fs w.fs := by
  cases moved with
  | false => exact namesKept_of_eq ((h.still rfl).2 hflag)
  | true =>
    obtain ⟨i,hi⟩ := (h.done rfl).2 hflag
    exact namesKept_of_set hi

end

section
variable {name : Name} {i : ℕ} (h : Midway t good name i (World.start fs replies sequence) w)
include h

theorem Midway.shows : Shows t good fs w := by
  intro v hv
  rcases List.mem_cons.mp hv with rfl | hv
  · exact .inl h.kept.denotes
  · rcases h.shown v hv with hx | hkept | hdone
    · cases hx
    · exact .inl hkept.denotes
    · exact .inr (Complete.denotes hdone)

theorem Midway.not_namesKept : ¬NamesKept t fs w.fs := by
  intro hnames
  have hthere : w.fs.entries t.tempDir name ≠ none := by
    rw [h.entries, setEntry_self]
    exact fun hx => nomatch hx
  rcases (hnames t.tempDir name).2 hthere with hx | ⟨-,hx⟩
  · exact hx h.free
  · exact h.apart hx

end

end Traces

section Main

variable (t : Target) (o : StoreOptions) (b : Basis) (data : Bytes) (size : ℕ) (fs : Fs)
  (replies : List Reply) (sequence : ℕ)

/-- What a link install may show: the basis itself, a whole copy of as many of
its bytes, or the payload. -/
def LinkGoal (i : ℕ) (c : Bytes) : Prop :=
  (fs.entries b.dir b.leaf = some i ∧ c = fs.content i) ∨
    (∃ start, CopyOf (basisBytes b fs) data.length start i c) ∨ c = data

def refused : LinkEnd → Bool
  | .linked => false
  | .copied c => decide (c.outcome = .failed)
  | .written oc => decide (oc = .failed)
  | .failed => true

/-- From `fs` on only the old and a complete destination were shown; unless an
unlink was refused, a failure left the destination and nothing left a new name. -/
def Atomic (good : ℕ → Bytes → Prop) (w : World) (failed : Prop) : Prop :=
  Shows t good fs w ∧ (w.unlinkFailed = false →
    (failed → w.fs.denotes t.dir t.leaf = fs.denotes t.dir t.leaf) ∧ NamesKept t fs w.fs)

theorem fileToDiskSecureImpl_atomic (hplace : o.inplace = false) (hkeep : o.keepPartial = false) :
    let r := fileToDiskSecureImpl t o data (World.start fs replies sequence)
    Atomic t fs (Holds data) r.2 (r.1 = .failed) := by
  obtain ⟨moved,hs,-,hout,-⟩ :=
    fileToDiskSecureImpl_ends (t := t) o data hplace hkeep (World.start fs replies sequence)
  refine ⟨Settles.shows hs,fun hflag => ⟨fun hfail => ?_,Settles.namesKept hs hflag⟩⟩
  have hstill := hout (by rw [hfail]; exact fun hx => nomatch hx) hflag
  exact (hs.still hstill).1.denotes

theorem fileCopyBasisStreamImpl_atomic :
    let r := fileCopyBasisStreamImpl t o b size (World.start fs replies sequence)
    Atomic t fs (fun i c => ∃ start, CopyOf (basisBytes b fs) size start i c) r.2
      (r.1.outcome = .failed) := by
  have hends := fileCopyBasisStreamImpl_ends (t := t) o b size (World.start fs replies sequence)
  by_cases hin : (fileCopyBasisStreamImpl t o b size (World.start fs replies sequence)).1.outcome =
      .installed
  · have hs := hends.installed hin
    refine ⟨Settles.shows (hs.mono fun i c hc => ⟨_,hc⟩),fun hflag => ⟨fun hfail => ?_,?_⟩⟩
    · rw [hin] at hfail
      cases hfail
    · exact Settles.namesKept hs hflag
  · have hs := hends.otherwise hin
    exact ⟨Settles.shows (hs _),fun hflag =>
      ⟨fun _ => ((hs (fun _ _ => True)).still rfl).1.denotes,
        Settles.namesKept (hs (fun _ _ => True)) hflag⟩⟩

def AlreadyLinked : Prop :=
  fs.entries t.dir t.leaf ≠ none ∧ fs.entries t.dir t.leaf = fs.entries b.dir b.leaf

/-- A link install leaves the temporary beside a destination that was the basis
already, and otherwise ends like the other installs. -/
theorem fileToDiskSecureLinkImpl_cases {w : World} :
    ((fileToDiskSecureLinkImpl t o b data w).1 = .linked ∧ AlreadyLinked t b w.fs ∧
      ∃ name i, ∀ good, Midway t good name i w (fileToDiskSecureLinkImpl t o b data w).2) ∨
    (¬((fileToDiskSecureLinkImpl t o b data w).1 = .linked ∧ AlreadyLinked t b w.fs) ∧
      ∃ moved, Settles t (LinkGoal b data w.fs) w (fileToDiskSecureLinkImpl t o b data w).2 moved ∧
        (refused (fileToDiskSecureLinkImpl t o b data w).1 = true →
          (fileToDiskSecureLinkImpl t o b data w).2.unlinkFailed = false → moved = false)) := by
  have hp := consult_quiet w
  have hs := hp.trans (openTempDir_quiet t w.consult.2)
  unfold fileToDiskSecureLinkImpl
  by_cases h1 : (!w.consult.1) = true
  · rw [if_pos h1]
    exact .inr ⟨(fun hx => nomatch hx.1),false,Settles.of_quiet hp,fun _ _ => rfl⟩
  rw [if_neg h1]
  by_cases h2 : (!(openTempDir t w.consult.2).1) = true
  · rw [if_pos h2]
    exact .inr ⟨(fun hx => nomatch hx.1),false,Settles.of_quiet hs,fun _ _ => rfl⟩
  rw [if_neg h2]
  generalize (openTempDir t w.consult.2).2 = w1 at hs ⊢
  by_cases h3 : (linkBasis t o b w1).1 = true
  · rw [if_pos h3]
    obtain ⟨i,hi,hother,hsame⟩ := linkBasis_done h3
    rw [hs.fs] at hi hother hsame
    by_cases hd : w.fs.entries t.dir t.leaf = some i
    · obtain ⟨name,hmid⟩ := hsame hd
      refine .inl ⟨rfl,⟨?_,hd.trans hi.symm⟩,name,i,fun good => Midway.of_quiet hs (hmid good)⟩
      rw [hd]
      exact fun hx => nomatch hx
    · refine .inr ⟨?_,true,?_,fun hx => nomatch hx⟩
      · rintro ⟨-,-,hx⟩
        exact hd (hx.trans hi)
      · refine (Settles.of_quiet hs).trans ((hother hd).mono ?_)
        rintro j c ⟨rfl,hc⟩
        exact .inl ⟨hi,hc⟩
  · rw [if_neg h3]
    obtain ⟨hlink,hbytes⟩ := linkBasis_failed (Bool.not_eq_true _ ▸ h3)
    have hfirst := fun good => (Settles.of_quiet hs).trans (hlink good)
    have hcopy := fileCopyBasisStreamImpl_ends (t := t) { o with update := false, noReplace := false }
      b data.length (linkBasis t o b w1).2
    rw [hbytes, hs.fs] at hcopy
    generalize fileCopyBasisStreamImpl t { o with update := false, noReplace := false } b
      data.length (linkBasis t o b w1).2 = c at hcopy ⊢
    by_cases h4 : c.1.outcome ≠ .failed
    · rw [if_pos h4]
      refine .inr ⟨(fun hx => nomatch hx.1),?_⟩
      have hnot : refused (.copied c.1) = true → False := by
        intro hx
        exact h4 (of_decide_eq_true hx)
      by_cases hin : c.1.outcome = .installed
      · refine ⟨true,(hfirst _).trans ((hcopy.installed hin).mono ?_),fun hx => (hnot hx).elim⟩
        intro j x hx
        exact .inr (.inl ⟨_,hx⟩)
      · exact ⟨false,(hfirst _).trans (hcopy.otherwise hin _),fun _ _ => rfl⟩
    · rw [if_neg h4]
      refine .inr ⟨(fun hx => nomatch hx.1),?_⟩
      have hfail : c.1.outcome ≠ .installed := by
        rw [not_not.mp h4]
        exact fun hx => nomatch hx
      obtain ⟨moved,hw,-,hout,-⟩ := fileToDiskSecureImpl_ends (t := t) { o with
        inplace := false, sparse := false, update := false, noReplace := false,
        keepPartial := false } data rfl rfl c.2
      refine ⟨moved,((hfirst _).trans (hcopy.otherwise hfail _)).trans (hw.mono ?_),?_⟩
      · intro j x hx
        exact .inr (.inr hx)
      · intro hx
        apply hout
        rw [of_decide_eq_true hx]
        exact fun hy => nomatch hy

end Main

/-- The destination `a` of directory 0 and the basis `b` of directory 1 are two
names of one object. -/
def linkedPair : Fs := ((Volume.empty []).create 1 [98] [1]).link 1 [98] 0 [97]

end FastSync.StoreLinks
