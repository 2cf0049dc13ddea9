import FastSync.SecureWalk

/-!
# Calls that only look

A program that only looks leaves the file system and the log of touched objects
as they are, and what it finds depends on the file system and the answers of the
environment alone. The parent walk that makes no directories is one.
-/

set_option autoImplicit false

namespace FastSync.ReadOnly
open DeletePaths Programs SystemCalls
open SecureWalk

/-- What a look returns, the answers it leaves and the directories it opens. -/
abbrev Look (α : Type) := Fs → List Reply → α × List Reply × List Position

/-- The program does what the look says and nothing else. -/
structure Follows {α : Type} (m : Sys α) (f : Look α) : Prop where
  run : ∀ w, m w = ((f w.fs w.replies).1,
    { w with replies := (f w.fs w.replies).2.1,
             opened := (f w.fs w.replies).2.2++w.opened })
  silent : ∀ fs, (f fs []).2.1 = []

def Reads {α : Type} (m : Sys α) : Prop := ∃ f, Follows m f

section Rules

variable {α β : Type}

theorem reads_pure (a : α) : Reads (pure a) := ⟨fun _ rs => (a,rs,[]),fun _ => rfl,fun _ => rfl⟩

theorem reads_bind {m : Sys α} {k : α → Sys β} (hm : Reads m) (hk : ∀ a, Reads (k a)) :
    Reads (m >>= k) := by
  obtain ⟨f,hf⟩ := hm
  choose g hg using hk
  refine ⟨fun fs rs =>
    let r := g (f fs rs).1 fs (f fs rs).2.1
    (r.1,r.2.1,r.2.2++(f fs rs).2.2),?_,?_⟩
  · intro w
    rw [bind_apply, hf.run w, (hg _).run]
    simp
  · intro fs
    rw [hf.silent fs, (hg _).silent fs]

theorem reads_ite {c : Prop} [Decidable c] {m n : Sys α} (hm : Reads m) (hn : Reads n) :
    Reads (if c then m else n) := by
  split
  · exact hm
  · exact hn

theorem reads_answer : Reads answer := by
  refine ⟨fun _ rs => (rs.headD .pass,rs.tail,[]),?_,fun _ => rfl⟩
  rintro ⟨fs,rs,sequence,touched,opened,context⟩
  cases rs <;> rfl

theorem reads_query {k : Fs → Except Errno α} : Reads (query k) := by
  refine reads_bind reads_answer ?_
  rintro (_ | ⟨e,n⟩)
  · exact ⟨fun fs rs => (k fs,rs,[]),fun _ => rfl,fun _ => rfl⟩
  · exact reads_pure _

theorem reads_noteOpened {p : Position} : Reads (noteOpened p) :=
  ⟨fun _ rs => ((),rs,[p]),fun _ => rfl,fun _ => rfl⟩

theorem reads_statAt {d : Position} {c : Bytes} : Reads (statAt d c) := reads_query

theorem reads_openDirAt (d : Position) (c : Bytes) : Reads (openDirAt d c) := by
  refine reads_bind reads_query ?_
  rintro (e | p)
  · exact reads_pure _
  · exact reads_bind reads_noteOpened fun _ => reads_pure _

end Rules

section Consequences

variable {α : Type} {m : Sys α}

section
variable (h : Reads m) (w : World)
include h

theorem reads_fs : (m w).2.fs = w.fs := by
  obtain ⟨f,hf⟩ := h
  rw [hf.run w]

theorem reads_touched : (m w).2.touched = w.touched := by
  obtain ⟨f,hf⟩ := h
  rw [hf.run w]

theorem reads_replies (hw : w.replies = []) : (m w).2.replies = [] := by
  obtain ⟨f,hf⟩ := h
  rw [hf.run w, hw]
  exact hf.silent w.fs

end

theorem reads_result (h : Reads m) {w w' : World} (hfs : w'.fs = w.fs)
    (hrs : w'.replies = w.replies) : (m w').1 = (m w).1 := by
  obtain ⟨f,hf⟩ := h
  rw [hf.run w, hf.run w', hfs, hrs]

end Consequences

section Walk

variable (pr : Process)

theorem reads_openBeneath (fd : Position) {ns : List Name} : Reads (openBeneath fd ns) := by
  induction ns generalizing fd with
  | nil => exact reads_pure _
  | cons n ns ih =>
    refine reads_bind (reads_openDirAt fd n.1) ?_
    rintro (e | next)
    · exact reads_pure _
    · exact ih next

theorem reads_followDirlink {root fd : Position} {relBuf c : Bytes} {e : Errno} :
    Reads (followDirlink root fd relBuf c e) := by
  refine reads_bind reads_statAt fun r => ?_
  split
  · refine reads_bind reads_query ?_
    rintro (e' | real)
    · exact reads_pure _
    refine reads_bind reads_query ?_
    rintro (e' | resolved)
    · exact reads_pure _
    refine reads_ite ?_ (reads_pure _)
    refine reads_bind reads_query fun r => ?_
    split
    · exact reads_ite (reads_pure _) (reads_openBeneath root)
    · exact reads_pure _
    · exact reads_pure _
  · exact reads_pure _
  · exact reads_pure _

theorem reads_settleComponent {fd : Position} {relBuf c : Bytes} (a : Attempt) :
    Reads (settleComponent pr fd relBuf c a) := by
  cases a with
  | opened p | abort e => exact reads_pure _
  | failed e =>
    unfold settleComponent
    cases pr.authorizedRoot with
    | none => exact reads_pure _
    | some root => exact reads_ite reads_followDirlink (reads_pure _)

theorem reads_tryComponent {fd : Position} {c : Bytes} : Reads (tryComponent pr false fd c) := by
  refine reads_bind (reads_openDirAt fd c) ?_
  rintro (e | p)
  · show Reads (if false = true ∧ e = .noent then _ else _)
    exact reads_pure _
  · exact reads_pure _

theorem reads_openComponent (fd : Position) (relBuf c : Bytes) :
    Reads (openComponent pr false fd relBuf c) :=
  reads_bind (reads_tryComponent pr) (reads_settleComponent pr)

theorem reads_walkParent {cs : List Bytes} (fd : Position) (relBuf : Bytes) :
    Reads (walkParent pr false cs fd relBuf) := by
  induction cs generalizing fd relBuf with
  | nil => exact reads_pure _
  | cons c cs ih =>
    refine reads_ite (reads_pure _) (reads_ite (ih fd relBuf) ?_)
    refine reads_bind (reads_openComponent pr fd relBuf c) ?_
    rintro (e | next)
    · exact reads_pure _
    · exact ih next _

theorem reads_walkTo {cs : List Bytes} {fd : Position} {leaf : Bytes} :
    Reads (walkTo pr false cs fd leaf) := by
  refine reads_bind (reads_walkParent pr _ _) ?_
  rintro (e | fd)
  · exact reads_pure _
  · exact reads_pure _

section
variable (path : Bytes)

theorem reads_fileOpenSecureParent : Reads (fileOpenSecureParent pr path false) := by
  unfold fileOpenSecureParent
  cases pr.authorizedRoot with
  | some root => exact reads_ite (reads_pure _) (reads_walkTo pr)
  | none =>
    refine reads_bind (reads_openDirAt _ _) ?_
    rintro (e | fd)
    · exact reads_pure _
    · exact reads_walkTo pr

theorem reads_statSecure : Reads (statSecure pr path) := by
  refine reads_bind (reads_fileOpenSecureParent pr path) ?_
  rintro (e | ⟨d,leaf⟩)
  · exact reads_pure _
  · exact reads_statAt

theorem reads_filePathExistsSecure : Reads (filePathExistsSecure pr path) := by
  refine reads_bind (reads_statSecure pr path) ?_
  rintro (e | s)
  · exact reads_pure _
  · exact reads_pure _

theorem reads_fileStatSecure : Reads (fileStatSecure pr path) := by
  refine reads_bind (reads_statSecure pr path) fun r => ?_
  split
  · exact reads_pure _
  · exact reads_pure _

theorem reads_fileDestinationIsNewerSecure {m : Option Time} :
    Reads (fileDestinationIsNewerSecure pr path m) := by
  refine reads_bind (reads_fileStatSecure pr path) ?_
  rintro (_ | t)
  · exact reads_pure _
  · exact reads_pure _

theorem reads_fileDirectoryExistsSecure : Reads (fileDirectoryExistsSecure pr path) := by
  refine reads_ite (reads_pure _) ?_
  refine reads_bind (reads_fileOpenSecureParent pr _) ?_
  rintro (e | ⟨d,leaf⟩)
  · exact reads_pure _
  refine reads_bind (reads_openDirAt d leaf) ?_
  rintro (e | p)
  · exact reads_pure _
  · exact reads_pure _

end

end Walk

end FastSync.ReadOnly
