import Mathlib.Algebra.BigOperators.Group.Multiset.Basic
import Mathlib.Tactic.Abel
import FastSync.ScanSequential

/-!
# What a scan of a tree collects

The files and records of a scan as a recursion over the tree, and the stack
machine of the sequential scanner collecting the same: what it has handed out
and what its stack still holds add up to a constant.
-/

set_option autoImplicit false

namespace FastSync.ScanWalk
open ScanEntries ScanSequential

/-- The emitted entries and the records of a scan, in no order. -/
abbrev Tally := Multiset File × Multiset Note

def fileTally (files : List File) : Tally := (files, 0)

def noteTally (notes : List Note) : Tally := (0, notes)

def eventTally : Event → Tally
  | .chunk files => fileTally files
  | .note n => noteTally [n]

def logTally (log : List Event) : Tally := (log.map eventTally).sum

def visitTally (v : Visit) : Tally := noteTally v.notes+fileTally v.file.toList

theorem fileTally_append (a b : List File) : fileTally (a++b) = fileTally a+fileTally b := by
  simp [fileTally]

theorem noteTally_append (a b : List Note) : noteTally (a++b) = noteTally a+noteTally b := by
  simp [noteTally]

theorem fileTally_nil : fileTally [] = 0 := rfl

theorem logTally_append (a b : List Event) : logTally (a++b) = logTally a+logTally b := by
  simp [logTally]

theorem logTally_chunk (files : List File) : logTally [.chunk files] = fileTally files := by
  simp [logTally,eventTally]

theorem logTally_notes (ns : List Note) : logTally (ns.map Event.note) = noteTally ns := by
  induction ns with
  | nil => rfl
  | cons n ns ih =>
    rw [← List.singleton_append,noteTally_append,← ih]
    simp [logTally,eventTally]

variable {ρ : Type} (opts : ScannerOptions ρ) (rootPath : Path) (rootDev : ℕ)

def openedDir (inherited : List ρ) (de : DirEntry ρ) : Option (OpenDir ρ) :=
  match scannerPathRelative rootPath de.path with
  | none => none
  | some rel => if !de.dir.opens then none else openDirectory inherited de rel

def contentsProduced : Forest ρ → OpenDir ρ → Bool
  | .nil, _ => false
  | .cons e _ rest, d => (visitEntry opts rootDev d e).produced || contentsProduced rest d

/-- What a directory contributes itself: its record, and its own entry when it
has no content. -/
def ownTally (d : OpenDir ρ) (lstatDir produced : Bool) : Tally :=
  noteTally (scannerRecordSyncedDir opts d.path d.rel)+
    fileTally (emptyDirFiles opts d lstatDir produced)

def buffered (d : OpenDir ρ) (e : Entry ρ) (contents : Forest ρ) : SortedEntry ρ :=
  ⟨e,contents,inspectIn opts d e⟩

def contentsTally : Forest ρ → OpenDir ρ → Tally
  | .nil, _ => 0
  | .cons e contents rest, d =>
    let v := visitEntry opts rootDev d e
    let child := childEntry d (buffered opts d e contents)
    visitTally v+
      (if v.subdir && withinDepth opts (d.depth+1) then
        match openedDir rootPath child.context child with
        | none => 0
        | some c => ownTally opts c child.dir.lstatDir (contentsProduced opts rootDev contents c)+
            contentsTally contents c
      else 0)+
      contentsTally rest d

def openTally (c : OpenDir ρ) (dir : SourceDir ρ) : Tally :=
  ownTally opts c dir.lstatDir (contentsProduced opts rootDev dir.contents c)+
    contentsTally opts rootPath rootDev dir.contents c

def dirTally (inherited : List ρ) (de : DirEntry ρ) : Tally :=
  match openedDir rootPath inherited de with
  | none => 0
  | some c => openTally opts rootPath rootDev c de.dir

def dirsTally (dirs : List (DirEntry ρ)) : Tally :=
  (dirs.map fun de => dirTally opts rootPath rootDev de.context de).sum

def entryTally (d : OpenDir ρ) (se : SortedEntry ρ) : Tally :=
  let v := visitInspected opts rootDev d se.entry.name se.inspection
  visitTally v+dirsTally opts rootPath rootDev (childEntries opts d se v)

def entriesTally (d : OpenDir ρ) (entries : List (SortedEntry ρ)) : Tally :=
  (entries.map (entryTally opts rootPath rootDev d)).sum

theorem contentsTally_cons (e : Entry ρ) (contents rest : Forest ρ) (d : OpenDir ρ) :
    contentsTally opts rootPath rootDev (.cons e contents rest) d =
      entryTally opts rootPath rootDev d (buffered opts d e contents)+
        contentsTally opts rootPath rootDev rest d := by
  rw [contentsTally]
  congr 1
  unfold entryTally childEntries dirsTally dirTally openTally
  congr 1
  have hv : visitInspected opts rootDev d (buffered opts d e contents).entry.name
      (buffered opts d e contents).inspection = visitEntry opts rootDev d e := rfl
  rw [hv]
  split_ifs
  · simp [childEntry,buffered]
  · rfl

section
variable (d : OpenDir ρ) (contents : Forest ρ)

theorem entriesTally_buffer :
    entriesTally opts rootPath rootDev d (bufferEntries opts d contents) =
      contentsTally opts rootPath rootDev contents d := by
  induction contents with
  | nil => rfl
  | cons e contents rest _ ih =>
    rw [contentsTally_cons,← ih]
    rfl

theorem entriesTally_sorted :
    entriesTally opts rootPath rootDev d (scannerBufferCurrentDirectory opts d contents) =
      contentsTally opts rootPath rootDev contents d := by
  rw [← entriesTally_buffer]
  exact ((List.perm_insertionSort sortedEntryLe _).map _).sum_eq

def sortedProduced (d : OpenDir ρ) (entries : List (SortedEntry ρ)) : Bool :=
  entries.any fun se => (visitInspected opts rootDev d se.entry.name se.inspection).produced

theorem sortedProduced_sorted :
    sortedProduced opts rootDev d (scannerBufferCurrentDirectory opts d contents) =
      contentsProduced opts rootDev contents d := by
  have hperm := List.perm_insertionSort sortedEntryLe (bufferEntries opts d contents)
  have hany : sortedProduced opts rootDev d (scannerBufferCurrentDirectory opts d contents) =
      sortedProduced opts rootDev d (bufferEntries opts d contents) := hperm.any_eq
  rw [hany]
  clear hperm hany
  induction contents with
  | nil => rfl
  | cons e contents rest _ ih =>
    rw [contentsProduced,← ih]
    rfl

end

section Conservation

def ValidFilters : Forest ρ → Prop
  | .nil => True
  | .cons e contents rest =>
    (∀ rel, e.filters rel ≠ .invalid) ∧ ValidFilters contents ∧ ValidFilters rest

structure Sound (de : DirEntry ρ) : Prop where
  rooted : ∃ rel, scannerPathRelative rootPath de.path = some rel ∧
    (de.dir.opens = true ∨ rel ≠ [] ∨ de.depth ≠ 0)
  filters : ∀ rel, de.dir.filters rel ≠ .invalid
  contents : ValidFilters de.dir.contents

def SoundEntry (se : SortedEntry ρ) : Prop :=
  (∀ rel, se.entry.filters rel ≠ .invalid) ∧ ValidFilters se.contents

structure SoundCurrent (cur : Current ρ) : Prop where
  rooted : ∃ rel, scannerPathRelative rootPath cur.dir.path = some rel
  remaining : ∀ se ∈ cur.remaining, SoundEntry se
  pending : ∀ de ∈ cur.pending, Sound rootPath de

def stackTally (inherited : Option (List ρ)) : List (DirEntry ρ) → Tally
  | [] => 0
  | de::dirs => dirTally opts rootPath rootDev (inherited.getD de.context) de+
      dirsTally opts rootPath rootDev dirs

def currentTally : Option (Current ρ) → Tally
  | none => 0
  | some cur => entriesTally opts rootPath rootDev cur.dir cur.remaining+
      dirsTally opts rootPath rootDev cur.pending+
      fileTally (emptyDirFiles opts cur.dir cur.lstatDir
        (cur.produced || sortedProduced opts rootDev cur.dir cur.remaining))

variable (seed : Seed ρ)

/-- What the scan has handed out, holds in its chunk and has left to do. -/
def total (s : ScanState ρ) : Tally :=
  logTally s.log+fileTally s.chunk+currentTally opts seed.rootPath seed.rootDev s.current+
    stackTally opts seed.rootPath seed.rootDev
      (if s.atSeedDir then some seed.seedNode else none) s.directories

structure SoundState (s : ScanState ρ) : Prop where
  failed : s.failed = false
  directories : ∀ de ∈ s.directories, Sound seed.rootPath de
  current : ∀ cur, s.current = some cur → SoundCurrent seed.rootPath cur ∧ s.atSeedDir = false

theorem stackTally_none (dirs : List (DirEntry ρ)) :
    stackTally opts rootPath rootDev none dirs = dirsTally opts rootPath rootDev dirs := by
  cases dirs <;> simp [stackTally,dirsTally]

theorem dirsTally_append (a b : List (DirEntry ρ)) :
    dirsTally opts rootPath rootDev (a++b) =
      dirsTally opts rootPath rootDev a+dirsTally opts rootPath rootDev b := by
  simp [dirsTally]

/-- Opening the next directory of a sound stack: it opens one and skips only
directories that hold nothing, or the stack held nothing. -/
theorem openNextDirectory_sound (atSeedDir : Bool) (dirs : List (DirEntry ρ))
    (hsound : ∀ de ∈ dirs, Sound seed.rootPath de) :
    (openNextDirectory seed atSeedDir dirs = .exhausted ∧
      stackTally opts seed.rootPath seed.rootDev
        (if atSeedDir then some seed.seedNode else none) dirs = 0) ∨
    ∃ d de rest, openNextDirectory seed atSeedDir dirs = .opened d de rest ∧
      (∀ de ∈ rest, Sound seed.rootPath de) ∧ Sound seed.rootPath de ∧ d.path = de.path ∧
      stackTally opts seed.rootPath seed.rootDev
        (if atSeedDir then some seed.seedNode else none) dirs =
          openTally opts seed.rootPath seed.rootDev d de.dir+
            dirsTally opts seed.rootPath seed.rootDev rest := by
  induction dirs generalizing atSeedDir with
  | nil => exact .inl ⟨rfl,rfl⟩
  | cons de dirs ih =>
    have hde := hsound de List.mem_cons_self
    have hdirs := fun x hx => hsound x (List.mem_cons_of_mem de hx)
    obtain ⟨rel,hrel,hroot⟩ := hde.rooted
    cases hopens : de.dir.opens with
    | false =>
      have hskip : openNextDirectory seed atSeedDir (de::dirs) = openNextDirectory seed false dirs := by
        rw [openNextDirectory,hrel]
        simp only [hopens,Bool.not_false,if_true]
        rw [if_neg]
        rintro ⟨h1,h2⟩
        simp [hopens,h1,h2] at hroot
      have htally : stackTally opts seed.rootPath seed.rootDev
          (if atSeedDir then some seed.seedNode else none) (de::dirs) =
          stackTally opts seed.rootPath seed.rootDev none dirs := by
        rw [stackTally,stackTally_none,dirTally,openedDir,hrel]
        simp [hopens]
      rw [hskip,htally]
      exact ih false hdirs
    | true =>
      right
      have hopen : ∀ inherited, ∃ d, openDirectory inherited de rel = some d ∧ d.path = de.path := by
        intro inherited
        unfold openDirectory
        cases hf : de.dir.filters rel with
        | invalid => exact absurd hf (hde.filters rel)
        | inherit | rules own => exact ⟨_,rfl,rfl⟩
      obtain ⟨d,hd,hpath⟩ := hopen (if atSeedDir then seed.seedNode else de.context)
      refine ⟨d,de,dirs,?_,hdirs,hde,hpath,?_⟩
      · rw [openNextDirectory,hrel]
        simp [hopens,hd]
      · have hinherited : (if atSeedDir then some seed.seedNode else none).getD de.context =
            if atSeedDir then seed.seedNode else de.context := by
          cases atSeedDir <;> rfl
        rw [stackTally,hinherited,dirTally,openedDir,hrel]
        simp [hopens,hd]

theorem entriesTally_cons (d : OpenDir ρ) (se : SortedEntry ρ) (entries : List (SortedEntry ρ)) :
    entriesTally opts rootPath rootDev d (se::entries) =
      entryTally opts rootPath rootDev d se+entriesTally opts rootPath rootDev d entries := rfl

theorem soundEntry_buffer (d : OpenDir ρ) {contents : Forest ρ} (h : ValidFilters contents) :
    ∀ se ∈ scannerBufferCurrentDirectory opts d contents, SoundEntry se := by
  intro se hse
  rw [scannerBufferCurrentDirectory,(List.perm_insertionSort _ _).mem_iff] at hse
  induction contents with
  | nil => cases hse
  | cons e contents rest _ ih =>
    obtain ⟨he,hcontents,hrest⟩ := h
    rcases List.mem_cons.mp hse with rfl | hse
    · exact ⟨he,hcontents⟩
    · exact ih hrest hse

theorem sound_childEntries (hroot : rootPath ≠ []) {d : OpenDir ρ} {se : SortedEntry ρ} {v : Visit}
    (hd : ∃ rel, scannerPathRelative rootPath d.path = some rel) (hse : SoundEntry se) :
    ∀ de ∈ childEntries opts d se v, Sound rootPath de := by
  intro de hde
  unfold childEntries at hde
  split at hde
  · cases List.mem_singleton.mp hde
    obtain ⟨rel,hrel⟩ := pathCat_rooted hroot hd
    exact ⟨⟨rel,hrel,.inr (.inr (Nat.succ_ne_zero _))⟩,hse.1,hse.2⟩
  · cases hde

/-- The entry turn: what the entry leads to moves from the directory to the
chunk, the log and the directories to come. -/
theorem currentTally_visit (cur : Current ρ) (se : SortedEntry ρ) (remaining : List (SortedEntry ρ))
    (hrem : cur.remaining = se::remaining) :
    currentTally opts rootPath rootDev (some cur) =
      visitTally (visitInspected opts rootDev cur.dir se.entry.name se.inspection)+
      currentTally opts rootPath rootDev (some { cur with
        remaining := remaining
        pending := cur.pending++childEntries opts cur.dir se
          (visitInspected opts rootDev cur.dir se.entry.name se.inspection)
        produced := cur.produced ||
          (visitInspected opts rootDev cur.dir se.entry.name se.inspection).produced }) := by
  have hproduced : sortedProduced opts rootDev cur.dir (se::remaining) =
      ((visitInspected opts rootDev cur.dir se.entry.name se.inspection).produced ||
        sortedProduced opts rootDev cur.dir remaining) := rfl
  simp only [currentTally,hrem,entriesTally_cons,entryTally,dirsTally_append,hproduced,
    Bool.or_assoc]
  abel

theorem scannerStep_total (hroot : seed.rootPath ≠ []) {s s' : ScanState ρ}
    (hsound : SoundState seed s) (hstep : scannerStep opts seed s = some s') :
    SoundState seed s' ∧ total opts seed s' = total opts seed s := by
  obtain ⟨hfailed,hdirs,hcurrent⟩ := hsound
  unfold scannerStep at hstep
  cases hcur : s.current with
  | none =>
    rw [hcur] at hstep
    rcases openNextDirectory_sound opts seed s.atSeedDir s.directories hdirs with
      ⟨hopen,hzero⟩ | ⟨d,de,rest,hopen,hrest,hde,hpath,htally⟩
    · rw [hopen] at hstep
      simp only [endCall] at hstep
      split_ifs at hstep with hchunk
      cases hstep
      refine ⟨⟨hfailed,by simp,by simp⟩,?_⟩
      simp only [total,hzero,hcur,logTally_append,logTally_chunk]
      simp [stackTally,fileTally_nil,currentTally]
    · rw [hopen] at hstep
      cases hstep
      refine ⟨⟨hfailed,hrest,?_⟩,?_⟩
      · rintro cur ⟨⟩
        obtain ⟨rel,hrel,-⟩ := hde.rooted
        rw [← hpath] at hrel
        exact ⟨⟨⟨rel,hrel⟩,soundEntry_buffer opts d hde.contents,by simp⟩,rfl⟩
      · simp only [total,htally,hcur,logTally_append,logTally_notes,currentTally,
          entriesTally_sorted,sortedProduced_sorted,Bool.false_or,openTally,ownTally,
          Bool.false_eq_true,if_false,stackTally_none]
        simp only [dirsTally,List.map_nil,List.sum_nil]
        abel
  | some cur =>
    rw [hcur] at hstep
    obtain ⟨hsc,hseed⟩ := hcurrent cur hcur
    cases hrem : cur.remaining with
    | nil =>
      simp only [hrem,hfailed,Bool.false_eq_true,if_false,Option.some.injEq] at hstep
      subst hstep
      refine ⟨⟨rfl,?_,by simp⟩,?_⟩
      · intro de hde
        rcases List.mem_append.mp hde with h | h
        · exact hsc.pending de h
        · exact hdirs de h
      · have hno : sortedProduced opts seed.rootDev cur.dir [] = false := rfl
        simp only [total,hseed,hcur,currentTally,hrem,hno,Bool.or_false,Bool.false_eq_true,
          if_false,stackTally_none,dirsTally_append,fileTally_append]
        abel
    | cons se remaining =>
      have hvisit := currentTally_visit opts seed.rootPath seed.rootDev cur se remaining hrem
      have hsound : SoundCurrent seed.rootPath { cur with
          remaining := remaining
          pending := cur.pending++childEntries opts cur.dir se
            (visitInspected opts seed.rootDev cur.dir se.entry.name se.inspection)
          produced := cur.produced ||
            (visitInspected opts seed.rootDev cur.dir se.entry.name se.inspection).produced } := by
        have hall := hsc.remaining
        rw [hrem] at hall
        refine ⟨hsc.rooted,fun x hx => hall x (List.mem_cons_of_mem _ hx),?_⟩
        intro de hde
        rcases List.mem_append.mp hde with h | h
        · exact hsc.pending de h
        · exact sound_childEntries opts seed.rootPath hroot hsc.rooted
            (hall se List.mem_cons_self) de h
      simp only [hrem] at hstep
      split_ifs at hstep
      · cases hstep
        refine ⟨⟨hfailed,hdirs,?_⟩,?_⟩
        · rintro _ ⟨⟩
          exact ⟨hsound,hseed⟩
        · simp only [total,hcur,hvisit,visitTally,logTally_append,logTally_notes,logTally_chunk,
            fileTally_append,fileTally_nil]
          abel
      · cases hstep
        refine ⟨⟨hfailed,hdirs,?_⟩,?_⟩
        · rintro _ ⟨⟩
          exact ⟨hsound,hseed⟩
        · simp only [total,hcur,hvisit,visitTally,logTally_append,logTally_notes,
            fileTally_append]
          abel

theorem stopped_total {s : ScanState ρ} (hsound : SoundState seed s)
    (hstop : scannerStep opts seed s = none) : total opts seed s = logTally s.log := by
  obtain ⟨hfailed,hdirs,-⟩ := hsound
  unfold scannerStep at hstop
  cases hcur : s.current with
  | none =>
    rw [hcur] at hstop
    rcases openNextDirectory_sound opts seed s.atSeedDir s.directories hdirs with
      ⟨hopen,hzero⟩ | ⟨d,de,rest,hopen,-⟩
    · rw [hopen] at hstop
      simp only [endCall] at hstop
      split_ifs at hstop with hchunk
      simp [total,hzero,hcur,hchunk,fileTally_nil,currentTally]
    · rw [hopen] at hstop
      cases hstop
  | some cur =>
    rw [hcur] at hstop
    cases hrem : cur.remaining with
    | nil => simp [hrem,hfailed] at hstop
    | cons se remaining =>
      simp only [hrem] at hstop
      split_ifs at hstop

/-- A sound scanner hands out what the recursion over the tree collects. -/
theorem drain_tally (hroot : seed.rootPath ≠ []) {de : DirEntry ρ} (hde : Sound seed.rootPath de) :
    (drain opts seed de).failed = false ∧ logTally (drain opts seed de).log =
      dirTally opts seed.rootPath seed.rootDev seed.seedNode de := by
  have hinv := Machine.run_invariant (scannerStep opts seed)
    (fun s => SoundState seed s ∧ total opts seed s = total opts seed (startState de))
    (fun s s' hs hstep => by
      obtain ⟨h1,h2⟩ := scannerStep_total opts seed hroot hs.1 hstep
      exact ⟨h1,h2.trans hs.2⟩)
    (cost (startState de)) (startState de)
    ⟨⟨rfl,by simpa [startState] using hde,by simp [startState]⟩,rfl⟩
  obtain ⟨hsound,htotal⟩ := hinv
  refine ⟨hsound.failed,?_⟩
  have hstop := stopped_total opts seed hsound (drain_stops opts seed)
  rw [drain,← hstop,htotal]
  simp [total,startState,logTally,fileTally_nil,currentTally,stackTally,dirsTally]

end Conservation

end FastSync.ScanWalk
