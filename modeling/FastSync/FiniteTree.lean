import Mathlib.Data.List.Nodup
import Mathlib.Data.List.Basic
import Mathlib.Data.List.Induction

/-!
# Finite directory trees that only lose entries

A tree is given by the listing of each directory, with a height that drops on
the way to a subdirectory. Positions are name lists from the root. The state
of a shrinking tree is the list of positions that are gone; a directory is
listed without them, and it can be removed once it lists nothing.
-/

set_option autoImplicit false

namespace FastSync.FiniteTree

structure Entry (ν : Type) where
  name : ν
  isDir : Bool
deriving DecidableEq, Repr

structure DirTree (ν : Type) where
  entries : List ν → List (Entry ν)
  height : List ν → ℕ
  names_nodup : ∀ d, ((entries d).map Entry.name).Nodup
  height_lt : ∀ d, ∀ e ∈ entries d, e.isDir = true → height (d++[e.name]) < height d

inductive Errno where
  | enoent
  | enotempty
deriving DecidableEq, Repr

variable {b : Bool}

section Positions
variable {ν : Type} (t : DirTree ν)

inductive IsDir : List ν → Prop where
  | root : IsDir []
  | child (d : List ν) (e : Entry ν) : IsDir d → e ∈ t.entries d → e.isDir = true →
      IsDir (d++[e.name])

def Listed (p : List ν) : Prop := ∃ d e, IsDir t d ∧ e ∈ t.entries d ∧ p = d++[e.name]

def EntryAt (p : List ν) (isDir : Bool) : Prop :=
  ∃ d e, IsDir t d ∧ e ∈ t.entries d ∧ p = d++[e.name] ∧ isDir = e.isDir

def Below (d p : List ν) : Prop := ∃ n q, p = d++n::q

theorem below_self (d : List ν) (n : ν) : Below d (d++[n]) := ⟨n,[],rfl⟩

theorem below_child {d p : List ν} {n : ν} (h : Below (d++[n]) p) : Below d p := by
  obtain ⟨m,q,rfl⟩ := h
  exact ⟨n,m::q,by simp⟩

theorem below_concat (d p : List ν) (n : ν) : Below d (p++[n]) ↔ Below d p ∨ d = p := by
  constructor
  · rintro ⟨m,q,h⟩
    rcases List.eq_nil_or_concat' q with rfl | ⟨q',k,rfl⟩
    · exact .inr (List.append_inj' h rfl).1.symm
    · rw [← List.cons_append, ← List.append_assoc] at h
      exact .inl ⟨m,q',(List.append_inj' h rfl).1⟩
  · rintro (h | rfl)
    · obtain ⟨m,q,rfl⟩ := h
      exact ⟨m,q++[n],by simp⟩
    · exact below_self d n

theorem below_nil {q : List ν} : ¬Below q [] := by
  rintro ⟨n,s,h⟩
  simp at h

theorem below_irrefl {d : List ν} : ¬Below d d := by
  rintro ⟨n,q,h⟩
  have := congrArg List.length h
  simp at this

theorem below_sibling {d p : List ν} {m n : ν} (hm : Below (d++[m]) p)
    (hn : Below (d++[n]) p ∨ p = d++[n]) : m = n := by
  obtain ⟨a,q,rfl⟩ := hm
  rcases hn with ⟨b,r,h⟩ | h
  · have hc : m = n ∧ a = b ∧ q = r := by simpa using h
    exact hc.1
  · simp only [List.append_assoc, List.append_cancel_left_eq] at h
    exact (List.cons.inj h).1

theorem below_comparable {a b p : List ν} (ha : Below a p) (hb : Below b p) :
    a = b ∨ Below a b ∨ Below b a := by
  obtain ⟨m,s,rfl⟩ := ha
  obtain ⟨n,r,h⟩ := hb
  rcases List.append_eq_append_iff.mp h with ⟨l,rfl,-⟩ | ⟨l,rfl,-⟩
  · cases l with
    | nil => exact .inl (by simp)
    | cons k l => exact .inr (.inl ⟨k,l,rfl⟩)
  · cases l with
    | nil => exact .inl (by simp)
    | cons k l => exact .inr (.inr ⟨k,l,rfl⟩)

variable {t}

theorem entry_eq_of_name {d : List ν} {a b : Entry ν} (ha : a ∈ t.entries d)
    (hb : b ∈ t.entries d) (h : a.name = b.name) : a = b :=
  List.inj_on_of_nodup_map (t.names_nodup d) ha hb h

theorem isDir_iff {p : List ν} : IsDir t p ↔ p = [] ∨ EntryAt t p true := by
  constructor
  · rintro (_ | ⟨d,e,hd,he,hdir⟩)
    · exact .inl rfl
    · exact .inr ⟨d,e,hd,he,rfl,hdir.symm⟩
  · rintro (rfl | ⟨d,e,hd,he,rfl,hdir⟩)
    · exact .root
    · exact .child d e hd he hdir.symm

theorem isDir_entry {p : List ν} (h : IsDir t p) (hp : p ≠ []) : EntryAt t p true :=
  (isDir_iff.mp h).resolve_left hp

theorem entryAt_ne_nil {p : List ν} (h : EntryAt t p b) : p ≠ [] := by
  obtain ⟨d,e,-,-,rfl,-⟩ := h
  simp

theorem entryAt_child {d : List ν} {e : Entry ν} (hd : IsDir t d) (he : e ∈ t.entries d) :
    EntryAt t (d++[e.name]) e.isDir := ⟨d,e,hd,he,rfl,rfl⟩

theorem entryAt_parent {d : List ν} {n : ν} (h : EntryAt t (d++[n]) b) : IsDir t d := by
  obtain ⟨d',e,hd,he,hp,-⟩ := h
  rw [(List.append_inj' hp rfl).1]
  exact hd

theorem entryAt_kind {p : List ν} {b' : Bool} (h : EntryAt t p b) (h' : EntryAt t p b') :
    b = b' := by
  obtain ⟨d,e,-,he,rfl,rfl⟩ := h
  obtain ⟨d',e',-,he',hp,rfl⟩ := h'
  obtain ⟨rfl,hn⟩ := List.append_inj' hp rfl
  rw [entry_eq_of_name he he' (List.cons.inj hn).1]

theorem entryAt_above {p q : List ν} (h : EntryAt t p b) (hq : Below q p) : IsDir t q := by
  obtain ⟨n,s,rfl⟩ := hq
  induction s using List.reverseRecOn generalizing b with
  | nil => exact entryAt_parent h
  | append_singleton s m ih =>
    rw [← List.cons_append, ← List.append_assoc] at h
    exact ih (isDir_entry (entryAt_parent h) (by simp))

theorem entryAt_mem {d : List ν} {n : ν} (h : EntryAt t (d++[n]) b) :
    ∃ e ∈ t.entries d, e.name = n ∧ e.isDir = b := by
  obtain ⟨d',e,-,he,hp,rfl⟩ := h
  obtain ⟨rfl,hn⟩ := List.append_inj' hp rfl
  exact ⟨e,he,(List.cons.inj hn).1.symm,rfl⟩

theorem entry_name {d s : List ν} {n : ν} {e : Entry ν} {P Q : Prop}
    (h : d++n::s = d++[e.name] ∧ P ∨ Below (d++[e.name]) (d++n::s) ∧ Q) : e.name = n := by
  rcases h with ⟨h,-⟩ | ⟨⟨m,r,h⟩,-⟩ <;> simp at h <;> exact h.1.symm

theorem below_entry {q p : List ν} (h : EntryAt t p b) (hq : Below q p) :
    ∃ e ∈ t.entries q, (p = q++[e.name] ∧ e.isDir = b) ∨
      (Below (q++[e.name]) p ∧ e.isDir = true) := by
  obtain ⟨n,s,rfl⟩ := hq
  cases s with
  | nil =>
    obtain ⟨e,he,rfl,hk⟩ := entryAt_mem h
    exact ⟨e,he,.inl ⟨rfl,hk⟩⟩
  | cons m s =>
    have hb : Below (q++[n]) (q++n::m::s) := ⟨m,s,by simp⟩
    have hd := entryAt_above h hb
    obtain ⟨e,he,rfl,hk⟩ := entryAt_mem (isDir_entry hd (by simp))
    exact ⟨e,he,.inr ⟨hb,hk⟩⟩

end Positions

section Subtrees
variable {ν : Type} (t : DirTree ν)

def subtree (p : List ν) : DirTree ν where
  entries d := t.entries (p++d)
  height d := t.height (p++d)
  names_nodup d := t.names_nodup (p++d)
  height_lt d e he hdir := by
    have h := t.height_lt (p++d) e he hdir
    rwa [List.append_assoc] at h

/-- Everything strictly below a directory, content before container. -/
def content : ℕ → List ν → List (List ν)
  | 0, _ => []
  | fuel+1, d => (t.entries d).flatMap fun e =>
      (if e.isDir then content fuel (d++[e.name]) else [])++[d++[e.name]]

end Subtrees

section Kinds
variable {ν : Type} [DecidableEq ν] (t : DirTree ν)

def isDirAt (p : List ν) : Bool :=
  match p.getLast? with
  | none => true
  | some n => (t.entries p.dropLast).any fun e => decide (e.name = n) && e.isDir

theorem isDirAt_entry {d : List ν} {e : Entry ν} (he : e ∈ t.entries d) :
    isDirAt t (d++[e.name]) = e.isDir := by
  simp only [isDirAt, List.getLast?_concat, List.dropLast_concat]
  rw [Bool.eq_iff_iff, List.any_eq_true]
  constructor
  · rintro ⟨c,hc,hm⟩
    rw [Bool.and_eq_true, decide_eq_true_eq] at hm
    rw [← entry_eq_of_name hc he hm.1]
    exact hm.2
  · intro hdir
    exact ⟨e,he,by simp [hdir]⟩

end Kinds

section Shrinking
variable {ν : Type} [DecidableEq ν] (t : DirTree ν)

def readdir (gone : List (List ν)) (d : List ν) : List (Entry ν) :=
  (t.entries d).filter fun e => decide (d++[e.name] ∉ gone)

def unlink (gone : List (List ν)) (p : List ν) : Except Errno (List (List ν)) :=
  if p ∈ gone then .error .enoent else .ok (gone++[p])

def rmdir (gone : List (List ν)) (p : List ν) : Except Errno (List (List ν)) :=
  if p ∈ gone then .error .enoent
  else if readdir t gone p = [] then .ok (gone++[p])
  else .error .enotempty

/-- The kind of the entry a relative walk from `d` reaches, when there is one. -/
def stat (gone : List (List ν)) : List ν → List ν → Option Bool
  | _, [] => some true
  | d, n::ns =>
    match (readdir t gone d).find? fun e => decide (e.name = n) with
    | none => none
    | some e => if e.isDir then stat gone (d++[n]) ns else if ns = [] then some false else none

def prune (gone : List (List ν)) : DirTree ν where
  entries := readdir t gone
  height := t.height
  names_nodup d := (t.names_nodup d).sublist (List.filter_sublist.map _)
  height_lt d e he hdir := t.height_lt d e (List.mem_of_mem_filter he) hdir

def Untouched (gone : List (List ν)) (d : List ν) : Prop := ∀ p ∈ gone, ¬Below d p

theorem readdir_untouched {gone : List (List ν)} {d : List ν} (h : Untouched gone d) :
    readdir t gone d = t.entries d := by
  rw [readdir, List.filter_eq_self]
  intro e _
  exact decide_eq_true fun hp => h _ hp (below_self d e.name)

section
variable {gone : List (List ν)} {p : List ν}

theorem unlink_ok (h : p ∉ gone) : unlink gone p = .ok (gone++[p]) := if_neg h

section
variable {gone gone' : List (List ν)} {p : List ν}

theorem unlink_eq_ok (h : unlink gone p = .ok gone') : p ∉ gone ∧ gone' = gone++[p] := by
  unfold unlink at h
  split_ifs at h with hp
  cases h
  exact ⟨hp,rfl⟩

theorem rmdir_eq_ok (h : rmdir t gone p = .ok gone') : p ∉ gone ∧ gone' = gone++[p] := by
  unfold rmdir at h
  split_ifs at h with hp hr
  cases h
  exact ⟨hp,rfl⟩

end

theorem readdir_eq_nil : readdir t gone p = [] ↔ ∀ e ∈ t.entries p, p++[e.name] ∈ gone := by
  rw [readdir, List.filter_eq_nil_iff]
  simp

theorem rmdir_ok (h : p ∉ gone) (hall : ∀ e ∈ t.entries p, p++[e.name] ∈ gone) :
    rmdir t gone p = .ok (gone++[p]) := by
  rw [rmdir, if_neg h, if_pos ((readdir_eq_nil t).mpr hall)]

end

theorem prune_nil : prune t [] = t := by
  have h : readdir t [] = t.entries := by
    funext d
    exact readdir_untouched t (fun p hp => absurd hp List.not_mem_nil)
  cases t
  simp only [prune, DirTree.mk.injEq, and_true]
  exact h

section
variable {gone : List (List ν)}

theorem find_readdir {d : List ν} {e : Entry ν} (he : e ∈ readdir t gone d) :
    (readdir t gone d).find? (fun c => decide (c.name = e.name)) = some e := by
  have hsome : ((readdir t gone d).find? fun c => decide (c.name = e.name)).isSome := by
    rw [List.find?_isSome]
    exact ⟨e,he,decide_eq_true rfl⟩
  obtain ⟨c,hc⟩ := Option.isSome_iff_exists.mp hsome
  have hname := List.find?_some hc
  rw [hc, @entry_eq_of_name _ (prune t gone) _ _ _ (List.mem_of_find?_eq_some hc) he
    (of_decide_eq_true hname)]

section
variable {d : List ν} {e : Entry ν} (he : e ∈ t.entries d) (hp : d++[e.name] ∉ gone)
include he hp

theorem mem_readdir : e ∈ readdir t gone d :=
  List.mem_filter.mpr ⟨he,decide_eq_true hp⟩

theorem stat_child : stat t gone d [e.name] = some e.isDir := by
  rw [stat, find_readdir t (mem_readdir t he hp)]
  cases hdir : e.isDir <;> simp [stat, hdir]

end

theorem stat_single {d : List ν} {n : ν} (h : stat t gone d [n] = some b) :
    ∃ e ∈ t.entries d, e.name = n ∧ e.isDir = b ∧ d++[n] ∉ gone := by
  rw [stat] at h
  split at h
  · cases h
  · rename_i e hfind
    have hfound := List.find?_some hfind
    have hname : e.name = n := of_decide_eq_true hfound
    have hmem := List.mem_filter.mp (List.mem_of_find?_eq_some hfind)
    have hkind : e.isDir = b := by
      cases hdir : e.isDir with
      | true => simpa [hdir, stat] using h
      | false => simpa [hdir] using h
    exact ⟨e,hmem.1,hname,hkind,hname ▸ of_decide_eq_true hmem.2⟩

theorem stat_isDir (d ns : List ν) (h : IsDir t (d++ns))
    (hp : ∀ q, Below d q → q = d++ns ∨ Below q (d++ns) → q ∉ gone) :
    stat t gone d ns = some true := by
  induction ns generalizing d with
  | nil => rfl
  | cons n ns ih =>
    have hd1 : IsDir t (d++[n]) := by
      by_cases hns : ns = []
      · rw [hns] at h
        exact h
      · obtain ⟨m,ms,rfl⟩ := List.exists_cons_of_ne_nil hns
        have he : EntryAt t (d++n::m::ms) true := isDir_entry h (by simp)
        exact entryAt_above he ⟨m,ms,by simp⟩
    obtain ⟨d',e,-,he,hde,hdir⟩ := isDir_entry hd1 (by simp)
    obtain ⟨rfl,hn⟩ := List.append_inj' hde rfl
    rw [(List.cons.inj hn).1] at h hp ⊢
    have hout : d++[e.name] ∉ gone := by
      refine hp _ (below_self d e.name) ?_
      cases ns with
      | nil => exact .inl rfl
      | cons m ms => exact .inr ⟨m,ms,by simp⟩
    rw [stat, find_readdir t (mem_readdir t he hout)]
    simp only [← hdir, if_true]
    exact ih (d++[e.name]) (by simpa using h)
      fun q hq hqp => hp q (below_child hq) (by simpa using hqp)

theorem isDir_of_stat (d ns : List ν) (hd : IsDir t d) (h : stat t gone d ns = some true) :
    IsDir t (d++ns) := by
  induction ns generalizing d with
  | nil => simpa using hd
  | cons n ns ih =>
    rw [stat] at h
    split at h
    · cases h
    · rename_i e hf
      have hname := List.find?_some hf
      have he := List.mem_of_mem_filter (List.mem_of_find?_eq_some hf)
      split_ifs at h with hdir
      · have := ih (d++[n]) (by rw [← of_decide_eq_true hname]; exact .child d e hd he hdir) h
        simpa using this
      · cases h

end

end Shrinking

end FastSync.FiniteTree
