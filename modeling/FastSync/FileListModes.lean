import FastSync.FileListRebuild
import FastSync.FileListQueries

/-!
# Reading a list by lines and by NULs

A record of either mode holds one entry and its delimiter. Both modes reject the
same entries and store the same canonical form, but a blank line is skipped
while an empty record between NULs is stored as the root marker.
-/

set_option autoImplicit false

namespace FastSync.FileListModes
open CheckedMemory (sizeMax)
open DeletePaths (Bytes slash dot components)
open FileList FileListRebuild

def delimiter (nullSeparated : Bool) : UInt8 := if nullSeparated then 0 else newline

/-- The stream of the entries, each closed by the delimiter of the mode. -/
def encode (nullSeparated : Bool) (entries : List Bytes) : Bytes :=
  entries.flatMap fun e => e++[delimiter nullSeparated]

def Clean (e : Bytes) : Prop :=
  0 ∉ e ∧ newline ∉ e ∧ carriageReturn ∉ e ∧ e.length < utilsMaxLineLen

def Rejected (e : Bytes) : Prop := e.head? = some slash ∨ [dot,dot] ∈ components e

def considered (nullSeparated : Bool) (entries : List Bytes) : List Bytes :=
  if nullSeparated then entries else entries.filter fun e => decide (e ≠ [])

def itemLimit : ℕ := 2^30

section Add

/-- What doubling from sixteen gives. -/
structure Grown (list : StringList) : Prop where
  capacity : list.capacity = 0 ∨ ∃ k ≤ 26, list.capacity = 16*2^k
  fits : list.items.length ≤ list.capacity

theorem grown_empty : Grown ⟨[],0⟩ := ⟨.inl rfl,Nat.le_refl 0⟩

theorem doubled {k : ℕ} (hk : k ≤ 26) (h : ¬16*2^k > intMax/2) : k+1 ≤ 26 := by
  by_contra hlast
  have hk : k = 26 := by omega
  subst hk
  exact h (by decide)

variable {list : StringList}

theorem add_room (hgrown : Grown list) (text : Bytes) (h : list.items.length < itemLimit) :
    ∃ list', stringListAdd list text = some list' ∧ Grown list' ∧
      list'.items = list.items++[text] := by
  obtain ⟨hcap,hfits⟩ := hgrown
  unfold stringListAdd
  by_cases hfull : list.items.length = list.capacity
  · have hroom : ¬list.capacity > intMax/2 := by
      have : itemLimit = intMax/2+1 := rfl
      omega
    rw [if_pos hfull,if_neg hroom]
    refine ⟨_,rfl,⟨?_,?_⟩,rfl⟩
    · rcases hcap with hzero | ⟨k,hk,hcap⟩
      · rw [hzero]
        exact .inr ⟨0,by omega,rfl⟩
      · have hpos : list.capacity > 0 := by
          rw [hcap]
          exact Nat.mul_pos (by omega) (Nat.two_pow_pos k)
        rw [hcap] at hroom
        refine .inr ⟨k+1,doubled hk hroom,?_⟩
        simp only [if_pos hpos]
        omega
    · simp only [List.length_append,List.length_singleton]
      split_ifs <;> omega
  · rw [if_neg hfull]
    refine ⟨_,rfl,⟨hcap,?_⟩,rfl⟩
    simp only [List.length_append,List.length_singleton]
    omega

theorem add_full (hgrown : Grown list) (text : Bytes)
    (h : itemLimit ≤ list.items.length) : stringListAdd list text = none := by
  obtain ⟨hcap,hfits⟩ := hgrown
  have hlimit : itemLimit = intMax/2+1 := rfl
  have htop : list.capacity ≤ itemLimit := by
    rcases hcap with hzero | ⟨k,hk,hcap⟩
    · omega
    · have : 2^k ≤ 2^26 := Nat.pow_le_pow_right (by omega) hk
      have : itemLimit = 16*2^26 := rfl
      omega
  rw [stringListAdd,if_pos (by omega),if_pos (by omega)]

theorem grown_limit (hgrown : Grown list) : list.items.length ≤ itemLimit := by
  obtain ⟨hcap,hfits⟩ := hgrown
  rcases hcap with hzero | ⟨k,hk,hcap⟩
  · omega
  · have : 2^k ≤ 2^26 := Nat.pow_le_pow_right (by omega) hk
    have : itemLimit = 16*2^26 := rfl
    omega

end Add

section Entry
variable {e : Bytes}

theorem rejected_nonempty (h : Rejected e) : e ≠ [] := by
  rintro rfl
  rcases h with h | h
  · cases h
  · simp [components] at h

theorem strip_newline (h : Clean e) : stripLineEndings (e++[newline]) = e := by
  rw [stripLineEndings,List.rdropWhile_concat_pos _ _ _ (by decide),
    List.rdropWhile_eq_self_iff]
  intro hne hlast
  have hmem := List.getLast_mem hne
  rcases of_decide_eq_true hlast with hnl | hcr
  · exact h.2.1 (hnl ▸ hmem)
  · exact h.2.2.1 (hcr ▸ hmem)

theorem cString_canon (h0 : 0 ∉ e) (z : Bytes) : cString (canon e++0::z) = canon e := by
  have hall : ∀ b ∈ canon e, decide (b ≠ 0) = true := by
    intro b hb
    exact decide_eq_true fun h => canon_clean h0 (h ▸ hb)
  rw [cString,List.takeWhile_append_of_pos hall]
  simp

/-- What becomes of the entry `e`: it is refused or added in canonical form. -/
structure Stores (e : Bytes) (out : StringList) (result : Except EntryError StringList) : Prop where
  rejected : Rejected e → ∃ error, result = .error error
  stored : ¬Rejected e → ∀ out', stringListAdd out (canon e) = some out' → result = .ok out'
  full : stringListAdd out (canon e) = none → ∃ error, result = .error error

theorem normalize_record {raw record z : Bytes} {strip : Bool}
    (hraw : (if strip then stripLineEndings record else record) = raw) (hne : raw ≠ [])
    (hhead : raw.head? = some slash ↔ e.head? = some slash)
    (hscan : raw.take (if strip then raw.length else raw.length-1) = e)
    (hbuf : raw++[0] = e++0::z) (h0 : 0 ∉ e) {out : StringList} :
    Stores e out (normalizeEntry record strip out) := by
  have hlen : e.length < raw.length+1 := by
    have := congrArg List.length hbuf
    simp only [List.length_append,List.length_cons,List.length_nil] at this
    omega
  unfold normalizeEntry
  simp only [hraw,if_neg hne,hhead,hscan,if_neg h0,hbuf]
  by_cases hslash : e.head? = some slash
  · simp only [if_pos hslash]
    refine ⟨fun _ => ⟨_,rfl⟩,fun h => absurd (.inl hslash) h,fun _ => ⟨_,rfl⟩⟩
  · simp only [if_neg hslash]
    have hloop := rebuild_joined [] [] e z (by simp) h0 hlen
    simp only [List.nil_append,List.length_nil,Nat.add_zero] at hloop
    rcases hloop with ⟨hdots,d,hd⟩ | ⟨hdots,z',hd⟩
    · simp only [hd]
      refine ⟨fun _ => ⟨_,rfl⟩,fun h => absurd (.inr hdots) h,fun _ => ⟨_,rfl⟩⟩
    · have htext : (if (canon e).length = 0 then [] else cString (canon e++0::z')) = canon e := by
        rw [cString_canon h0]
        by_cases hempty : canon e = []
        · simp [hempty]
        · rw [if_neg (mt List.length_eq_zero_iff.mp hempty)]
      simp only [hd]
      rw [← canon,htext]
      refine ⟨fun h => absurd h (not_or.mpr ⟨hslash,hdots⟩),fun _ out' hadd => ?_,fun hadd => ?_⟩
      · simp [hadd]
      · simp only [hadd]
        exact ⟨_,rfl⟩

theorem normalize_line (h : Clean e) (hne : e ≠ []) {out : StringList} :
    Stores e out (normalizeEntry (e++[newline]) true out) := by
  have hraw : (if true then stripLineEndings (e++[newline]) else e++[newline]) = e :=
    strip_newline h
  exact normalize_record hraw hne Iff.rfl List.take_length rfl h.1

theorem normalize_nul (h : Clean e) {out : StringList} :
    Stores e out (normalizeEntry (e++[0]) false out) := by
  have hraw : (if false then stripLineEndings (e++[0]) else e++[0]) = e++[0] := rfl
  have hhead : (e++[0]).head? = some slash ↔ e.head? = some slash := by
    cases e with
    | nil => decide
    | cons b e => rfl
  have hscan : (e++[0]).take ((e++[0]).length-1) = e := by
    simp
  exact normalize_record hraw (by simp) hhead hscan (List.append_assoc e [0] [0]) h.1

theorem normalize_considered (nul : Bool) (h : Clean e) (htaken : nul = true ∨ e ≠ [])
    (out : StringList) : Stores e out (normalizeEntry (e++[delimiter nul]) (!nul) out) := by
  cases nul with
  | false => exact normalize_line h (htaken.resolve_left (by simp))
  | true => exact normalize_nul h

end Entry

section Run

/-- The considered entries are all stored when `n` are there already. -/
def Accepts (n : ℕ) (taken : List Bytes) : Prop :=
  (∀ e ∈ taken, ¬Rejected e) ∧ n+taken.length ≤ itemLimit

theorem accepts_cons (n : ℕ) (e : Bytes) (taken : List Bytes) :
    Accepts n (e::taken) ↔ ¬Rejected e ∧ n < itemLimit ∧ Accepts (n+1) taken := by
  simp only [Accepts,List.mem_cons,forall_eq_or_imp,List.length_cons]
  constructor
  · rintro ⟨⟨h,ht⟩,hlen⟩
    exact ⟨h,by omega,ht,by omega⟩
  · rintro ⟨h,_,ht,hlen⟩
    exact ⟨⟨h,ht⟩,by omega⟩

theorem getdelim_record (delim : UInt8) (maxLen : ℕ) (line e rest : Bytes) (he : delim ∉ e)
    (hlen : line.length+e.length < maxLen) :
    utilsGetdelimBounded delim maxLen line (e++delim::rest) = some (line++e++[delim],rest) := by
  induction e generalizing line with
  | nil =>
    rw [List.nil_append,utilsGetdelimBounded,if_neg (by omega),if_pos rfl,List.append_nil]
  | cons b e ih =>
    rw [List.mem_cons,not_or] at he
    simp only [List.length_cons] at hlen
    rw [List.cons_append,utilsGetdelimBounded,if_neg (by omega),
      if_neg (fun h => he.1 h.symm),ih (line++[b]) he.2 (by simp; omega)]
    simp

theorem clean_delimiter {e : Bytes} (h : Clean e) (nul : Bool) : delimiter nul ∉ e := by
  cases nul with
  | false => exact h.2.1
  | true => exact h.1

theorem encode_cons (nul : Bool) (e : Bytes) (entries : List Bytes) :
    encode nul (e::entries) = e++delimiter nul::encode nul entries := by
  simp [encode]

theorem readEntries_record (nul : Bool) {e : Bytes} (he : Clean e) (rest : Bytes) (fuel : ℕ)
    {raw : StringList} (hraw : Grown raw) :
    (nul = false ∧ e = [] ∧ readEntries nul (fuel+1) (e++delimiter nul::rest) raw =
      readEntries nul fuel rest raw) ∨
    ((nul = true ∨ e ≠ []) ∧
      ((Rejected e ∨ itemLimit ≤ raw.items.length) ∧
        (∃ error, readEntries nul (fuel+1) (e++delimiter nul::rest) raw = .error error) ∨
      (¬Rejected e ∧ raw.items.length < itemLimit) ∧
        ∃ raw', Grown raw' ∧ raw'.items = raw.items++[canon e] ∧
          readEntries nul (fuel+1) (e++delimiter nul::rest) raw =
            readEntries nul fuel rest raw')) := by
  have hget := getdelim_record (delimiter nul) utilsMaxLineLen [] e rest (clean_delimiter he nul)
    (by simpa using he.2.2.2)
  have hline : e++[delimiter nul] ≠ [] := by simp
  rw [delimiter] at hget
  rw [readEntries]
  rw [delimiter] at hline ⊢
  simp only [hget,List.nil_append,if_neg hline]
  by_cases hskip : nul = false ∧ e = []
  · obtain ⟨rfl,rfl⟩ := hskip
    apply Or.inl
    exact ⟨rfl,rfl,rfl⟩
  · have htaken : nul = true ∨ e ≠ [] := by
      cases nul <;> simp_all
    apply Or.inr
    refine ⟨htaken,?_⟩
    obtain ⟨hrejected,hstored,hfull⟩ := normalize_considered nul he htaken raw
    rw [delimiter] at hrejected hstored hfull
    by_cases hrej : Rejected e
    · obtain ⟨error,herror⟩ := hrejected hrej
      exact .inl ⟨.inl hrej,.entry error,by simp [herror]⟩
    · rcases Nat.lt_or_ge raw.items.length itemLimit with hroom | hroom
      · obtain ⟨raw',hadd,hgrown,hitems⟩ := add_room hraw (canon e) hroom
        exact .inr ⟨⟨hrej,hroom⟩,raw',hgrown,hitems,by simp [hstored hrej raw' hadd]⟩
      · obtain ⟨error,herror⟩ := hfull (add_full hraw (canon e) hroom)
        exact .inl ⟨.inr hroom,.entry error,by simp [herror]⟩

theorem considered_cons {nul : Bool} {e : Bytes} {entries : List Bytes}
    (h : nul = true ∨ e ≠ []) : considered nul (e::entries) = e::considered nul entries := by
  cases nul with
  | false =>
    have hne := h.resolve_left (by simp)
    simp [considered,hne]
  | true => rfl

/-- The whole stream: all considered entries are stored, or the load fails. -/
theorem readEntries_run (nul : Bool) (entries : List Bytes) (hclean : ∀ e ∈ entries, Clean e)
    (fuel : ℕ) (hfuel : (encode nul entries).length < fuel) {raw : StringList} (hraw : Grown raw) :
    (Accepts raw.items.length (considered nul entries) →
      ∃ raw', readEntries nul fuel (encode nul entries) raw = .ok raw' ∧
        raw'.items = raw.items++(considered nul entries).map canon) ∧
    (¬Accepts raw.items.length (considered nul entries) →
      ∃ error, readEntries nul fuel (encode nul entries) raw = .error error) := by
  induction entries generalizing fuel raw with
  | nil =>
    obtain ⟨fuel,rfl⟩ : ∃ k, fuel = k+1 := ⟨fuel-1,by omega⟩
    have hnone : considered nul [] = [] := by
      cases nul <;> rfl
    have hend : readEntries nul (fuel+1) (encode nul []) raw = .ok raw := rfl
    rw [hnone,hend]
    refine ⟨fun _ => ⟨raw,rfl,by simp⟩,fun h => absurd ?_ h⟩
    exact ⟨by simp,grown_limit hraw⟩
  | cons e entries ih =>
    obtain ⟨fuel,rfl⟩ : ∃ k, fuel = k+1 := ⟨fuel-1,by omega⟩
    rw [encode_cons] at hfuel ⊢
    have hrest : (encode nul entries).length < fuel := by
      simp only [List.length_append,List.length_cons] at hfuel
      omega
    have hnext := fun raw (h : Grown raw) =>
      ih (fun x hx => hclean x (by simp [hx])) fuel hrest h
    rcases readEntries_record nul (hclean e (by simp)) (encode nul entries) fuel hraw with
      ⟨rfl,rfl,hskip⟩ | ⟨htaken,⟨hbad,error,herror⟩ | ⟨hgood,raw',hgrown,hitems,hstep⟩⟩
    · rw [hskip]
      exact hnext raw hraw
    · rw [herror,considered_cons htaken,accepts_cons]
      refine ⟨fun h => ?_,fun _ => ⟨error,rfl⟩⟩
      rcases hbad with hbad | hbad
      · exact absurd hbad h.1
      · omega
    · have hlen : raw'.items.length = raw.items.length+1 := by
        rw [hitems,List.length_append,List.length_singleton]
      rw [hstep,considered_cons htaken,accepts_cons,← hlen]
      obtain ⟨hok,herr⟩ := hnext raw' hgrown
      constructor
      · intro h
        obtain ⟨out,hout,hlist⟩ := hok h.2.2
        refine ⟨out,hout,?_⟩
        rw [hlist,hitems]
        simp
      · intro h
        exact herr fun hacc => h ⟨hgood.1,hgood.2,hacc⟩

end Run

section Load
variable (hash : Bytes → ℕ) {files : Bytes → Option Bytes} {path : Bytes} {nul : Bool}
  {entries : List Bytes}

section
variable (hpath : path ≠ []) (hfile : files path = some (encode nul entries))
  (hclean : ∀ e ∈ entries, Clean e)
include hpath hfile hclean

theorem load_outcome :
    (Accepts 0 (considered nul entries) →
      ∃ set, fileListLoad hash files path nul = .ok set ∧
        set.entries = (considered nul entries).map canon ∧
        set.wholeTree = set.entries.any fun e => decide (e = [])) ∧
    (¬Accepts 0 (considered nul entries) →
      ∃ error, fileListLoad hash files path nul = .error error) := by
  have hrun := readEntries_run nul entries hclean ((encode nul entries).length+1)
    (Nat.lt_succ_self _) grown_empty
  simp only [List.length_nil,List.nil_append] at hrun
  unfold fileListLoad
  simp only [if_neg hpath,hfile]
  constructor
  · intro hacc
    obtain ⟨raw,hraw,hitems⟩ := hrun.1 hacc
    have hsmall : raw.items.length ≤ sizeMax/8 := by
      have hle := hacc.2
      have : itemLimit ≤ sizeMax/8 := by decide
      rw [hitems,List.length_map]
      omega
    obtain ⟨index,hindex⟩ : ∃ index, StringIndex.pathIndexBuild hash raw.items = some index :=
      StringIndex.pathIndexBuild_some hsmall
    refine ⟨⟨raw.items,index,raw.items.any fun e => decide (e = [])⟩,?_,hitems,rfl⟩
    simp [hraw,fileListIndexBuild,hindex]
  · intro hacc
    obtain ⟨error,herror⟩ := hrun.2 hacc
    exact ⟨error,by simp [herror]⟩

theorem load_canonical {set : FileListSet} (h : fileListLoad hash files path nul = .ok set) :
    ∀ e ∈ set.entries, Canonical e := by
  obtain ⟨hok,herr⟩ := load_outcome hash hpath hfile hclean
  by_cases hacc : Accepts 0 (considered nul entries)
  · obtain ⟨set',hload,hentries,_⟩ := hok hacc
    rw [h,Except.ok.injEq] at hload
    subst hload
    rw [hentries]
    intro x hx
    obtain ⟨e,he,rfl⟩ := List.mem_map.mp hx
    exact canon_canonical fun hd => hacc.1 e he (.inr hd)
  · obtain ⟨error,herror⟩ := herr hacc
    rw [h] at herror
    cases herror

end

end Load

/-- Both loads fail, or both give the same list and the same reach. -/
def SameOutcome : Except LoadError FileListSet → Except LoadError FileListSet → Prop
  | .error _, .error _ => True
  | .ok s, .ok t => s.entries = t.entries ∧ s.wholeTree = t.wholeTree
  | _, _ => False

instance (a b : Except LoadError FileListSet) : Decidable (SameOutcome a b) :=
  match a, b with
  | .error _, .error _ => isTrue trivial
  | .ok s, .ok t =>
    inferInstanceAs (Decidable (s.entries = t.entries ∧ s.wholeTree = t.wholeTree))
  | .error _, .ok _ => isFalse id
  | .ok _, .error _ => isFalse id

def nonBlank (entries : List Bytes) : List Bytes := entries.filter fun e => decide (e ≠ [])

theorem nonBlank_shorter {entries : List Bytes} (h : [] ∈ entries) :
    (nonBlank entries).length < entries.length := by
  apply List.length_filter_lt_length_iff_exists.mpr
  exact ⟨[],h,by simp⟩

theorem accepts_nonBlank {entries : List Bytes} :
    Accepts 0 (nonBlank entries) ↔
      (∀ e ∈ entries, ¬Rejected e) ∧ (nonBlank entries).length ≤ itemLimit := by
  rw [Accepts,Nat.zero_add]
  apply and_congr_left'
  constructor
  · intro h e he hrej
    exact h e (List.mem_filter.mpr ⟨he,decide_eq_true (rejected_nonempty hrej)⟩) hrej
  · intro h e he
    exact h e (List.mem_of_mem_filter he)

/-- The modes agree unless a blank entry is met in a list that line mode loads:
there it is skipped, and between NULs it lists the whole tree. -/
theorem modes_agree_iff (hash : Bytes → ℕ) (files : Bytes → Option Bytes)
    (linePath nulPath : Bytes) (entries : List Bytes) (hclean : ∀ e ∈ entries, Clean e)
    (hline : linePath ≠ []) (hlines : files linePath = some (encode false entries))
    (hnul : nulPath ≠ []) (hnuls : files nulPath = some (encode true entries)) :
    (SameOutcome (fileListLoad hash files linePath false) (fileListLoad hash files nulPath true) ∧
      ∀ set, fileListLoad hash files linePath false = .ok set ∨
        fileListLoad hash files nulPath true = .ok set → ∀ e ∈ set.entries, Canonical e) ↔
    [] ∉ entries ∨ (∃ e ∈ entries, Rejected e) ∨ itemLimit < (nonBlank entries).length := by
  have hcanonical : ∀ set, fileListLoad hash files linePath false = .ok set ∨
      fileListLoad hash files nulPath true = .ok set → ∀ e ∈ set.entries, Canonical e := by
    rintro set (h | h)
    · exact load_canonical hash hline hlines hclean h
    · exact load_canonical hash hnul hnuls hclean h
  rw [and_iff_left hcanonical]
  have hL : considered false entries = nonBlank entries := rfl
  have hN : considered true entries = entries := rfl
  obtain ⟨hlok,hlerr⟩ := load_outcome hash hline hlines hclean
  obtain ⟨hnok,hnerr⟩ := load_outcome hash hnul hnuls hclean
  rw [hL] at hlok hlerr
  rw [hN] at hnok hnerr
  constructor
  · intro hsame
    by_contra hnot
    simp only [not_or,not_not,not_exists,not_and,not_lt] at hnot
    obtain ⟨hblank,hgood,hfew⟩ := hnot
    obtain ⟨s,hs,hsentries,_⟩ := hlok (accepts_nonBlank.mpr ⟨hgood,hfew⟩)
    by_cases hacc : Accepts 0 entries
    · obtain ⟨t,ht,htentries,_⟩ := hnok hacc
      rw [hs,ht] at hsame
      have hlen := congrArg List.length hsame.1
      rw [hsentries,htentries,List.length_map,List.length_map] at hlen
      have := nonBlank_shorter hblank
      omega
    · obtain ⟨error,herror⟩ := hnerr hacc
      rw [hs,herror] at hsame
      exact hsame
  · intro hcond
    by_cases hacc : Accepts 0 (nonBlank entries)
    · have hboth := accepts_nonBlank.mp hacc
      have hblank : [] ∉ entries := by
        rcases hcond with h | ⟨e,he,hrej⟩ | h
        · exact h
        · exact absurd hrej (hboth.1 e he)
        · omega
      have hall : nonBlank entries = entries := by
        apply List.filter_eq_self.mpr
        intro e he
        exact decide_eq_true fun h => hblank (h ▸ he)
      rw [hall] at hlok hacc
      obtain ⟨s,hs,hsentries,hswhole⟩ := hlok hacc
      obtain ⟨t,ht,htentries,htwhole⟩ := hnok hacc
      rw [hs,ht]
      refine ⟨hsentries.trans htentries.symm,?_⟩
      rw [hswhole,htwhole,hsentries,htentries]
    · have hfull : ¬Accepts 0 entries := by
        intro h
        apply hacc
        rw [accepts_nonBlank]
        have hshort : (nonBlank entries).length ≤ entries.length := List.length_filter_le _ _
        have hroom := h.2
        exact ⟨h.1,by omega⟩
      obtain ⟨_,herrorL⟩ := hlerr hacc
      obtain ⟨_,herrorN⟩ := hnerr hfull
      rw [herrorL,herrorN]
      trivial

/-- The two encodings of a list under the names `l` and `n`. -/
def bothEncodings (entries : List Bytes) (path : Bytes) : Option Bytes :=
  some (encode (decide (path ≠ [108])) entries)

/-- `./a//b` is stored as `a/b` by both modes. -/
theorem modes_agree_dots :
    SameOutcome
      (fileListLoad (fun _ => 0) (bothEncodings [[dot,slash,97,slash,slash,98]]) [108] false)
      (fileListLoad (fun _ => 0) (bothEncodings [[dot,slash,97,slash,slash,98]]) [110] true) := by
  have hclean : ∀ e ∈ [[dot,slash,97,slash,slash,98]], Clean e := by
    unfold Clean
    decide
  have hblank : [] ∉ [[dot,slash,97,slash,slash,98]] := by decide
  exact ((modes_agree_iff (fun _ => 0) _ [108] [110] _ hclean (by simp) rfl (by simp) rfl).mpr
    (.inl hblank)).1

/-- One blank entry: line mode loads an empty list, between NULs the root is listed. -/
theorem blank_entry_diverges :
    ¬SameOutcome (fileListLoad (fun _ => 0) (bothEncodings [[]]) [108] false)
      (fileListLoad (fun _ => 0) (bothEncodings [[]]) [110] true) ∧
    (fileListLoad (fun _ => 0) (bothEncodings [[]]) [108] false).map
      (fun set => (set.entries,set.wholeTree)) = .ok ([],false) ∧
    (fileListLoad (fun _ => 0) (bothEncodings [[]]) [110] true).map
      (fun set => (set.entries,set.wholeTree)) = .ok ([[]],true) := by
  decide +kernel

end FastSync.FileListModes
