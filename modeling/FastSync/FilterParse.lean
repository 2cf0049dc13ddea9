import FastSync.FilterRules

/-!
# What the parser puts into a list

However a line is nested in merge files, the list changes only by a parsed rule
at its end, by being cleared or by a registered name. A property closed under
these three changes holds of every list the parser leaves, also when it fails.
-/

set_option autoImplicit false

namespace FastSync.FilterParse
open DeletePaths (Bytes slash FilterAction)
open FileList (stripLineEndings newline utilsMaxLineLen utilsGetdelimBounded cString)
open FilterSyntax FilterRules

def SidesValid (sides : ℕ) : Prop := 1 ≤ sides ∧ sides ≤ 3

structure Parsed (rule : FilterRule) : Prop where
  action : rule.action = .exclude ∨ rule.action = .include
  sides : SidesValid rule.sides
  owner : rule.owner.getD [] = []
  pattern : ∃ p, rule.pattern = some p ∧ p ≠ [] ∧ 0 ∉ p

variable {r : RuleSyntax}

section Rule

variable {c : UInt8} {text : Bytes}

theorem skipBlanks_mem (h : c ∈ skipBlanks text) : c ∈ text :=
  (List.dropWhile_sublist _).mem h

theorem stripLineEndings_mem (h : c ∈ stripLineEndings text) : c ∈ text :=
  (List.rdropWhile_prefix _ _).sublist.mem h

theorem sender_valid : SidesValid filterSideSender := ⟨by decide,by decide⟩

theorem receiver_valid : SidesValid filterSideReceiver := ⟨by decide,by decide⟩

theorem both_valid : SidesValid (filterSideSender ||| filterSideReceiver) :=
  ⟨by decide,by decide⟩

theorem applyModifiers_sides {mods : Bytes} (h : SidesValid r.sides) :
    SidesValid (mods.foldl applyModifier r).sides := by
  induction mods generalizing r with
  | nil => exact h
  | cons m mods ih =>
    apply ih
    unfold applyModifier
    split_ifs
    · exact sender_valid
    · exact receiver_valid
    all_goals exact h

theorem parseModifiers_mem {kind : RuleKind} {isShort : Bool} {p : Bytes}
    (h : c ∈ (parseModifiers kind isShort p).2) : c ∈ p := by
  unfold parseModifiers at h
  dsimp only at h
  split_ifs at h
  · exact List.mem_of_mem_tail (List.mem_of_mem_drop h)
  · exact List.mem_of_mem_drop h
  · exact h
  · exact h

theorem parseRuleName_mem {p : Bytes} {kind : RuleKind} {isShort : Bool}
    (hname : parseRuleName text = some (kind,isShort,p)) (h : c ∈ p) : c ∈ text := by
  unfold parseRuleName at hname
  split at hname
  · simp only [Option.some.injEq, Prod.mk.injEq] at hname
    exact List.mem_of_mem_tail (hname.2.2 ▸ h)
  · dsimp only at hname
    split at hname
    · cases hname
    · split_ifs at hname
      simp only [Option.some.injEq, Prod.mk.injEq] at hname
      exact List.mem_of_mem_drop (hname.2.2 ▸ h)

theorem patternStart_mem {p : Bytes} (h : c ∈ patternStart p) : c ∈ p := by
  unfold patternStart at h
  split_ifs at h
  · exact List.mem_of_mem_tail h
  · exact h

theorem parseRuleSyntax_parts (h : parseRuleSyntax text = .ok r) :
    SidesValid r.sides ∧ (∀ c ∈ r.pat, c ∈ text) ∧ r.patLen = (stripLineEndings r.pat).length := by
  unfold parseRuleSyntax at h
  split at h
  · cases h
  · rename_i kind isShort p hname
    by_cases hbad : badModifier kind isShort p ≠ 0
    · rw [if_pos hbad] at h
      cases h
    · rw [if_neg hbad, Except.ok.injEq] at h
      subst h
      refine ⟨applyModifiers_sides both_valid,fun c hc => ?_,rfl⟩
      exact parseRuleName_mem hname (parseModifiers_mem (patternStart_mem hc))

theorem ruleSides_valid (h : SidesValid r.sides)
    {opts : Option FilterParseOptions} : SidesValid (ruleSides r opts) := by
  unfold ruleSides
  split_ifs
  · exact sender_valid
  · exact receiver_valid
  · cases opts with
    | none => exact h
    | some opts =>
      dsimp only
      split_ifs
      · exact sender_valid
      · exact h

theorem ruleAction_base {kind : RuleKind} :
    ruleAction kind = .exclude ∨ ruleAction kind = .include := by
  unfold ruleAction
  split_ifs
  · exact .inr rfl
  · exact .inl rfl

theorem patternBody_mem (h : c ∈ (patternBody r).2) : c ∈ r.pat := by
  unfold patternBody at h
  split_ifs at h
  · exact List.mem_of_mem_tail (skipBlanks_mem (stripLineEndings_mem h))
  · exact List.mem_of_mem_take h

theorem dropLast_nonempty {body : Bytes} (h : body.length > 1) : body.dropLast ≠ [] := by
  rw [← List.length_pos_iff, List.length_dropLast]
  omega

theorem filterRuleParse_parsed {line : Bytes} {opts : Option FilterParseOptions}
    {rule : FilterRule} (h : filterRuleParse line opts = .ok rule) (h0 : 0 ∉ line) :
    Parsed rule ∨ ∃ r, parseRuleSyntax (skipBlanks line) = .ok r ∧ r.kind = .clear := by
  unfold filterRuleParse at h
  dsimp only at h
  split_ifs at h
  split at h
  · cases h
  · rename_i r hwritten
    obtain ⟨hsides,hpat,_⟩ := parseRuleSyntax_parts hwritten
    have hzero : 0 ∉ (patternBody r).2 := fun hmem =>
      h0 (skipBlanks_mem (hpat 0 (patternBody_mem hmem)))
    split_ifs at h with hcvs hxattr hmerge hclear hlen hpatLen hbody hdir
    · exact .inr ⟨r,hwritten,hclear⟩
    · rw [Except.ok.injEq] at h
      subst h
      refine .inl ⟨ruleAction_base,ruleSides_valid hsides,rfl,_,rfl,?_,?_⟩
      · exact dropLast_nonempty (of_decide_eq_true hdir).1
      · exact fun hmem => hzero ((List.dropLast_sublist _).mem hmem)
    · rw [Except.ok.injEq] at h
      subst h
      exact .inl ⟨ruleAction_base,ruleSides_valid hsides,rfl,_,rfl,hbody,hzero⟩

theorem cvsRule_parsed {sides : ℕ} (h : SidesValid sides) :
    ∀ entry ∈ cvsDefaults, Parsed (cvsRule sides entry) := by
  have hclean : ∀ entry ∈ cvsDefaults, ∃ p, (cvsRule 0 entry).pattern = some p ∧ p ≠ [] ∧ 0 ∉ p := by
    decide +kernel
  intro entry hentry
  exact ⟨.inl rfl,h,rfl,hclean entry hentry⟩

end Rule

section Closed

/-- Kept by every way a line can change the list. -/
structure Closed (P : FilterRuleList → Prop) : Prop where
  add : ∀ list rule list', P list → Parsed rule → filterRuleListAdd list rule = some list' → P list'
  clear : ∀ list, P list → P (filterListClear list)
  register : ∀ list name list', P list → filterRuleListAddDirMerge list name = some list' → P list'

variable {P : FilterRuleList → Prop}

variable {list : FilterRuleList}

theorem appendCvs_closed (hP : Closed P) {sides : ℕ} (hsides : SidesValid sides)
    (entries : List (Bytes × Bool)) (hentries : ∀ entry ∈ entries, entry ∈ cvsDefaults)
    (h : P list) : P (filterListAppendCvs sides entries list).list := by
  induction entries generalizing list with
  | nil => exact h
  | cons entry entries ih =>
    rw [filterListAppendCvs]
    cases hadd : filterRuleListAdd list (cvsRule sides entry) with
    | none => exact h
    | some list' =>
      apply ih fun x hx => hentries x (by simp [hx])
      exact hP.add list _ list' h (cvsRule_parsed hsides entry (hentries entry (by simp))) hadd

theorem cString_clean {line : Bytes} : 0 ∉ cString line := by
  intro h
  have := List.mem_takeWhile_imp h
  simp at this

theorem readLines_closed {handle : FilterRuleList → Bytes → Appended} {tooLong : FilterError}
    (hhandle : ∀ list line, P list → 0 ∉ line → P (handle list line).list) {fuel : ℕ}
    (stream : Bytes) (h : P list) : P (readLines handle tooLong fuel stream list).list := by
  induction fuel generalizing stream list with
  | zero => exact h
  | succ fuel ih =>
    rw [readLines]
    cases utilsGetdelimBounded newline utilsMaxLineLen [] stream with
    | none => exact h
    | some record =>
      obtain ⟨line,rest⟩ := record
      have hclean : 0 ∉ skipBlanks (cString line) := fun hmem =>
        cString_clean (skipBlanks_mem hmem)
      have hnext := hhandle list (skipBlanks (cString line)) h hclean
      dsimp only
      split_ifs
      · exact h
      · exact ih rest h
      · cases hline : handle list (skipBlanks (cString line)) with
        | mk list' failure =>
          rw [hline] at hnext
          cases failure with
          | none => exact ih rest hnext
          | some failure => exact hnext

section Line
variable (files : Bytes → Option Bytes) (opts : Option FilterParseOptions) (baseDir : Option Bytes)

theorem mergeFile_closed {handle : FilterRuleList → Bytes → Appended}
    (hhandle : ∀ list line, P list → 0 ∉ line → P (handle list line).list)
    {name : Bytes} (h : P list) : P (filterListMergeFile files baseDir handle list name).list := by
  unfold filterListMergeFile
  dsimp only
  split_ifs
  · exact h
  · cases files (mergePath baseDir name) with
    | none => exact h
    | some stream => exact readLines_closed hhandle stream h

theorem appendParsed_closed (hP : Closed P) {handle : FilterRuleList → Bytes → Appended}
    (hhandle : ∀ list line, P list → 0 ∉ line → P (handle list line).list)
    {line : Bytes} (h : P list) (h0 : 0 ∉ line)
    (hwritten : parseRuleSyntax (skipBlanks line) = .ok r) :
    P (appendParsed files opts baseDir handle list (skipBlanks line) r).list := by
  unfold appendParsed
  split_ifs with hxattr hcvs hclear hlen hmerge hlen hdir hlen
  · exact h
  · exact appendCvs_closed hP (parseRuleSyntax_parts hwritten).1 _ (fun _ hx => hx) h
  · exact h
  · exact hP.clear list h
  · exact h
  · exact mergeFile_closed files baseDir hhandle h
  · exact h
  · cases hname : filterRuleListAddDirMerge list (r.pat.take r.patLen) with
    | none => exact h
    | some list' => exact hP.register list _ list' h hname
  · cases hparse : filterRuleParse (skipBlanks line) opts with
    | error failure => exact h
    | ok rule =>
      have hrule : Parsed rule := by
        rcases filterRuleParse_parsed hparse (fun hmem => h0 (skipBlanks_mem hmem)) with
          hrule | ⟨r',hr',hkind⟩
        · exact hrule
        · have hidem : skipBlanks (skipBlanks line) = skipBlanks line := List.dropWhile_idempotent _ _
          rw [hidem, hwritten, Except.ok.injEq] at hr'
          exact absurd (hr' ▸ hkind) hclear
      cases hadd : filterRuleListAdd list rule with
      | none => simpa only [hadd] using h
      | some list' => simpa only [hadd] using hP.add list rule list' h hrule hadd

theorem parseAppend_closed (hP : Closed P) (levels : ℕ) (list : FilterRuleList) (line : Bytes)
    (h : P list) (h0 : 0 ∉ line) :
    P (filterListParseAppendDepth files opts baseDir levels list line).list := by
  induction levels generalizing list line with
  | zero => exact h
  | succ levels ih =>
    rw [filterListParseAppendDepth]
    split_ifs
    · exact h
    · cases hwritten : parseRuleSyntax (skipBlanks line) with
      | error badMod => exact h
      | ok r => exact appendParsed_closed files opts baseDir hP ih h h0 hwritten

end Line

end Closed

end FastSync.FilterParse
