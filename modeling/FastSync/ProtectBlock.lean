import FastSync.FilterParse
import FastSync.WireValues

/-!
# The block of protect rules

The client compiles its filter texts and sends the rules as a count and one
record each. It bounds the count and every pattern; the receiver bounds these
and the bytes of all patterns together, so it may refuse what the client sent.
What it accepts gives the verdicts of the list that was compiled.
-/

set_option autoImplicit false

namespace FastSync.ProtectBlock
open DeletePaths (Bytes slash FilterAction)
open CheckedMemory ByteReader WireValues
open FilterSyntax FilterRules FilterParse GlobMatch

def maxFilterRules : ℕ := 1024
def maxFilterBytes : ℕ := 256*1024
def maxProtectPatternLen : ℕ := 8192

def actionCode : FilterAction → ℤ
  | .none => 0
  | .exclude => -1
  | .include => 1
  | .protect => 2
  | .risk => 3

def patternText (r : FilterRule) : Bytes := r.pattern.getD []

def sendRule (r : FilterRule) : Bytes :=
  sendInt (actionCode r.action)++sendInt r.sides++sendBool r.anchored++sendBool r.dirOnly++
    sendBool r.negate++sendStr (r.owner.getD [])++sendStr (patternText r)

def sendRules : List FilterRule → Option Bytes
  | [] => some []
  | r::rules =>
    if (patternText r).length > maxProtectPatternLen then none
    else (sendRules rules).map (sendRule r++·)

def sendProtectEntries (files : Bytes → Option Bytes) (texts : List Bytes)
    (cvsExclude deleteExcluded : Bool) : Option Bytes :=
  match filterBaseBuild files texts cvsExclude deleteExcluded with
  | .error _ => none
  | .ok rules =>
    if rules.items.length > maxFilterRules then none
    else (sendRules rules.items).map (sendInt rules.items.length++·)

def receiveAction : Reader Session FilterAction := do
  let action ← receiveInt
  check (action = actionCode .exclude ∨ action = actionCode .include)
  pure (if action = actionCode .exclude then .exclude else .include)

def receiveSides : Reader Session ℕ := do
  let sides ← receiveInt
  check ((filterSideSender:ℤ) ≤ sides ∧ sides ≤ ((filterSideSender ||| filterSideReceiver:ℕ):ℤ))
  pure sides.toNat

/-- One record, where `patternBytes` counts the owners and patterns before it. -/
def receiveRule (patternBytes : ℕ) : Reader Session FilterRule := do
  let action ← receiveAction
  let sides ← receiveSides
  let anchored ← receiveWireBool
  let dirOnly ← receiveWireBool
  let negate ← receiveWireBool
  let owner ← configReceiveStr
  let pattern ← configReceiveStr
  check (pattern ≠ [])
  check (pattern.length ≤ maxProtectPatternLen)
  check (owner.length+pattern.length ≤ maxFilterBytes-patternBytes)
  pure ⟨action,sides,anchored,dirOnly,negate,false,some owner,some pattern⟩

def receiveRules : ℕ → ℕ → Reader Session (List FilterRule)
  | 0, _ => pure []
  | count+1, patternBytes => do
    let rule ← receiveRule patternBytes
    let rules ← receiveRules count
      (patternBytes+((rule.owner.getD []).length+(patternText rule).length))
    pure (rule::rules)

/-- An empty block leaves the configuration without rules. -/
def receiveProtectEntries : Reader Session (Option (List FilterRule)) := do
  let count ← receiveInt
  check (0 ≤ count ∧ count ≤ maxFilterRules)
  if count = 0 then pure none
  else do
    let rules ← receiveRules count.toNat 0
    pure (some rules)

def protectVerdict (mem : Scratch) (rules : Option (List FilterRule)) (relPath leaf : Bytes)
    (isDir : Bool) : Checked FilterAction :=
  match rules with
  | none => pure .none
  | some rules => filterRulesApplySide mem rules relPath leaf isDir filterSideReceiver

section Verdict
variable (mem : Scratch)

def received (r : FilterRule) : FilterRule :=
  {r with perishable := false, owner := some (r.owner.getD []), pattern := some (patternText r)}

theorem belowOwner_received {owner : Option Bytes} {relPath : Bytes} :
    belowOwner (some (owner.getD [])) relPath = belowOwner owner relPath := by
  cases owner <;> rfl

theorem ruleMatches_received {r : FilterRule} (h : Parsed r) (relPath leaf : Bytes) (isDir : Bool)
    (side : ℕ) :
    ruleMatches mem (received r) relPath leaf isDir side =
      ruleMatches mem r relPath leaf isDir side := by
  obtain ⟨p,hp,_⟩ := h.pattern
  have htext : (received r).pattern = r.pattern := by
    rw [received,patternText,hp]
    rfl
  have howner : belowOwner (received r).owner relPath = belowOwner r.owner relPath :=
    belowOwner_received
  unfold ruleMatches
  rw [htext,howner]
  rfl

theorem applySide_received {rules : List FilterRule} (h : ∀ r ∈ rules, Parsed r)
    {relPath leaf : Bytes} {isDir : Bool} {side : ℕ} :
    filterRulesApplySide mem (rules.map received) relPath leaf isDir side =
      filterRulesApplySide mem rules relPath leaf isDir side := by
  induction rules with
  | nil => rfl
  | cons r rules ih =>
    rw [List.map_cons,filterRulesApplySide,filterRulesApplySide,
      ruleMatches_received mem (h r (by simp)),ih fun x hx => h x (by simp [hx])]

end Verdict

section Record
variable {r : FilterRule}

theorem reads_action (h : r.action = .exclude ∨ r.action = .include) (s : Session) :
    Reads receiveAction s (sendInt (actionCode r.action)) r.action s := by
  intro rest
  have hrange : IntRange (actionCode r.action) := by
    rcases h with h | h <;> rw [h] <;> exact ⟨by decide,by decide⟩
  rcases h with h | h <;> rw [h] <;> rfl

theorem reads_sides {sides : ℕ} (h : SidesValid sides) (s : Session) :
    Reads receiveSides s (sendInt sides) sides s := by
  intro rest
  obtain ⟨hlow,hhigh⟩ := h
  have hrange : IntRange (sides:ℤ) := ⟨by omega,by omega⟩
  have hcheck : (filterSideSender:ℤ) ≤ (sides:ℤ) ∧
      (sides:ℤ) ≤ ((filterSideSender ||| filterSideReceiver:ℕ):ℤ) := by
    have h1 : filterSideSender = 1 := rfl
    have h3 : filterSideSender ||| filterSideReceiver = 3 := rfl
    omega
  rw [receiveSides,bind_reads (reads_int hrange s),bind_apply,check,if_pos hcheck]
  rfl

def RuleFits (patternBytes : ℕ) (s : Session) (r : FilterRule) : Prop :=
  Fits s 0 ∧ Fits (charged s 0) (patternText r).length ∧
    (patternText r).length ≤ maxFilterBytes-patternBytes

def afterRule (s : Session) (r : FilterRule) : Session :=
  charged (charged s 0) (patternText r).length

theorem decides_pattern {p : Bytes} (hne : p ≠ []) (h0 : 0 ∉ p)
    (hlen : p.length ≤ maxProtectPatternLen) (patternBytes : ℕ) (owner : Bytes)
    (build : Bytes → FilterRule) (s : Session) :
    Decides (do
        let pattern ← configReceiveStr
        check (pattern ≠ [])
        check (pattern.length ≤ maxProtectPatternLen)
        check (owner.length+pattern.length ≤ maxFilterBytes-patternBytes)
        pure (build pattern)) s (sendStr p)
      (Fits s p.length ∧ owner.length+p.length ≤ maxFilterBytes-patternBytes) (build p)
      (charged s p.length) := by
  have hsize : p.length < 2^64 := by
    have : maxProtectPatternLen < 2^64 := by decide
    omega
  rw [← List.append_nil (sendStr p)]
  refine decides_congr ?_ (decides_bind (decides_str h0 hsize s) fun _ =>
    decides_check (p := p ≠ []) fun _ =>
      decides_check (p := p.length ≤ maxProtectPatternLen) fun _ =>
        decides_check (p := owner.length+p.length ≤ maxFilterBytes-patternBytes) fun _ =>
          decides_pure (build p) (charged s p.length))
  simp [hne,hlen]

theorem decides_rule (h : Parsed r) (hlen : (patternText r).length ≤ maxProtectPatternLen)
    (patternBytes : ℕ) (s : Session) :
    Decides (receiveRule patternBytes) s (sendRule r) (RuleFits patternBytes s r) (received r)
      (afterRule s r) := by
  obtain ⟨p,hp,hne,h0⟩ := h.pattern
  have htext : patternText r = p := by
    rw [patternText,hp]
    rfl
  have howner : Decides configReceiveStr s (sendStr []) (Fits s 0) [] (charged s 0) :=
    decides_str (by simp) (by decide) s
  rw [htext] at hlen
  have hpattern := decides_pattern hne h0 hlen patternBytes []
    (fun pattern => ⟨r.action,r.sides,r.anchored,r.dirOnly,r.negate,false,some [],some pattern⟩)
    (charged s 0)
  have hreceived : received r =
      ⟨r.action,r.sides,r.anchored,r.dirOnly,r.negate,false,some [],some p⟩ := by
    rw [received,htext,h.owner]
  have hsent : sendRule r = sendInt (actionCode r.action)++(sendInt r.sides++(sendBool r.anchored++
      (sendBool r.dirOnly++(sendBool r.negate++(sendStr []++sendStr p))))) := by
    simp [sendRule,h.owner,htext]
  have hfits : RuleFits patternBytes s r ↔ Fits s 0 ∧ Fits (charged s 0) p.length ∧
      ([]:Bytes).length+p.length ≤ maxFilterBytes-patternBytes := by
    rw [RuleFits,htext,List.length_nil,Nat.zero_add]
  rw [hreceived,hsent,afterRule,htext]
  refine decides_congr hfits.symm ?_
  exact decides_read (reads_action h.action s) (decides_read (reads_sides h.sides s)
    (decides_read (reads_bool r.anchored s) (decides_read (reads_bool r.dirOnly s)
      (decides_read (reads_bool r.negate s) (decides_bind howner fun _ => hpattern)))))

end Record

section Rules

def RulesFit : ℕ → Session → List FilterRule → Prop
  | _, _, [] => True
  | patternBytes, s, r::rules => RuleFits patternBytes s r ∧
      RulesFit (patternBytes+(patternText r).length) (afterRule s r) rules

def afterRules (s : Session) (rules : List FilterRule) : Session := rules.foldl afterRule s

theorem decides_rules (rules : List FilterRule) (h : ∀ r ∈ rules, Parsed r)
    (hlen : ∀ r ∈ rules, (patternText r).length ≤ maxProtectPatternLen) (patternBytes : ℕ)
    (s : Session) :
    Decides (receiveRules rules.length patternBytes) s (rules.flatMap sendRule)
      (RulesFit patternBytes s rules) (rules.map received) (afterRules s rules) := by
  induction rules generalizing patternBytes s with
  | nil => exact decides_pure [] s
  | cons r rules ih =>
    have hfirst := decides_rule (h r (by simp)) (hlen r (by simp)) patternBytes s
    have hrest := ih (fun x hx => h x (by simp [hx])) (fun x hx => hlen x (by simp [hx]))
      (patternBytes+(patternText r).length) (afterRule s r)
    have hbytes : ((received r).owner.getD []).length+(patternText (received r)).length =
        (patternText r).length := by
      have howner : (received r).owner.getD [] = [] := (h r (by simp)).owner
      rw [howner,List.length_nil,Nat.zero_add]
      rfl
    refine decides_bind hfirst fun _ => ?_
    rw [hbytes]
    exact decides_map hrest

def patternTotal (rules : List FilterRule) : ℕ := (rules.map fun r => (patternText r).length).sum

def AllAllowed (maxAlloc : ℕ) (rules : List FilterRule) : Prop :=
  ∀ r ∈ rules, maxAlloc = 0 ∨ (patternText r).length+1 ≤ maxAlloc

theorem ruleFits_iff {r : FilterRule} (hlen : (patternText r).length ≤ maxProtectPatternLen)
    {patternBytes : ℕ} {s : Session} (hbytes : patternBytes ≤ maxFilterBytes)
    (hused : s.used+2 ≤ patternBytes+2*maxFilterRules) :
    RuleFits patternBytes s r ↔
      patternBytes+(patternText r).length ≤ maxFilterBytes ∧
        (s.maxAlloc = 0 ∨ (patternText r).length+1 ≤ s.maxAlloc) := by
  simp only [RuleFits,Fits,charged,maxStringSize,maxConfigStringBytes,maxFilterBytes,
    maxFilterRules,maxProtectPatternLen] at *
  omega

/-- Within the bytes of all patterns, the limits on one string and on all
strings of the configuration never bind. -/
theorem rulesFit_iff (rules : List FilterRule)
    (hlen : ∀ r ∈ rules, (patternText r).length ≤ maxProtectPatternLen) (patternBytes : ℕ)
    (s : Session) (hbytes : patternBytes ≤ maxFilterBytes)
    (hused : s.used+2*rules.length ≤ patternBytes+2*maxFilterRules) :
    RulesFit patternBytes s rules ↔
      patternBytes+patternTotal rules ≤ maxFilterBytes ∧ AllAllowed s.maxAlloc rules := by
  induction rules generalizing patternBytes s with
  | nil => simp [RulesFit,patternTotal,AllAllowed,hbytes]
  | cons r rules ih =>
    rw [List.length_cons] at hused
    have hfirst := ruleFits_iff (hlen r (by simp)) hbytes (by omega : s.used+2 ≤ _)
    have htotal : patternTotal (r::rules) = (patternText r).length+patternTotal rules := by
      simp [patternTotal]
    have hall : AllAllowed s.maxAlloc (r::rules) ↔
        (s.maxAlloc = 0 ∨ (patternText r).length+1 ≤ s.maxAlloc) ∧
          AllAllowed s.maxAlloc rules := by
      simp [AllAllowed]
    rw [RulesFit,hfirst,htotal,hall]
    constructor
    · rintro ⟨⟨hle,hone⟩,hrest⟩
      rw [ih (fun x hx => hlen x (by simp [hx])) _ _ hle
        (by simp only [afterRule, charged]; omega)] at hrest
      exact ⟨by omega,hone,hrest.2⟩
    · rintro ⟨hle,hone,hrest⟩
      refine ⟨⟨by omega,hone⟩,?_⟩
      rw [ih (fun x hx => hlen x (by simp [hx])) _ _ (by omega)
        (by simp only [afterRule, charged]; omega)]
      exact ⟨by omega,hrest⟩

end Rules

section Compiled
variable {files : Bytes → Option Bytes}

theorem allParsed_closed : Closed fun list => ∀ r ∈ list.items, Parsed r where
  add := by
    intro list rule list' h hrule hadd r hr
    unfold filterRuleListAdd at hadd
    split_ifs at hadd
    all_goals
      rw [Option.some.injEq] at hadd
      rw [← hadd] at hr
      rcases List.mem_append.mp hr with hr | hr
      · exact h r hr
      · exact List.mem_singleton.mp hr ▸ hrule
  clear := by
    intro list h r hr
    simp [filterListClear] at hr
  register := by
    intro list name list' h hname r hr
    unfold filterRuleListAddDirMerge at hname
    split_ifs at hname
    all_goals
      rw [Option.some.injEq] at hname
      rw [← hname] at hr
      exact h r hr

variable (files) in
theorem appendTexts_parsed (opts : FilterParseOptions) (texts : List Bytes)
    (htexts : ∀ t ∈ texts, 0 ∉ t) {list : FilterRuleList} (h : ∀ r ∈ list.items, Parsed r) :
    ∀ r ∈ (appendTexts files opts texts list).list.items, Parsed r := by
  induction texts generalizing list with
  | nil => exact h
  | cons text texts ih =>
    have hnext := parseAppend_closed files (some opts) none allParsed_closed
      (filterMaxMergeDepth+1) list text h (htexts text (by simp))
    rw [appendTexts,filterRuleListParseAppend]
    cases hline : filterListParseAppendDepth files (some opts) none (filterMaxMergeDepth+1) list
        text with
    | mk list' failure =>
      rw [hline] at hnext
      cases failure with
      | none => exact ih (fun t ht => htexts t (by simp [ht])) hnext
      | some failure => exact hnext

theorem filterBaseBuild_parsed {texts : List Bytes} (htexts : ∀ t ∈ texts, 0 ∉ t)
    {cvsExclude deleteExcluded : Bool} {compiled : FilterRuleList}
    (h : filterBaseBuild files texts cvsExclude deleteExcluded = .ok compiled) :
    ∀ r ∈ compiled.items, Parsed r := by
  have hnone : ∀ r ∈ filterRuleListCreate.items, Parsed r := by
    simp [filterRuleListCreate]
  have hlist := appendTexts_parsed files ⟨deleteExcluded,cvsExclude⟩ texts htexts hnone
  unfold filterBaseBuild at h
  split at h
  · cases h
  · rename_i list hlines
    rw [hlines] at hlist
    cases cvsExclude with
    | false =>
      rw [if_neg (by simp),Except.ok.injEq] at h
      exact h ▸ hlist
    | true =>
      rw [if_pos rfl] at h
      have hcvs := appendCvs_closed allParsed_closed both_valid cvsDefaults (fun _ hx => hx) hlist
      split at h
      · cases h
      · rename_i list' hdefaults
        rw [hdefaults] at hcvs
        rw [Except.ok.injEq] at h
        exact h ▸ hcvs

theorem sendRules_some {rules : List FilterRule} {bytes : Bytes}
    (h : sendRules rules = some bytes) :
    bytes = rules.flatMap sendRule ∧
      ∀ r ∈ rules, (patternText r).length ≤ maxProtectPatternLen := by
  induction rules generalizing bytes with
  | nil =>
    rw [sendRules,Option.some.injEq] at h
    exact ⟨h.symm,by simp⟩
  | cons r rules ih =>
    rw [sendRules] at h
    split_ifs at h with hlong
    obtain ⟨rest,hrest,rfl⟩ := Option.map_eq_some_iff.mp h
    obtain ⟨hbytes,hall⟩ := ih hrest
    refine ⟨by rw [hbytes,List.flatMap_cons],fun x hx => ?_⟩
    rcases List.mem_cons.mp hx with rfl | hx
    · omega
    · exact hall x hx

theorem send_parts {texts : List Bytes} {cvsExclude deleteExcluded : Bool}
    {compiled : FilterRuleList} {bytes : Bytes}
    (hbuild : filterBaseBuild files texts cvsExclude deleteExcluded = .ok compiled)
    (h : sendProtectEntries files texts cvsExclude deleteExcluded = some bytes) :
    compiled.items.length ≤ maxFilterRules ∧
      bytes = sendInt compiled.items.length++compiled.items.flatMap sendRule ∧
      ∀ r ∈ compiled.items, (patternText r).length ≤ maxProtectPatternLen := by
  rw [sendProtectEntries,hbuild] at h
  dsimp only at h
  split_ifs at h with hmany
  obtain ⟨rest,hrest,rfl⟩ := Option.map_eq_some_iff.mp h
  obtain ⟨hbytes,hall⟩ := sendRules_some hrest
  exact ⟨by omega,by rw [hbytes],hall⟩

end Compiled

def rebuilt (rules : List FilterRule) : Option (List FilterRule) :=
  if rules = [] then none else some (rules.map received)

section
variable (rules : List FilterRule) (h : ∀ r ∈ rules, Parsed r)
  (hcount : rules.length ≤ maxFilterRules)
  (hlen : ∀ r ∈ rules, (patternText r).length ≤ maxProtectPatternLen)
include h hcount hlen

theorem decides_block {s : Session} :
    Decides receiveProtectEntries s (sendInt rules.length++rules.flatMap sendRule)
      (RulesFit 0 s rules) (rebuilt rules) (afterRules s rules) := by
  have hrange : IntRange (rules.length:ℤ) := by
    unfold IntRange maxFilterRules at *
    omega
  have hcheck : 0 ≤ (rules.length:ℤ) ∧ (rules.length:ℤ) ≤ maxFilterRules := by omega
  have hrules := decides_rules rules h hlen 0 s
  have hbody : Decides (if (rules.length:ℤ) = 0 then pure none else do
      let rules ← receiveRules (rules.length:ℤ).toNat 0
      pure (some rules)) s (rules.flatMap sendRule) (RulesFit 0 s rules) (rebuilt rules)
      (afterRules s rules) := by
    by_cases hempty : rules = []
    · subst hempty
      exact decides_pure none s
    · have hpos : ¬(rules.length:ℤ) = 0 := by
        have := List.length_pos_iff.mpr hempty
        omega
      rw [if_neg hpos,rebuilt,if_neg hempty,Int.toNat_natCast]
      exact decides_map hrules
  refine decides_congr ?_ (decides_read (reads_int hrange s)
    (decides_check (p := 0 ≤ (rules.length:ℤ) ∧ (rules.length:ℤ) ≤ maxFilterRules)
      fun _ => hbody))
  exact and_iff_right hcheck

theorem decides_fresh_block (maxAlloc : ℕ) :
    Decides receiveProtectEntries ⟨maxAlloc,0⟩ (sendInt rules.length++rules.flatMap sendRule)
      (patternTotal rules ≤ maxFilterBytes ∧ AllAllowed maxAlloc rules) (rebuilt rules)
      (afterRules ⟨maxAlloc,0⟩ rules) := by
  have hfit := rulesFit_iff rules hlen 0 ⟨maxAlloc,0⟩ (by decide) (by simp only; omega)
  rw [Nat.zero_add] at hfit
  exact decides_congr hfit (decides_block rules h hcount hlen)

end

theorem verdict_rebuilt (mem : Scratch) (rules : List FilterRule) (h : ∀ r ∈ rules, Parsed r)
    (relPath leaf : Bytes) (isDir : Bool) :
    protectVerdict mem (rebuilt rules) relPath leaf isDir =
      filterRulesApplySide mem rules relPath leaf isDir filterSideReceiver := by
  unfold rebuilt
  split_ifs with hempty
  · rw [hempty]
    rfl
  · exact applySide_received mem h

/-- A block the client sends is accepted, with the verdicts of the compiled
list, exactly when the patterns stay within the receiver's total and every one
of them within one allocation of the session. -/
theorem protect_block_accepted_iff (files : Bytes → Option Bytes) (mem : Scratch)
    (texts : List Bytes) (htexts : ∀ t ∈ texts, 0 ∉ t) (cvsExclude deleteExcluded : Bool)
    (compiled : FilterRuleList) (bytes : Bytes) (maxAlloc : ℕ)
    (hbuild : filterBaseBuild files texts cvsExclude deleteExcluded = .ok compiled)
    (hsend : sendProtectEntries files texts cvsExclude deleteExcluded = some bytes) :
    (∃ rules after, Reads receiveProtectEntries ⟨maxAlloc,0⟩ bytes rules after ∧
      ∀ relPath leaf isDir, protectVerdict mem rules relPath leaf isDir =
        filterRulesApplySide mem compiled.items relPath leaf isDir filterSideReceiver) ↔
    patternTotal compiled.items ≤ maxFilterBytes ∧ AllAllowed maxAlloc compiled.items := by
  have hparsed := filterBaseBuild_parsed htexts hbuild
  obtain ⟨hcount,rfl,hlen⟩ := send_parts hbuild hsend
  have hblock := decides_fresh_block compiled.items hparsed hcount hlen maxAlloc
  constructor
  · rintro ⟨rules,after,hreads,_⟩
    by_contra hnot
    have hnone := hblock.refuses hnot []
    rw [hreads []] at hnone
    cases hnone
  · intro hfit
    exact ⟨_,_,hblock.reads hfit,verdict_rebuilt mem compiled.items hparsed⟩

section Plain

def plainText (n : ℕ) : Bytes := ascii "- "++List.replicate (n+1) 97

def plainRule (n : ℕ) : FilterRule :=
  ⟨.exclude,3,false,false,false,false,none,some (List.replicate (n+1) 97)⟩

theorem parse_plain (n : ℕ) :
    parseRuleSyntax (plainText n) =
      .ok {plainSyntax .exclude with pat := List.replicate (n+1) 97, patLen := n+1} := by
  have hstrip : FileList.stripLineEndings (List.replicate (n+1) 97) = List.replicate (n+1) 97 := by
    rw [FileList.stripLineEndings,List.rdropWhile_eq_self_iff]
    intro hne
    rw [List.getLast_replicate]
    decide
  have hname : parseRuleName (plainText n) = some (.exclude,true,32::List.replicate (n+1) 97) := rfl
  have hbad : badModifier .exclude true (32::List.replicate (n+1) 97) = 0 := rfl
  have hmods : parseModifiers .exclude true (32::List.replicate (n+1) 97) =
      ([],32::List.replicate (n+1) 97) := rfl
  have hpat : patternStart (32::List.replicate (n+1) 97) = List.replicate (n+1) 97 := rfl
  simp only [parseRuleSyntax,hname,hbad,hmods,hpat,hstrip,List.length_replicate]
  rfl

theorem filterRuleParse_plain {n : ℕ} {opts : FilterParseOptions} (h : opts.deleteExcluded = false) :
    filterRuleParse (plainText n) (some opts) = .ok (plainRule n) := by
  have hblank : skipBlanks (plainText n) = plainText n := rfl
  have hend : endsLine (plainText n) = false := rfl
  have hbody : patternBody {plainSyntax .exclude with pat := List.replicate (n+1) 97, patLen := n+1} =
      (false,List.replicate (n+1) 97) := by
    rw [patternBody,if_neg (by simp [List.replicate_succ, slash])]
    simp [plainSyntax]
  have hlast : (List.replicate (n+1) (97:UInt8)).getLast? ≠ some slash := by
    rw [List.getLast?_replicate]
    simp [slash]
  simp only [filterRuleParse,hblank,hend,parse_plain,hbody]
  simp [plainSyntax,plainRule,hlast,isMergeRule,ruleAction,ruleSides,h,filterSideSender,
    filterSideReceiver]

theorem add_room (list : FilterRuleList) (rule : FilterRule)
    (h : list.items.length ≤ FileList.intMax/2) :
    ∃ list', filterRuleListAdd list rule = some list' ∧ list'.items = list.items++[rule] := by
  unfold filterRuleListAdd
  by_cases hfull : list.items.length = list.capacity
  · rw [if_pos hfull,if_neg (by omega)]
    exact ⟨_,rfl,rfl⟩
  · rw [if_neg hfull]
    exact ⟨_,rfl,rfl⟩

section
variable (files : Bytes → Option Bytes)

theorem append_plain {n : ℕ} {opts : FilterParseOptions} (hopts : opts.deleteExcluded = false)
    {list list' : FilterRuleList} (hadd : filterRuleListAdd list (plainRule n) = some list') :
    filterRuleListParseAppend files (some opts) none list (plainText n) = ⟨list',none⟩ := by
  have hblank : skipBlanks (plainText n) = plainText n := rfl
  have hend : endsLine (plainText n) = false := rfl
  rw [filterRuleListParseAppend,filterListParseAppendDepth,hblank,hend,
    if_neg Bool.false_ne_true,parse_plain]
  simp [appendParsed,plainSyntax,filterRuleParse_plain hopts,hadd]

theorem appendTexts_plain (n k : ℕ) (opts : FilterParseOptions)
    (hopts : opts.deleteExcluded = false) (list : FilterRuleList)
    (hroom : list.items.length+k ≤ FileList.intMax/2) :
    ∃ list', appendTexts files opts (List.replicate k (plainText n)) list = ⟨list',none⟩ ∧
      list'.items = list.items++List.replicate k (plainRule n) := by
  induction k generalizing list with
  | zero => exact ⟨list,rfl,by simp⟩
  | succ k ih =>
    obtain ⟨next,hadd,hitems⟩ := add_room list (plainRule n) (by omega)
    obtain ⟨list',htexts,hrules⟩ := ih next (by
      rw [hitems,List.length_append,List.length_singleton]
      omega)
    refine ⟨list',?_,?_⟩
    · rw [List.replicate_succ,appendTexts,append_plain files hopts hadd]
      exact htexts
    · rw [hrules,hitems,List.append_assoc,List.singleton_append,← List.replicate_succ]

theorem build_plain (n k : ℕ) (hk : k ≤ FileList.intMax/2) :
    ∃ compiled, filterBaseBuild files (List.replicate k (plainText n)) false false = .ok compiled ∧
      compiled.items = List.replicate k (plainRule n) := by
  obtain ⟨list,htexts,hitems⟩ := appendTexts_plain files n k ⟨false,false⟩ rfl
    filterRuleListCreate (by simpa [filterRuleListCreate] using hk)
  refine ⟨list,?_,by simpa [filterRuleListCreate] using hitems⟩
  simp only [filterBaseBuild,htexts]
  rfl

end

theorem plain_parsed {n : ℕ} : Parsed (plainRule n) := by
  refine ⟨.inl rfl,both_valid,rfl,_,rfl,by simp,?_⟩
  intro h
  exact absurd (List.eq_of_mem_replicate h) (by decide)

theorem plain_length (n : ℕ) : (patternText (plainRule n)).length = n+1 :=
  List.length_replicate

theorem plain_total (n k : ℕ) : patternTotal (List.replicate k (plainRule n)) = k*(n+1) := by
  rw [patternTotal,List.map_replicate,plain_length,List.sum_replicate_nat]

theorem send_plain (files : Bytes → Option Bytes) (n k : ℕ) (hn : n < maxProtectPatternLen)
    (hk : k ≤ maxFilterRules) :
    sendProtectEntries files (List.replicate k (plainText n)) false false =
      some (sendInt k++(List.replicate k (plainRule n)).flatMap sendRule) := by
  have hsmall : maxFilterRules ≤ FileList.intMax/2 := by decide
  obtain ⟨compiled,hbuild,hitems⟩ := build_plain files n k (by omega)
  have hpattern : ¬(patternText (plainRule n)).length > maxProtectPatternLen := by
    rw [plain_length]
    omega
  have hrules : sendRules (List.replicate k (plainRule n)) =
      some ((List.replicate k (plainRule n)).flatMap sendRule) := by
    clear hitems hbuild hk
    induction k with
    | zero => rfl
    | succ k ih => rw [List.replicate_succ,sendRules,if_neg hpattern,ih]; rfl
  simp only [sendProtectEntries,hbuild,hitems,List.length_replicate,if_neg (Nat.not_lt.mpr hk),
    hrules]
  rfl

end Plain

def noFiles (_ : Bytes) : Option Bytes := none

/-- Two short rules: they are accepted, and the receiver decides as the client compiled. -/
theorem protect_block_accepted_short :
    ∃ compiled bytes rules after,
      filterBaseBuild noFiles [ascii "- a",ascii "P b/"] false false = .ok compiled ∧
      sendProtectEntries noFiles [ascii "- a",ascii "P b/"] false false = some bytes ∧
      Reads receiveProtectEntries ⟨0,0⟩ bytes rules after ∧
      ∀ relPath leaf isDir, protectVerdict plainScratch rules relPath leaf isDir =
        filterRulesApplySide plainScratch compiled.items relPath leaf isDir
          filterSideReceiver := by
  have hbuild : filterBaseBuild noFiles [ascii "- a",ascii "P b/"] false false =
      .ok ⟨[⟨.exclude,3,false,false,false,false,none,some (ascii "a")⟩,
        ⟨.exclude,2,false,true,false,false,none,some (ascii "b")⟩],8,[],0⟩ := by
    decide +kernel
  have hsend : sendProtectEntries noFiles [ascii "- a",ascii "P b/"] false false =
      some (sendInt 2++[(⟨.exclude,3,false,false,false,false,none,some (ascii "a")⟩ : FilterRule),
        ⟨.exclude,2,false,true,false,false,none,some (ascii "b")⟩].flatMap sendRule) := by
    decide +kernel
  obtain ⟨rules,after,hreads,hverdict⟩ := (protect_block_accepted_iff noFiles plainScratch
    [ascii "- a",ascii "P b/"] (by decide) false false _ _ 0 hbuild hsend).mpr
    ⟨by decide,fun r _ => Or.inl rfl⟩
  exact ⟨_,_,rules,after,hbuild,hsend,hreads,hverdict⟩

/-- Thirty-three patterns of 8000 letters: the client sends them, and the
receiver refuses the block whatever follows it. -/
theorem long_patterns_refused :
    let bytes := sendInt 33++(List.replicate 33 (plainRule 7999)).flatMap sendRule
    sendProtectEntries noFiles (List.replicate 33 (plainText 7999)) false false = some bytes ∧
      Refuses receiveProtectEntries ⟨0,0⟩ bytes := by
  refine ⟨send_plain noFiles 7999 33 (by decide) (by decide),?_⟩
  have hparsed : ∀ r ∈ List.replicate 33 (plainRule 7999), Parsed r := by
    intro r hr
    rw [List.eq_of_mem_replicate hr]
    exact plain_parsed
  have hlen : ∀ r ∈ List.replicate 33 (plainRule 7999),
      (patternText r).length ≤ maxProtectPatternLen := by
    intro r hr
    rw [List.eq_of_mem_replicate hr,plain_length]
    decide
  have hcount : (List.replicate 33 (plainRule 7999)).length ≤ maxFilterRules := by
    decide
  have hblock := decides_fresh_block (List.replicate 33 (plainRule 7999)) hparsed hcount hlen 0
  rw [List.length_replicate,plain_total] at hblock
  apply hblock.refuses
  rintro ⟨htotal,_⟩
  exact absurd htotal (by decide)

end FastSync.ProtectBlock
