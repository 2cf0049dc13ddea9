import FastSync.FilterSyntax
import FastSync.GlobMatch

/-!
# Ordered lists of filter rules

A line is appended to a list, clears it, splices the rules of another file in or
registers the name of a per-directory file. A per-directory file is read into
the list it is given; its rules get an owner at the end, or are taken back when
a line fails. The first rule that matches an entry decides.
-/

set_option autoImplicit false

namespace FastSync.FilterRules
open DeletePaths (Bytes slash pathCat FilterAction)
open CheckedMemory
open FileList (utilsGetdelimBounded utilsMaxLineLen newline cString intMax)
open FilterSyntax GlobMatch

/-- `inherited` is not in the source: it counts the rules of the caller that are
still at the front of the list, and no branch reads it. -/
structure FilterRuleList where
  items : List FilterRule
  capacity : ℕ
  dirMergeNames : List Bytes
  inherited : ℕ
deriving DecidableEq, Repr

def filterRuleListCreate : FilterRuleList := ⟨[],0,[],0⟩

def filterRuleListAdd (list : FilterRuleList) (rule : FilterRule) : Option FilterRuleList :=
  if list.items.length = list.capacity then
    if list.capacity > intMax/2 then none
    else some {list with
      items := list.items++[rule]
      capacity := if list.capacity > 0 then list.capacity*2 else 8}
  else some {list with items := list.items++[rule]}

def filterRuleListAddDirMerge (list : FilterRuleList) (name : Bytes) : Option FilterRuleList :=
  if name = [] then none
  else if name ∈ list.dirMergeNames then some list
  else some {list with dirMergeNames := list.dirMergeNames++[name]}

/-- What a call leaves behind: the list as it is then, and why it failed. -/
structure Appended where
  list : FilterRuleList
  failure : Option FilterError
deriving DecidableEq, Repr

def filterListAppendCvs (sides : ℕ) : List (Bytes × Bool) → FilterRuleList → Appended
  | [], list => ⟨list,none⟩
  | entry::rest, list =>
    match filterRuleListAdd list (cvsRule sides entry) with
    | none => ⟨list,some .noMessage⟩
    | some list => filterListAppendCvs sides rest list

def skipsLine (p : Bytes) : Bool := endsLine p || decide (p.head? = some '#'.toUInt8)

/-- The lines of a file one by one; blank lines and comments are skipped. Every
line has at least one byte, so the length of the stream is fuel enough. -/
def readLines (handle : FilterRuleList → Bytes → Appended) (tooLong : FilterError) :
    ℕ → Bytes → FilterRuleList → Appended
  | 0, _, list => ⟨list,some tooLong⟩
  | fuel+1, stream, list =>
    match utilsGetdelimBounded newline utilsMaxLineLen [] stream with
    | none => ⟨list,some tooLong⟩
    | some (line,rest) =>
      if line = [] then ⟨list,none⟩
      else if skipsLine (skipBlanks (cString line)) then readLines handle tooLong fuel rest list
      else match handle list (skipBlanks (cString line)) with
        | ⟨list,some failure⟩ => ⟨list,some failure⟩
        | ⟨list,none⟩ => readLines handle tooLong fuel rest list

section Parse
variable (files : Bytes → Option Bytes) (opts : Option FilterParseOptions) (baseDir : Option Bytes)

def mergePath (name : Bytes) : Bytes :=
  match baseDir with
  | none => name
  | some base => if base ≠ [] ∧ name.head? ≠ some slash then pathCat base name else name

def filterListMergeFile (handle : FilterRuleList → Bytes → Appended) (list : FilterRuleList)
    (name : Bytes) : Appended :=
  if name = [] then ⟨list,some .mergeRequiresFilename⟩
  else
    let path := mergePath baseDir name
    match files path with
    | none => ⟨list,some (.couldNotReadMergeFile path)⟩
    | some stream =>
      readLines handle (.errorReadingMergeFile path) (stream.length+1) stream list

def filterListClear (list : FilterRuleList) : FilterRuleList :=
  {list with items := [], inherited := 0}

def filterMaxMergeDepth : ℕ := 16

/-- The line `p` once its syntax is known; `handle` takes the lines of a merge file. -/
def appendParsed (handle : FilterRuleList → Bytes → Appended) (list : FilterRuleList) (p : Bytes)
    (r : RuleSyntax) : Appended :=
  if r.xattr then ⟨list,some .xattrRule⟩
  else if r.cvsInject then filterListAppendCvs r.sides cvsDefaults list
  else if r.kind = .clear then
    if r.patLen ≠ 0 then ⟨list,some .clearTakesNoPattern⟩ else ⟨filterListClear list,none⟩
  else if r.kind = .merge then
    if r.patLen = 0 then ⟨list,some .mergeRequiresFilename⟩
    else filterListMergeFile files baseDir handle list (r.pat.take r.patLen)
  else if r.kind = .dirMerge then
    if r.patLen = 0 then ⟨list,some .dirMergeRequiresFilename⟩
    else match filterRuleListAddDirMerge list (r.pat.take r.patLen) with
      | none => ⟨list,some .allocation⟩
      | some list => ⟨list,none⟩
  else match filterRuleParse p opts with
    | .error failure => ⟨list,some failure⟩
    | .ok rule =>
      match filterRuleListAdd list rule with
      | none => ⟨list,some .allocation⟩
      | some list => ⟨list,none⟩

/-- The first argument counts the depths that are left. -/
def filterListParseAppendDepth : ℕ → FilterRuleList → Bytes → Appended
  | 0, list, _ => ⟨list,some .nestedTooDeeply⟩
  | levels+1, list, line =>
    if endsLine (skipBlanks line) then ⟨list,none⟩
    else match parseRuleSyntax (skipBlanks line) with
      | .error badMod =>
        ⟨list,some (if badMod ≠ 0 then .unsupportedModifier badMod (skipBlanks line)
          else .unrecognizedSyntax (skipBlanks line))⟩
      | .ok r =>
        appendParsed files opts baseDir (filterListParseAppendDepth levels) list
          (skipBlanks line) r

def filterRuleListParseAppend (list : FilterRuleList) (line : Bytes) : Appended :=
  filterListParseAppendDepth files opts baseDir (filterMaxMergeDepth+1) list line

end Parse

section Base
variable (files : Bytes → Option Bytes)

def appendTexts (opts : FilterParseOptions) : List Bytes → FilterRuleList → Appended
  | [], list => ⟨list,none⟩
  | text::texts, list =>
    match filterRuleListParseAppend files (some opts) none list text with
    | ⟨list,some failure⟩ => ⟨list,some failure⟩
    | ⟨list,none⟩ => appendTexts opts texts list

def filterBaseBuild (ruleTexts : List Bytes) (cvsExclude deleteExcluded : Bool) :
    Except FilterError FilterRuleList :=
  match appendTexts files ⟨deleteExcluded,cvsExclude⟩ ruleTexts filterRuleListCreate with
  | ⟨_,some failure⟩ => .error failure
  | ⟨list,none⟩ =>
    if cvsExclude then
      match filterListAppendCvs (filterSideSender ||| filterSideReceiver) cvsDefaults list with
      | ⟨_,some _⟩ => .error .allocation
      | ⟨list,none⟩ => .ok list
    else .ok list

end Base

section File
variable (files : Bytes → Option Bytes) (opts : Option FilterParseOptions)

def filterFileRollback (list : FilterRuleList) (rulesBefore dirMergesBefore : ℕ) :
    FilterRuleList :=
  {list with
    items := list.items.take (min rulesBefore list.items.length)
    dirMergeNames := list.dirMergeNames.take dirMergesBefore}

def setRuleOwner (owner : Option Bytes) (rule : FilterRule) : FilterRule :=
  {rule with owner := some (owner.getD [])}

def setOwners (list : FilterRuleList) (rulesBefore : ℕ) (owner : Option Bytes) : FilterRuleList :=
  {list with
    items := list.items.take rulesBefore++(list.items.drop rulesBefore).map (setRuleOwner owner)}

structure FileAppended where
  list : FilterRuleList
  present : Bool
  failure : Option FilterError
deriving DecidableEq, Repr

/-- The loop over the lines of the file; the caller's rules are all there when it starts. -/
def readFilterFile (dirPath name stream : Bytes) (list : FilterRuleList) : Appended :=
  readLines (filterListParseAppendDepth files opts (some dirPath) (filterMaxMergeDepth+1))
    (.lineTooLong name) (stream.length+1) stream {list with inherited := list.items.length}

/-- A file that cannot be opened is taken as missing. -/
def filterFileAppend (list : FilterRuleList) (dirPath name : Bytes) (ownerRel : Option Bytes) :
    FileAppended :=
  match files (pathCat dirPath name) with
  | none => ⟨{list with inherited := list.items.length},false,none⟩
  | some stream =>
    match readFilterFile files opts dirPath name stream list with
    | ⟨read,some failure⟩ =>
      ⟨filterFileRollback read list.items.length list.dirMergeNames.length,true,some failure⟩
    | ⟨read,none⟩ => ⟨setOwners read list.items.length ownerRel,true,none⟩

end File

section Match
variable (mem : Scratch)

def globAfterSlash (pattern : Bytes) : Bytes → Checked Bool
  | [] => pure false
  | c::str =>
    if c = slash then do
      if ← globMatch mem pattern str then pure true else globAfterSlash pattern str
    else globAfterSlash pattern str

/-- The pattern against the path from any component on. -/
def globSuffixMatch (pattern str : Bytes) : Checked Bool := do
  if ← globMatch mem pattern str then pure true else globAfterSlash mem pattern str

/-- What is left of the path below the owner of the rule. -/
def belowOwner (owner : Option Bytes) (relPath : Bytes) : Option Bytes :=
  match owner with
  | none => some relPath
  | some owner =>
    if owner = [] then some relPath
    else if owner <+: relPath ∧ relPath[owner.length]? = some slash then
      some (relPath.drop (owner.length+1))
    else none

def ruleMatches (rule : FilterRule) (relPath leaf : Bytes) (isDir : Bool) (side : ℕ) :
    Checked FilterAction :=
  match rule.pattern with
  | none => pure .none
  | some pattern =>
    if rule.sides &&& side = 0 then pure .none
    else match belowOwner rule.owner relPath with
      | none => pure .none
      | some rel2 =>
        if rel2 = [] then pure .none
        else do
          let matched ←
            if rule.dirOnly && !isDir then pure false
            else if rule.anchored then globMatch mem pattern rel2
            else if slash ∈ pattern then globSuffixMatch mem pattern rel2
            else globMatch mem pattern leaf
          let matched := if rule.negate then !matched else matched
          if !matched then pure .none
          else if side = filterSideReceiver then
            pure (if rule.action = .exclude then .protect else .risk)
          else pure rule.action

def filterRulesApplySide (rules : List FilterRule) (relPath leaf : Bytes) (isDir : Bool)
    (side : ℕ) : Checked FilterAction :=
  match rules with
  | [] => pure .none
  | rule::rules => do
    let action ← ruleMatches mem rule relPath leaf isDir side
    if action ≠ .none then pure action
    else filterRulesApplySide rules relPath leaf isDir side

end Match

end FastSync.FilterRules
