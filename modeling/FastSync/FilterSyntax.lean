import FastSync.FileList

/-!
# The text of a filter rule

A rule is a short or long name, its modifiers and a pattern or file name. The
text is a C string, so every read past its end sees the closing NUL, which here
is the end of the list.
-/

set_option autoImplicit false

namespace FastSync.FilterSyntax
open DeletePaths (Bytes slash dot FilterAction)
open FileList (stripLineEndings newline carriageReturn)

def ascii (s : String) : Bytes := s.toList.map Char.toUInt8

def space : UInt8 := 32
def underscore : UInt8 := 95
def comma : UInt8 := 44
def tab : UInt8 := 9

def filterSideSender : ℕ := 1
def filterSideReceiver : ℕ := 2

inductive RuleKind where
  | exclude
  | include
  | hide
  | show
  | protect
  | risk
  | merge
  | dirMerge
  | clear
deriving DecidableEq, Repr

def shortRuleChar (c : UInt8) : Option RuleKind :=
  if c = '-'.toUInt8 then some .exclude
  else if c = '+'.toUInt8 then some .include
  else if c = 'H'.toUInt8 then some .hide
  else if c = 'S'.toUInt8 then some .show
  else if c = 'P'.toUInt8 then some .protect
  else if c = 'R'.toUInt8 then some .risk
  else if c = '.'.toUInt8 then some .merge
  else if c = ':'.toUInt8 then some .dirMerge
  else if c = '!'.toUInt8 then some .clear
  else none

def longRuleNames : List (Bytes × RuleKind) :=
  [(ascii "exclude",.exclude),(ascii "include",.include),(ascii "hide",.hide),
    (ascii "show",.show),(ascii "protect",.protect),(ascii "risk",.risk),
    (ascii "merge",.merge),(ascii "dir-merge",.dirMerge),(ascii "clear",.clear)]

def longRuleName (name : Bytes) : Option RuleKind :=
  (longRuleNames.find? fun entry => decide (entry.1 = name)).map Prod.snd

def isModifierChar (c : UInt8) : Bool := decide (c ∈ ascii "srpx/!C")

def isMergeRule (kind : RuleKind) : Bool := decide (kind = .merge ∨ kind = .dirMerge)

def isUnsupportedModifierChar (c : UInt8) : Bool := decide (c ∈ ascii "enw")

def isMergeModifierChar (c : UInt8) : Bool := decide (c ∈ ascii "enw-")

def isModifierScanChar (c : UInt8) (kind : RuleKind) : Bool :=
  isModifierChar c || isUnsupportedModifierChar c || (isMergeRule kind && isMergeModifierChar c)

def isConsumedModifierChar (c : UInt8) (kind : RuleKind) : Bool :=
  isModifierChar c || (isMergeRule kind && isMergeModifierChar c)

/-- The modifier that makes a pure modifier run invalid, 0 if there is none. -/
def unsupportedModifierInToken (kind : RuleKind) (bad : UInt8) : Bytes → UInt8
  | [] => bad
  | q::tok =>
    if q = space ∨ q = underscore then bad
    else if !isModifierScanChar q kind then 0
    else unsupportedModifierInToken kind
      (if !isMergeRule kind && isUnsupportedModifierChar q then q else bad) tok

structure RuleSyntax where
  kind : RuleKind
  sides : ℕ
  sidesExplicit : Bool
  negate : Bool
  anchoredMod : Bool
  perishable : Bool
  xattr : Bool
  cvsInject : Bool
  pat : Bytes
  patLen : ℕ
deriving DecidableEq, Repr

def plainSyntax (kind : RuleKind) : RuleSyntax where
  kind := kind
  sides := filterSideSender ||| filterSideReceiver
  sidesExplicit := false
  negate := false
  anchoredMod := false
  perishable := false
  xattr := false
  cvsInject := false
  pat := []
  patLen := 0

def applyModifier (r : RuleSyntax) (m : UInt8) : RuleSyntax :=
  if m = 's'.toUInt8 then {r with sides := filterSideSender, sidesExplicit := true}
  else if m = 'r'.toUInt8 then {r with sides := filterSideReceiver, sidesExplicit := true}
  else if m = '!'.toUInt8 then {r with negate := true}
  else if m = '/'.toUInt8 then {r with anchoredMod := true}
  else if m = 'p'.toUInt8 then {r with perishable := true}
  else if m = 'x'.toUInt8 then {r with xattr := true}
  else if m = 'C'.toUInt8 then {r with cvsInject := true}
  else r

def isAlpha (c : UInt8) : Bool := decide (65 ≤ c ∧ c ≤ 90 ∨ 97 ≤ c ∧ c ≤ 122)

/-- The end of the text or one of the two separators. -/
def endsToken (text : Bytes) : Bool :=
  match text with
  | [] => true
  | c::_ => decide (c = space ∨ c = underscore)

/-- The rule's name, whether it is a short one, and what follows it. -/
def parseRuleName (text : Bytes) : Option (RuleKind × Bool × Bytes) :=
  match text.head?.bind shortRuleChar with
  | some kind => some (kind,true,text.tail)
  | none =>
    let name := text.takeWhile fun c => isAlpha c || decide (c = '-'.toUInt8)
    let rest := text.drop name.length
    match longRuleName name with
    | none => none
    | some kind =>
      if endsToken rest || decide (rest.head? = some comma) then some (kind,false,rest) else none

/-- The modifiers and the text after them. A run attached to a short name counts
only when it ends at a separator. -/
def parseModifiers (kind : RuleKind) (isShort : Bool) (p : Bytes) : Bytes × Bytes :=
  if p.head? = some comma then
    let mods := p.tail.takeWhile fun c => isConsumedModifierChar c kind
    (mods,p.tail.drop mods.length)
  else if isShort then
    let mods := p.takeWhile fun c => isConsumedModifierChar c kind
    if endsToken (p.drop mods.length) then (mods,p.drop mods.length) else ([],p)
  else ([],p)

def badModifier (kind : RuleKind) (isShort : Bool) (p : Bytes) : UInt8 :=
  if p.head? = some comma then unsupportedModifierInToken kind 0 p.tail
  else if isShort then unsupportedModifierInToken kind 0 p
  else 0

/-- One separator stands between the rule and its pattern. -/
def patternStart (p : Bytes) : Bytes := if p ≠ [] ∧ endsToken p then p.tail else p

/-- The error is the offending modifier, 0 for any other syntax error. -/
def parseRuleSyntax (text : Bytes) : Except UInt8 RuleSyntax :=
  match parseRuleName text with
  | none => .error 0
  | some (kind,isShort,p) =>
    if badModifier kind isShort p ≠ 0 then .error (badModifier kind isShort p)
    else
      let mods := (parseModifiers kind isShort p).1
      let pat := patternStart (parseModifiers kind isShort p).2
      .ok {mods.foldl applyModifier (plainSyntax kind) with
        pat := pat, patLen := (stripLineEndings pat).length}

/-- Why a rule or a file of rules is refused; texts are quoted where the message
quotes them. A failed append of the defaults leaves no message. -/
inductive FilterError where
  | emptyRule
  | unsupportedModifier (badMod : UInt8) (text : Bytes)
  | unrecognizedSyntax (text : Bytes)
  | cModifierInRule
  | xattrRule
  | mergeInRule
  | clearTakesNoPattern
  | noPattern
  | noPatternAfterAnchor
  | mergeRequiresFilename
  | dirMergeRequiresFilename
  | couldNotReadMergeFile (path : Bytes)
  | errorReadingMergeFile (path : Bytes)
  | nestedTooDeeply
  | lineTooLong (name : Bytes)
  | allocation
  | noMessage
deriving DecidableEq, Repr

structure FilterRule where
  action : FilterAction
  sides : ℕ
  anchored : Bool
  dirOnly : Bool
  negate : Bool
  perishable : Bool
  owner : Option Bytes
  pattern : Option Bytes
deriving DecidableEq, Repr

structure FilterParseOptions where
  deleteExcluded : Bool
  cvsExclude : Bool
deriving DecidableEq, Repr

def skipBlanks (text : Bytes) : Bytes := text.dropWhile fun c => decide (c = space ∨ c = tab)

def endsLine (text : Bytes) : Bool :=
  match text with
  | [] => true
  | c::_ => decide (c = newline ∨ c = carriageReturn)

def ruleAction (kind : RuleKind) : FilterAction :=
  if kind = .include ∨ kind = .show ∨ kind = .risk then .include else .exclude

/-- The sides of the rule; the four one-sided kinds override the modifiers, and
`--delete-excluded` makes an unqualified rule one of the sender. -/
def ruleSides (r : RuleSyntax) (opts : Option FilterParseOptions) : ℕ :=
  if r.kind = .hide ∨ r.kind = .show then filterSideSender
  else if r.kind = .protect ∨ r.kind = .risk then filterSideReceiver
  else match opts with
    | none => r.sides
    | some opts => if opts.deleteExcluded && !r.sidesExplicit then filterSideSender else r.sides

/-- The pattern without the anchor, the blanks after it and the line ending. -/
def patternBody (r : RuleSyntax) : Bool × Bytes :=
  if r.pat.head? = some slash then (true,stripLineEndings (skipBlanks r.pat.tail))
  else (r.anchoredMod,r.pat.take r.patLen)

def filterRuleParse (line : Bytes) (opts : Option FilterParseOptions) :
    Except FilterError FilterRule :=
  let p := skipBlanks line
  if endsLine p then .error .emptyRule
  else match parseRuleSyntax p with
    | .error badMod =>
      .error (if badMod ≠ 0 then .unsupportedModifier badMod [] else .unrecognizedSyntax [])
    | .ok r =>
      if r.cvsInject then .error .cModifierInRule
      else if r.xattr then .error .xattrRule
      else if isMergeRule r.kind then .error .mergeInRule
      else if r.kind = .clear then
        if r.patLen ≠ 0 then .error .clearTakesNoPattern
        else .ok ⟨.none,0,false,false,false,false,none,none⟩
      else if r.patLen = 0 then .error .noPattern
      else
        let anchored := (patternBody r).1
        let body := (patternBody r).2
        if body = [] then .error .noPatternAfterAnchor
        else
          let dirOnly := decide (body.length > 1 ∧ body.getLast? = some slash)
          .ok ⟨ruleAction r.kind,ruleSides r opts,anchored,dirOnly,r.negate,r.perishable,none,
            some (if dirOnly then body.dropLast else body)⟩

/-- The defaults of `-C`; the last four match directories only. -/
def cvsDefaults : List (Bytes × Bool) :=
  [(ascii "RCS",false),(ascii "SCCS",false),(ascii "CVS",false),(ascii "CVS.adm",false),
    (ascii "RCSLOG",false),(ascii "cvslog.*",false),(ascii "tags",false),(ascii "TAGS",false),
    (ascii ".make.state",false),(ascii ".nse_depinfo",false),(ascii "*~",false),
    (ascii "#*",false),(ascii ".#*",false),(ascii ",*",false),(ascii "_$*",false),
    (ascii "*$",false),(ascii "*.old",false),(ascii "*.bak",false),(ascii "*.BAK",false),
    (ascii "*.orig",false),(ascii "*.rej",false),(ascii ".del-*",false),(ascii "*.a",false),
    (ascii "*.olb",false),(ascii "*.o",false),(ascii "*.obj",false),(ascii "*.so",false),
    (ascii "*.exe",false),(ascii "*.Z",false),(ascii "*.elc",false),(ascii "*.ln",false),
    (ascii "core",false),(ascii ".svn/",true),(ascii ".git/",true),(ascii ".hg/",true),
    (ascii ".bzr/",true)]

def cvsRule (sides : ℕ) (entry : Bytes × Bool) : FilterRule :=
  let clean := if entry.2 ∧ entry.1.getLast? = some slash then entry.1.dropLast else entry.1
  ⟨.exclude,sides,false,entry.2,false,false,some [],some clean⟩

end FastSync.FilterSyntax
