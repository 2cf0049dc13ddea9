import FastSync.CheckedMemory
import FastSync.FilterSyntax

/-!
# The remote command

The server path and every remote option go to the remote shell in single quotes,
with a quote of their own written as `'\''`. The shell splits the command into
the same words again. The length of the buffer is computed before anything is
written.
-/

set_option autoImplicit false

namespace FastSync.RemoteCommand
open DeletePaths (Bytes)
open FilterSyntax (ascii space tab)
open CheckedMemory (sizeMax)

def quote : UInt8 := 39
def backslash : UInt8 := 92

def suffix : Bytes := ascii " --stdio"

def serverPath (server : Option Bytes) : Bytes := server.getD (ascii "fastsync-server")

def clean (opt : Bytes) : Bool := opt ≠ [] && opt.all fun c => 0x20 ≤ c && c ≠ 0x7f

def optionLen (opt : Bytes) : ℕ := opt.length+opt.count quote*3+3

def optionsLen : ℕ → List Bytes → Option ℕ
  | len, [] => some len
  | len, opt::opts =>
    if !clean opt then none
    else if opt.count quote > (sizeMax-opt.length)/3 ∨ optionLen opt % 2^64 > sizeMax-len then none
    else optionsLen (len+optionLen opt % 2^64) opts

def commandLen (path : Bytes) (opts : List Bytes) : Option ℕ :=
  if path.length > sizeMax-suffix.length-4 ∨
    path.count quote > (sizeMax-path.length-suffix.length-4)/4 then none
  else (optionsLen (path.length+path.count quote*4+suffix.length+4) opts).map fun len =>
    (len+1) % 2^64

def quoteWord (s : Bytes) : Bytes :=
  quote::s.flatMap (fun c => if c = quote then [quote,backslash,quote,quote] else [c])++[quote]

def commandText (path : Bytes) (opts : List Bytes) : Bytes :=
  quoteWord path++suffix++opts.flatMap fun opt => space::quoteWord opt

/-- The length of the buffer and what is written to it. -/
def sshBuildRemoteCommand (server : Option Bytes) (opts : List Bytes) : Option (ℕ × Bytes) :=
  (commandLen (serverPath server) opts).map fun len =>
    (len,commandText (serverPath server) opts++[0])

/-! ## The shell -/

inductive Mode where
  | plain
  | quoted
  | escaped

/-- What expands, substitutes, redirects or ends a command outside quotes. -/
def active : Bytes := ascii "|&;<>()$`\"*?[]#~=%!^\x7b\x7d\n"

/-- Words by blanks, single quotes and backslashes; none when an active character
stands outside quotes or the text ends within a word's quotes. -/
def shellWords : Mode → Option Bytes → Bytes → Option (List Bytes)
  | .plain, word, [] => some word.toList
  | _, _, [] => none
  | .plain, word, c::s =>
    if c = space ∨ c = tab then (shellWords .plain none s).map (word.toList++·)
    else if c = quote then shellWords .quoted (some (word.getD [])) s
    else if c = backslash then shellWords .escaped word s
    else if c ∈ active then none
    else shellWords .plain (some (word.getD []++[c])) s
  | .quoted, word, c::s =>
    if c = quote then shellWords .plain word s
    else shellWords .quoted (some (word.getD []++[c])) s
  | .escaped, word, c::s =>
    if c = 10 then shellWords .plain word s else shellWords .plain (some (word.getD []++[c])) s

theorem shellWords_body {w s rest : Bytes} :
    shellWords .quoted (some w) (s.flatMap (fun c => if c = quote then
      [quote,backslash,quote,quote] else [c])++quote::rest) = shellWords .plain (some (w++s)) rest := by
  induction s generalizing w with
  | nil => simp [shellWords]
  | cons c s ih =>
    by_cases hc : c = quote
    · subst hc
      rw [List.flatMap_cons, if_pos rfl, List.append_cons w]
      exact ih
    · simp [shellWords, hc, ih]

theorem shellWords_word {s rest : Bytes} :
    shellWords .plain none (quoteWord s++rest) = shellWords .plain (some s) rest := by
  have h := @shellWords_body [] s rest
  simpa [quoteWord, shellWords, quote, space, tab] using h

theorem shellWords_suffix {w rest : Bytes} : shellWords .plain (some w) (suffix++rest) =
    (shellWords .plain (some (ascii "--stdio")) rest).map (w::·) := by
  rfl

theorem shellWords_options {w : Bytes} {opts : List Bytes} :
    shellWords .plain (some w) (opts.flatMap fun opt => space::quoteWord opt) = some (w::opts) := by
  induction opts generalizing w with
  | nil => rfl
  | cons opt opts ih =>
    have h := @shellWords_word opt (opts.flatMap fun opt => space::quoteWord opt)
    rw [ih] at h
    simp [shellWords, h]

theorem quoteWord_length {s : Bytes} : (quoteWord s).length = s.length+s.count quote*3+2 := by
  induction s with
  | nil => rfl
  | cons c s ih =>
    by_cases hc : c = quote
    · simp [quoteWord, hc] at ih ⊢
      omega
    · simp [quoteWord, hc] at ih ⊢
      omega

/-- The bytes that the command and its NUL are given. -/
def needed (path : Bytes) (opts : List Bytes) : ℕ :=
  path.length+path.count quote*4+suffix.length+4+(opts.map optionLen).sum+1

theorem optionsLen_eq {len : ℕ} {opts : List Bytes}
    (h : len+(opts.map optionLen).sum ≤ sizeMax) : optionsLen len opts =
      if opts.all clean then some (len+(opts.map optionLen).sum) else none := by
  induction opts generalizing len with
  | nil => rfl
  | cons opt opts ih =>
    rw [List.map_cons, List.sum_cons, ← Nat.add_assoc] at h ⊢
    have hmod : optionLen opt % 2^64 = optionLen opt := Nat.mod_eq_of_lt (by unfold sizeMax at h; omega)
    rw [optionsLen, hmod, ih h]
    cases hc : clean opt with
    | false => simp [hc]
    | true =>
      have hroom : ¬(opt.count quote > (sizeMax-opt.length)/3 ∨ optionLen opt > sizeMax-len) := by
        unfold optionLen at *
        omega
      simp [hc, hroom]

theorem commandLen_eq {path : Bytes} {opts : List Bytes} (h : needed path opts ≤ sizeMax) :
    commandLen path opts = if opts.all clean then some (needed path opts) else none := by
  unfold needed at *
  rw [commandLen, if_neg (by omega), optionsLen_eq (by omega)]
  split_ifs
  · rw [Option.map_some, Nat.mod_eq_of_lt (by unfold sizeMax at h; omega)]
  · rfl

theorem commandText_length (path : Bytes) (opts : List Bytes) :
    (commandText path opts++[0]).length ≤ needed path opts := by
  have hopts : (opts.flatMap fun opt => space::quoteWord opt).length = (opts.map optionLen).sum := by
    simp only [List.length_flatMap, List.length_cons, quoteWord_length]
    rfl
  simp only [commandText, List.length_append, hopts, quoteWord_length, needed, List.length_singleton]
  omega

/-- The words the shell finds are the path, `--stdio` and the options. As long as
no size overflows, a command is refused for an unclean option only, and fits its
buffer. -/
theorem remote_command_words (server : Option Bytes) (opts : List Bytes) :
    (∀ len cmd, sshBuildRemoteCommand server opts = some (len,cmd) → ∃ text, cmd = text++[0] ∧
      shellWords .plain none text = some (serverPath server::ascii "--stdio"::opts)) ∧
    (needed (serverPath server) opts ≤ sizeMax →
      ((sshBuildRemoteCommand server opts).isSome ↔ ∀ opt ∈ opts, clean opt = true) ∧
      ∀ len cmd, sshBuildRemoteCommand server opts = some (len,cmd) → cmd.length ≤ len) := by
  constructor
  · intro len cmd h
    obtain ⟨n,-,h⟩ := Option.map_eq_some_iff.mp h
    cases h
    refine ⟨_,rfl,?_⟩
    rw [commandText, List.append_assoc, shellWords_word, shellWords_suffix, shellWords_options]
    rfl
  · intro hfit
    rw [sshBuildRemoteCommand, commandLen_eq hfit, ← List.all_eq_true]
    split_ifs with hclean
    · refine ⟨by simp [hclean],fun len cmd h => ?_⟩
      cases h
      exact commandText_length _ _
    · simp [hclean]

end FastSync.RemoteCommand
