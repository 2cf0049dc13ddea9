import FastSync.FilterSyntax

/-!
# Chmod specifications

A specification is read byte by byte and each clause is applied to the mode as
soon as its comma or the end of the text is met. Without `X` a clause keeps some
bits and sets others whatever the mode was, so that specifications compose.
-/

set_option autoImplicit false

namespace FastSync.ChmodSpec
open DeletePaths (Bytes)
open FilterSyntax (comma)

abbrev Mode := BitVec 32

def chmodBits : Mode := 0o7777

inductive ChmodOp where
  | add
  | sub
  | eq
  | set

inductive ChmodState where
  | firstHalf
  | secondHalf
  | octal

structure Clause where
  state : ChmodState := .firstHalf
  op : Option ChmodOp := none
  whereBits : Mode := 0
  what : Mode := 0
  topbits : Mode := 0
  topoct : Mode := 0
  xKeep : Bool := false
  dirsOnly : Bool := false
  filesOnly : Bool := false

def Clause.start : Clause := {}

def isDir (mode : Mode) : Bool := decide (mode &&& ~~~chmodBits &&& 0o170000 = 0o40000)

def Clause.masks (umask : Mode) (c : Clause) (op : ChmodOp) : Mode × Mode :=
  let whom : Mode := if c.whereBits = 0 then 0o111 else c.whereBits
  let bits := if c.whereBits = 0 then whom*c.what &&& ~~~umask else whom*c.what
  match op with
  | .add => (chmodBits,bits+c.topoct)
  | .sub => (chmodBits-bits-c.topoct,0)
  | .eq => (chmodBits-whom*7-(if c.topoct = 0 then 0 else c.topbits),bits+c.topoct)
  | .set => (0,bits)

def Clause.apply (umask mode : Mode) (c : Clause) (changed : Mode) : Option Mode :=
  c.op.map fun op =>
    let masks := c.masks umask op
    if c.dirsOnly && !isDir mode || c.filesOnly && isDir mode then changed
    else if c.xKeep && decide (mode &&& 0o111 = 0) && !isDir mode then
      changed &&& masks.1 ||| masks.2 &&& ~~~0o111
    else changed &&& masks.1 ||| masks.2

def isOctal (b : UInt8) : Prop := '0'.toUInt8 ≤ b ∧ b ≤ '7'.toUInt8

instance (b : UInt8) : Decidable (isOctal b) := inferInstanceAs (Decidable (_ ∧ _))

def digit (b : UInt8) : Mode := BitVec.ofNat 32 (b - '0'.toUInt8).toNat

def Clause.readFirst (c : Clause) (b : UInt8) : Option Clause :=
  if b = 'D'.toUInt8 then if c.filesOnly then none else some { c with dirsOnly := true }
  else if b = 'F'.toUInt8 then if c.dirsOnly then none else some { c with filesOnly := true }
  else if b = 'u'.toUInt8 then
    some { c with whereBits := c.whereBits ||| 0o100, topbits := c.topbits ||| 0o4000 }
  else if b = 'g'.toUInt8 then
    some { c with whereBits := c.whereBits ||| 0o010, topbits := c.topbits ||| 0o2000 }
  else if b = 'o'.toUInt8 then some { c with whereBits := c.whereBits ||| 0o001 }
  else if b = 'a'.toUInt8 then some { c with whereBits := c.whereBits ||| 0o111 }
  else if b = '+'.toUInt8 then some { c with op := some .add, state := .secondHalf }
  else if b = '-'.toUInt8 then some { c with op := some .sub, state := .secondHalf }
  else if b = '='.toUInt8 then some { c with op := some .eq, state := .secondHalf }
  else if isOctal b ∧ c.whereBits = 0 then
    some { c with op := some .set, state := .octal, whereBits := 1, what := digit b }
  else none

def Clause.readSecond (c : Clause) (b : UInt8) : Option Clause :=
  if b = 'r'.toUInt8 then some { c with what := c.what ||| 4 }
  else if b = 'w'.toUInt8 then some { c with what := c.what ||| 2 }
  else if b = 'X'.toUInt8 then some { c with xKeep := true, what := c.what ||| 1 }
  else if b = 'x'.toUInt8 then some { c with what := c.what ||| 1 }
  else if b = 's'.toUInt8 then
    some { c with topoct := if c.topbits = 0 then 0o4000 else c.topoct ||| c.topbits }
  else if b = 't'.toUInt8 then some { c with topoct := c.topoct ||| 0o1000 }
  else none

def Clause.read (c : Clause) (b : UInt8) : Option Clause :=
  match c.state with
  | .firstHalf => c.readFirst b
  | .secondHalf => c.readSecond b
  | .octal => if isOctal b ∧ c.what*8+digit b ≤ chmodBits then
      some { c with what := c.what*8+digit b } else none

def chmodLoop (umask mode : Mode) : Clause → Mode → Bytes → Option Mode
  | c, changed, [] => c.apply umask mode changed
  | c, changed, b::spec =>
    if b = comma then (c.apply umask mode changed).bind fun changed =>
      chmodLoop umask mode .start changed spec
    else (c.read b).bind fun c => chmodLoop umask mode c changed spec

def withPerm (mode changed : Mode) : Mode := changed &&& chmodBits ||| mode &&& ~~~chmodBits

def chmodApply (umask mode : Mode) (spec : Bytes) : Option Mode :=
  if spec = [] then none
  else (chmodLoop umask mode .start mode spec).map (withPerm mode)

variable {umask mode changed : Mode} {c : Clause} {spec : Bytes}

theorem chmodApply_loop : chmodApply umask mode spec =
    (chmodLoop umask mode .start mode spec).map (withPerm mode) := by
  rw [chmodApply]
  split_ifs with h
  · rw [h]
    rfl
  · rfl

def Keeps (c : Clause) (x : Option Clause) : Prop := ∀ c' ∈ x, c'.xKeep = c.xKeep

theorem read_keeps {b : UInt8} (hb : b ≠ 'X'.toUInt8) : Keeps c (c.read b) := by
  unfold Clause.read Clause.readFirst Clause.readSecond
  rw [if_neg hb]
  split
  all_goals repeat' refine iteInduction (motive := Keeps c) ?_ ?_ <;> intro _
  all_goals simp [Keeps]

theorem chmodLoop_append {s t : Bytes} : chmodLoop umask mode c changed (s++comma::t) =
    (chmodLoop umask mode c changed s).bind fun x => chmodLoop umask mode .start x t := by
  induction s generalizing c changed with
  | nil => simp [chmodLoop]
  | cons b s ih =>
    by_cases hb : b = comma
    · simp [chmodLoop, hb, ih, Option.bind_assoc]
    · simp [chmodLoop, hb, ih, Option.bind_assoc]

/-- The bits that are kept and those that are set, for directories and for the rest. -/
abbrev Edit := Bool → Mode × Mode

def Edit.run (e : Edit) (mode changed : Mode) : Mode :=
  changed &&& (e (isDir mode)).1 ||| (e (isDir mode)).2

theorem apply_edit (umask : Mode) (hx : c.xKeep = false) : ∃ e : Option Edit, ∀ mode changed,
    c.apply umask mode changed = e.map fun e => e.run mode changed := by
  refine ⟨c.op.map fun op dir => if c.dirsOnly && !dir || c.filesOnly && dir then
    (BitVec.allOnes 32,0#32) else c.masks umask op,?_⟩
  intro mode changed
  cases hop : c.op with
  | none => simp [Clause.apply, hop]
  | some op =>
    simp only [Clause.apply, hop, hx, Option.map_some, Edit.run]
    split_ifs
    · rw [BitVec.and_allOnes, BitVec.or_zero]
    · contradiction
    · rfl

theorem run_run (e e' : Edit) : ∃ f : Edit, ∀ mode changed,
    e'.run mode (e.run mode changed) = f.run mode changed := by
  refine ⟨fun dir => ((e dir).1 &&& (e' dir).1,(e dir).2 &&& (e' dir).1 ||| (e' dir).2),?_⟩
  intro mode changed
  ext i hi
  simp [Edit.run, Bool.and_or_distrib_right, Bool.or_assoc, Bool.and_assoc]

theorem chmodLoop_edit (umask : Mode) (hs : 'X'.toUInt8 ∉ spec) (hx : c.xKeep = false) :
    ∃ e : Option Edit, ∀ mode changed,
      chmodLoop umask mode c changed spec = e.map fun e => e.run mode changed := by
  induction spec generalizing c with
  | nil => exact apply_edit umask hx
  | cons b spec ih =>
    rw [List.mem_cons, not_or] at hs
    by_cases hb : b = comma
    · obtain ⟨_ | e,he⟩ := apply_edit umask hx
      · exact ⟨none,by simp [chmodLoop, hb, he]⟩
      obtain ⟨_ | e',he'⟩ := @ih .start hs.2 rfl
      · exact ⟨none,by simp [chmodLoop, hb, he, he']⟩
      obtain ⟨f,hf⟩ := run_run e e'
      exact ⟨some f,by simp [chmodLoop, hb, he, he', hf]⟩
    · cases hc : c.read b with
      | none => exact ⟨none,by simp [chmodLoop, hb, hc]⟩
      | some c' =>
        obtain ⟨e,he⟩ := ih hs.2 ((read_keeps (Ne.symm hs.1) c' hc).trans hx)
        exact ⟨e,by simp [chmodLoop, hb, hc, he]⟩

theorem withPerm_type (mode changed : Mode) :
    withPerm mode changed &&& ~~~chmodBits = mode &&& ~~~chmodBits := by
  ext i hi
  grind [withPerm]

theorem run_withPerm (e : Edit) (mode changed : Mode) :
    withPerm (withPerm mode changed) (e.run (withPerm mode changed) (withPerm mode changed)) =
      withPerm mode (e.run mode changed) := by
  have hdir : isDir (withPerm mode changed) = isDir mode := by
    rw [isDir, withPerm_type, isDir]
  rw [withPerm, withPerm_type, Edit.run, hdir]
  ext i hi
  grind [withPerm, Edit.run]

/-- Specifications without `X` compose at a comma and change nothing the second
time; the type of the file stays, and no mode makes a specification invalid. -/
theorem specifications_compose (umask : Mode) (s t : Bytes) (hs : 'X'.toUInt8 ∉ s)
    (ht : 'X'.toUInt8 ∉ t) :
    (∀ mode, ((chmodApply umask mode (s++comma::t)).isSome ↔
        (chmodApply umask mode s).isSome ∧ (chmodApply umask mode t).isSome) ∧
      chmodApply umask mode (s++comma::t) =
        (chmodApply umask mode s).bind fun m => chmodApply umask m t) ∧
    (∀ mode r, chmodApply umask mode s = some r → chmodApply umask r s = some r ∧
      r &&& ~~~chmodBits = mode &&& ~~~chmodBits) ∧
    ∀ m m', (chmodApply umask m s).isSome = (chmodApply umask m' s).isSome := by
  obtain ⟨e,he⟩ := chmodLoop_edit (c := .start) umask hs rfl
  obtain ⟨e',he'⟩ := chmodLoop_edit (c := .start) umask ht rfl
  refine ⟨fun mode => ?_,?_,?_⟩
  · cases e <;> cases e' <;> simp [chmodApply_loop, chmodLoop_append, he, he', run_withPerm]
  · intro mode r hr
    cases e with
    | none => simp [chmodApply_loop, he] at hr
    | some e =>
      have hsame : e.run mode (e.run mode mode) = e.run mode mode := by
        ext i hi
        grind [Edit.run]
      simp [chmodApply_loop, he] at hr
      subst hr
      simp [chmodApply_loop, he, run_withPerm, hsame, withPerm_type]
  · simp [chmodApply_loop, he]

theorem owner_write_composes :
    let s := ['u'.toUInt8,'+'.toUInt8,'w'.toUInt8]
    chmodApply 0o22 0o100444 (s++comma::s) = some 0o100644 ∧
      (chmodApply 0o22 0o100444 (s++comma::s)).isSome := by
  refine ⟨by decide +kernel,?_⟩
  exact ((specifications_compose 0o22 _ _ (by decide) (by decide)).1 _).1.mpr (by decide +kernel)

end FastSync.ChmodSpec
