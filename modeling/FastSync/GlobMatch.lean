import FastSync.CheckedMemory
import FastSync.GlobLanguage

/-!
# The glob matcher

The matcher fills one row of marks for each position of the pattern, from its
end to its start, and keeps only the last four of them: the row of a position
stands where the row of the fourth position after it stood. The mark in a column
says whether the pattern from that position on matches the string from that
column on. The memory it works in holds anything when it starts.
-/

set_option autoImplicit false

namespace FastSync.GlobMatch
open DeletePaths CheckedMemory GlobLanguage

def stackRow : ℕ := 257

def workCap : ℕ := 64*1024*1024

/-- The rows on the stack and what `malloc` hands out. -/
structure Scratch where
  stackRows : Bytes
  stackSize : stackRows.length = 4*stackRow
  malloc : ℕ → Option Bytes
  mallocSize : ∀ n rows, malloc n = some rows → rows.length = n

def scratchRows (mem : Scratch) (rowBytes : ℕ) : Option Bytes :=
  if rowBytes > stackRow then mem.malloc (4*rowBytes) else some mem.stackRows

/-- Where the row of a position starts; `& 3` keeps the last two bits. -/
def globRow (patternLen rowBytes i : ℕ) : ℕ := (patternLen-i)%4*rowBytes

def isSet (rows : Bytes) (at_ : ℕ) : Checked Bool := do
  let v ← load rows at_
  pure (decide (v ≠ 0))

def mark (v : Bool) : UInt8 := if v then 1 else 0

def baseRow (strLen row : ℕ) : ℕ → Bytes → Checked Bytes
  | 0, rows => pure rows
  | j+1, rows => do
    let rows ← baseRow strLen row j rows
    store rows (row+j) (mark (decide (j = strLen)))

def fillRow (cell : Bytes → ℕ → Checked Bool) (cur : ℕ) : ℕ → Bytes → Checked Bytes
  | 0, rows => pure rows
  | j+1, rows => do
    let v ← cell rows j
    let rows ← store rows (cur+j) (mark v)
    fillRow cell cur j rows

def globstarCell (str : Bytes) (cur rest : ℕ) (rows : Bytes) (j : ℕ) : Checked Bool := do
  let v ← isSet rows (rest+j)
  if v then pure true
  else if j < str.length then isSet rows (cur+(j+1))
  else pure false

def starCell (str : Bytes) (cur next : ℕ) (rows : Bytes) (j : ℕ) : Checked Bool := do
  let v ← isSet rows (next+j)
  if v then pure true
  else if j < str.length then do
    let c ← load str j
    if c ≠ slash then isSet rows (cur+(j+1)) else pure false
  else pure false

def questionCell (str : Bytes) (next : ℕ) (rows : Bytes) (j : ℕ) : Checked Bool :=
  if j < str.length then do
    let c ← load str j
    if c ≠ slash then isSet rows (next+(j+1)) else pure false
  else pure false

def readsByte (bytes : Bytes) (at_ : ℕ) (c : UInt8) : Checked Bool :=
  if at_ < bytes.length then do
    let b ← load bytes at_
    pure (decide (b = c))
  else pure false

def skipSlash (pattern : Bytes) (rest : ℕ) : Checked ℕ := do
  let hit ← readsByte pattern rest slash
  pure (if hit then rest+1 else rest)

def literalCell (pattern str : Bytes) (pc : UInt8) (i : ℕ) (rows : Bytes) (j : ℕ) :
    Checked Bool := do
  let equal ← readsByte str j pc
  if equal then isSet rows (globRow pattern.length (str.length+1) (i+1)+(j+1))
  else if pc = slash ∧ i+2 < pattern.length then do
    let c1 ← load pattern (i+1)
    let c2 ← load pattern (i+2)
    if c1 = star ∧ c2 = star then do
      let rest ← skipSlash pattern (i+3)
      isSet rows (globRow pattern.length (str.length+1) rest+j)
    else pure false
  else pure false

def globPosition (pattern str : Bytes) (i : ℕ) (rows : Bytes) : Checked Bytes := do
  let pc ← load pattern i
  let rowBytes := str.length+1
  let cur := globRow pattern.length rowBytes i
  let next := globRow pattern.length rowBytes (i+1)
  if pc = star then do
    let double ← readsByte pattern (i+1) star
    if double then do
      let rest ← skipSlash pattern (i+2)
      fillRow (globstarCell str cur (globRow pattern.length rowBytes rest)) cur rowBytes rows
    else fillRow (starCell str cur next) cur rowBytes rows
  else if pc = question then fillRow (questionCell str next) cur rowBytes rows
  else fillRow (literalCell pattern str pc i) cur rowBytes rows

def globPositions (pattern str : Bytes) : ℕ → Bytes → Checked Bytes
  | 0, rows => pure rows
  | i+1, rows => do
    let rows ← globPosition pattern str i rows
    globPositions pattern str i rows

def globMatch (mem : Scratch) (pattern str : Bytes) : Checked Bool :=
  if pattern.length = 0 then pure (decide (str.length = 0))
  -- past the first test the product of the second one fits a `size_t`
  else if str.length > sizeMax/(pattern.length+1)-1 then pure false
  else if (pattern.length+1)*(str.length+1) > workCap then pure false
  else match scratchRows mem (str.length+1) with
    | none => pure false
    | some rows => do
      let row := globRow pattern.length (str.length+1)
      let rows ← baseRow str.length (row pattern.length) (str.length+1) rows
      let rows ← globPositions pattern str pattern.length rows
      isSet rows (row 0)

section Rows

/-- The columns from `n` on of the row at `cur` hold their marks, the rest of
the memory is as before. -/
structure Written (cur width : ℕ) (holds : ℕ → Prop) (rows : Bytes) (n : ℕ) (rows' : Bytes) :
    Prop where
  length : rows'.length = rows.length
  others : ∀ q, q < cur+n ∨ cur+width ≤ q → rows'[q]? = rows[q]?
  marks : ∀ j, n ≤ j → j < width → ∃ v, rows'[cur+j]? = some v ∧ (v ≠ 0 ↔ holds j)

variable {cur width : ℕ} {holds : ℕ → Prop} {rows : Bytes}

theorem mark_ne_zero {v : Bool} : mark v ≠ 0 ↔ v = true := by
  cases v <;> decide

theorem isSet_done {at_ : ℕ} {v : UInt8} {P : Prop} (h : rows[at_]? = some v) (hv : v ≠ 0 ↔ P) :
    ∃ b, isSet rows at_ = .done b ∧ (b = true ↔ P) := by
  refine ⟨decide (v ≠ 0),?_,by rw [decide_eq_true_iff,hv]⟩
  rw [isSet,load_eq_done.mpr h]
  rfl

theorem readsByte_done (bytes : Bytes) (at_ : ℕ) (c : UInt8) :
    readsByte bytes at_ c = .done (decide (bytes[at_]? = some c)) := by
  unfold readsByte
  by_cases h : at_ < bytes.length
  · simp [h,load_done h]
  · simp [h]

theorem skipSlash_done (pattern : Bytes) (rest : ℕ) :
    skipSlash pattern rest = .done (afterStars pattern rest) := by
  simp [skipSlash,readsByte_done,afterStars]

theorem written_store {rows' : Bytes} {n : ℕ} {v : Bool}
    (hcur : cur+width ≤ rows.length) (h : Written cur width holds rows (n+1) rows')
    (hn : n < width) (hv : v = true ↔ holds n) :
    Written cur width holds rows n (rows'.set (cur+n) (mark v)) := by
  have hlen : cur+n < rows'.length := by
    rw [h.length]
    omega
  constructor
  · rw [List.length_set,h.length]
  · intro q hq
    rw [List.getElem?_set_ne (by omega),h.others q (by omega)]
  · intro j hj hw
    by_cases hjn : j = n
    · subst hjn
      exact ⟨mark v,List.getElem?_set_self hlen,mark_ne_zero.trans hv⟩
    · rw [List.getElem?_set_ne (by omega)]
      exact h.marks j (by omega) hw

theorem fillRow_written {cell : Bytes → ℕ → Checked Bool} (hcur : cur+width ≤ rows.length)
    (hcell : ∀ j < width, ∀ rows', Written cur width holds rows (j+1) rows' →
      ∃ v, cell rows' j = .done v ∧ (v = true ↔ holds j))
    {n : ℕ} (hn : n ≤ width) (rows' : Bytes) (h : Written cur width holds rows n rows') :
    ∃ rows'', fillRow cell cur n rows' = .done rows'' ∧ Written cur width holds rows 0 rows'' := by
  induction n generalizing rows' with
  | zero => exact ⟨rows',rfl,h⟩
  | succ n ih =>
    obtain ⟨v,hv,hholds⟩ := hcell n (by omega) rows' h
    have hlen : cur+n < rows'.length := by
      rw [h.length]
      omega
    rw [fillRow,hv,done_bind,store_done hlen,done_bind]
    exact ih (by omega) _ (written_store hcur h (by omega) hholds)

theorem written_none {rows : Bytes} : Written cur width holds rows width rows := by
  constructor
  · rfl
  · intro q _
    rfl
  · intro j h1 h2
    omega

theorem baseRow_written {strLen : ℕ} (hcur : cur+(strLen+1) ≤ rows.length) {n : ℕ}
    (hn : n ≤ strLen+1) : ∃ rows', baseRow strLen cur n rows = .done rows' ∧
      rows'.length = rows.length ∧ ∀ j < n, ∃ v, rows'[cur+j]? = some v ∧ (v ≠ 0 ↔ j = strLen) := by
  induction n with
  | zero => exact ⟨rows,rfl,rfl,fun j hj => by omega⟩
  | succ n ih =>
    obtain ⟨rows',hrows,hlen,hmarks⟩ := ih (by omega)
    have hin : cur+n < rows'.length := by omega
    rw [baseRow,hrows,done_bind,store_done hin]
    refine ⟨_,rfl,by rw [List.length_set,hlen],fun j hj => ?_⟩
    by_cases hjn : j = n
    · subst hjn
      exact ⟨_,List.getElem?_set_self hin,mark_ne_zero.trans (by simp)⟩
    · rw [List.getElem?_set_ne (by omega)]
      exact hmarks j (by omega)

end Rows

section Positions
variable (p s : Bytes)

/-- The rows of the positions from `i` on that are still kept. -/
structure Kept (i : ℕ) (rows : Bytes) : Prop where
  length : 4*(s.length+1) ≤ rows.length
  marks : ∀ k, i ≤ k → k ≤ i+3 → k ≤ p.length → ∀ j, j ≤ s.length →
    ∃ v, rows[globRow p.length (s.length+1) k+j]? = some v ∧ (v ≠ 0 ↔ Matches p s k j)

variable {p s}

theorem globRow_fits {w n i : ℕ} : globRow n w i+w ≤ 4*w := by
  have h : (n-i)%4 ≤ 3 := by omega
  calc (n-i)%4*w+w ≤ 3*w+w := Nat.add_le_add_right (Nat.mul_le_mul_right w h) w
    _ = 4*w := by omega

theorem globRow_apart (w n : ℕ) {i k : ℕ} (hik : i < k) (hk : k ≤ i+3) (hn : k ≤ n) :
    globRow n w k+w ≤ globRow n w i ∨ globRow n w i+w ≤ globRow n w k := by
  have hne : (n-k)%4 ≠ (n-i)%4 := by omega
  rcases Nat.lt_or_gt_of_ne hne with h | h
  · left
    calc (n-k)%4*w+w = ((n-k)%4+1)*w := (Nat.succ_mul _ w).symm
      _ ≤ (n-i)%4*w := Nat.mul_le_mul_right w h
  · right
    calc (n-i)%4*w+w = ((n-i)%4+1)*w := (Nat.succ_mul _ w).symm
      _ ≤ (n-k)%4*w := Nat.mul_le_mul_right w h

theorem globRow_again {w n i : ℕ} (h : i+4 ≤ n) : globRow n w (i+4) = globRow n w i := by
  unfold globRow
  have : (n-(i+4))%4 = (n-i)%4 := by omega
  rw [this]

theorem afterStars_le {k : ℕ} (h : k ≤ p.length) : afterStars p k ≤ p.length := by
  unfold afterStars
  by_cases hs : p[k]? = some slash
  · have := (List.getElem?_eq_some_iff.mp hs).1
    rw [if_pos hs]
    omega
  · rwa [if_neg hs]

theorem afterStars_bounds (k : ℕ) : k ≤ afterStars p k ∧ afterStars p k ≤ k+1 := by
  unfold afterStars
  by_cases hs : p[k]? = some slash <;> simp [hs]

variable {i j : ℕ} {rows rows' : Bytes}

/-- While the row of `i` is being filled, the rows of the three positions after
it are intact, and so are the columns of the fourth one not yet overwritten. -/
theorem kept_while (h : Kept p s (i+1) rows)
    (hw : Written (globRow p.length (s.length+1) i) (s.length+1) (Matches p s i) rows (j+1) rows')
    {k c : ℕ} (hk : i < k) (hk4 : k ≤ i+4) (hkn : k ≤ p.length) (hc : c ≤ s.length)
    (hcj : k = i+4 → c ≤ j) :
    ∃ b, isSet rows' (globRow p.length (s.length+1) k+c) = .done b ∧
      (b = true ↔ Matches p s k c) := by
  obtain ⟨v,hv,hm⟩ := h.marks k (by omega) (by omega) hkn c hc
  apply isSet_done _ hm
  rw [hw.others,hv]
  by_cases h4 : k = i+4
  · subst h4
    rw [globRow_again hkn]
    omega
  · have := globRow_apart (s.length+1) p.length hk (by omega) hkn
    omega

theorem written_ahead
    (hw : Written (globRow p.length (s.length+1) i) (s.length+1) (Matches p s i) rows (j+1) rows')
    (hj : j < s.length) :
    ∃ b, isSet rows' (globRow p.length (s.length+1) i+(j+1)) = .done b ∧
      (b = true ↔ Matches p s i (j+1)) := by
  obtain ⟨v,hv,hm⟩ := hw.marks (j+1) (Nat.le_refl _) (by omega)
  exact isSet_done hv hm

section Cells
variable (hkept : Kept p s (i+1) rows)
  (hw : Written (globRow p.length (s.length+1) i) (s.length+1) (Matches p s i) rows (j+1) rows')
include hkept hw

theorem globstarCell_done (hj : j < s.length+1) (hi : p[i]? = some star) (hn : p[i+1]? = some star) :
    ∃ v, globstarCell s (globRow p.length (s.length+1) i)
        (globRow p.length (s.length+1) (afterStars p (i+2))) rows' j = .done v ∧
      (v = true ↔ Matches p s i j) := by
  have hn2 := (List.getElem?_eq_some_iff.mp hn).1
  have hb := afterStars_bounds (p := p) (i+2)
  obtain ⟨a,ha,hma⟩ := kept_while hkept hw (k := afterStars p (i+2)) (c := j) (by omega) (by omega)
    (afterStars_le (by omega)) (by omega) (by omega)
  rw [globstarCell,ha,done_bind,globstar_column hi hn (by omega),← hma]
  by_cases hat : a = true
  · exact ⟨true,by simp [hat],by simp [hat]⟩
  by_cases hlt : j < s.length
  · obtain ⟨b,hb,hmb⟩ := written_ahead hw hlt
    rw [← hmb]
    exact ⟨b,by simp [hat,hlt,hb],by simp [hat,hlt]⟩
  · exact ⟨false,by simp [hat,hlt],by simp [hat,hlt]⟩

theorem starCell_done (hj : j < s.length+1) (hi : p[i]? = some star) (hn : p[i+1]? ≠ some star) :
    ∃ v, starCell s (globRow p.length (s.length+1) i) (globRow p.length (s.length+1) (i+1))
        rows' j = .done v ∧ (v = true ↔ Matches p s i j) := by
  have hin := (List.getElem?_eq_some_iff.mp hi).1
  obtain ⟨a,ha,hma⟩ := kept_while hkept hw (k := i+1) (c := j) (by omega) (by omega) (by omega)
    (by omega) (by omega)
  rw [starCell,ha,done_bind,star_column hi hn (by omega),← hma]
  by_cases hat : a = true
  · exact ⟨true,by simp [hat],by simp [hat]⟩
  by_cases hlt : j < s.length
  · obtain ⟨b,hb,hmb⟩ := written_ahead hw hlt
    by_cases hs : s[j] = slash
    · exact ⟨false,by simp [hat,hlt,load_done,hs],by simp [hat,hlt,hs]⟩
    · rw [← hmb]
      exact ⟨b,by simp [hat,hlt,load_done,hs,hb],by simp [hat,hlt,hs]⟩
  · exact ⟨false,by simp [hat,hlt],by simp [hat,hlt]⟩

theorem questionCell_done (hi : p[i]? = some question) :
    ∃ v, questionCell s (globRow p.length (s.length+1) (i+1)) rows' j = .done v ∧
      (v = true ↔ Matches p s i j) := by
  have hin := (List.getElem?_eq_some_iff.mp hi).1
  rw [questionCell,matches_question hi]
  by_cases hlt : j < s.length
  · obtain ⟨b,hb,hmb⟩ := kept_while hkept hw (k := i+1) (c := j+1) (by omega) (by omega) (by omega)
      (by omega) (by omega)
    by_cases hs : s[j] = slash
    · exact ⟨false,by simp [hlt,load_done,hs],by simp [hlt,hs]⟩
    · exact ⟨b,by simp [hlt,load_done,hs,hb],by simp [hlt,hs,hmb]⟩
  · exact ⟨false,by simp [hlt],by simp [hlt]⟩

theorem literalCell_done {c : UInt8} (hj : j < s.length+1) (hi : p[i]? = some c) (hc : c ≠ star ∧ c ≠ question) :
    ∃ v, literalCell p s c i rows' j = .done v ∧ (v = true ↔ Matches p s i j) := by
  have hin := (List.getElem?_eq_some_iff.mp hi).1
  rw [literalCell,readsByte_done,done_bind]
  by_cases heq : s[j]? = some c
  · have hlt := (List.getElem?_eq_some_iff.mp heq).1
    obtain ⟨b,hb,hmb⟩ := kept_while hkept hw (k := i+1) (c := j+1) (by omega) (by omega) (by omega)
      (by omega) (by omega)
    rw [matches_equal hi hc heq]
    exact ⟨b,by simp [heq,hb],hmb⟩
  rw [matches_differing hi hc heq,decide_eq_false heq,if_neg Bool.false_ne_true]
  by_cases hslash : c = slash ∧ i+2 < p.length
  · have h1 : i+1 < p.length := by omega
    rw [if_pos hslash,load_done h1,done_bind,load_done hslash.2,done_bind,
      List.getElem?_eq_getElem h1,List.getElem?_eq_getElem hslash.2]
    by_cases hstars : p[i+1] = star ∧ p[i+2] = star
    · have hb := afterStars_bounds (p := p) (i+3)
      -- the row read here may be the one being written: its column `j` is still old
      obtain ⟨b,hb,hmb⟩ := kept_while hkept hw (k := afterStars p (i+3)) (c := j) (by omega)
        (by omega) (afterStars_le (by omega)) (by omega) (by omega)
      rw [if_pos hstars,skipSlash_done,done_bind]
      exact ⟨b,hb,by simp [hslash.1,hstars,hmb]⟩
    · rw [if_neg hstars]
      refine ⟨false,rfl,?_⟩
      simp only [Bool.false_eq_true,false_iff]
      rintro ⟨_,h2,h3,_⟩
      exact hstars ⟨Option.some.inj h2,Option.some.inj h3⟩
  · rw [if_neg hslash]
    refine ⟨false,rfl,?_⟩
    simp only [Bool.false_eq_true,false_iff]
    rintro ⟨h1,_,h2,_⟩
    exact hslash ⟨h1,(List.getElem?_eq_some_iff.mp h2).1⟩

end Cells

theorem globPosition_fills (hi : i < p.length) (h : Kept p s (i+1) rows) :
    ∃ rows', globPosition p s i rows = .done rows' ∧
      Written (globRow p.length (s.length+1) i) (s.length+1) (Matches p s i) rows 0 rows' := by
  have hfill := fun (cell : Bytes → ℕ → Checked Bool)
    (hcell : ∀ j < s.length+1, ∀ rows',
      Written (globRow p.length (s.length+1) i) (s.length+1) (Matches p s i) rows (j+1) rows' →
      ∃ v, cell rows' j = .done v ∧ (v = true ↔ Matches p s i j)) =>
    fillRow_written (Nat.le_trans globRow_fits h.length) hcell (Nat.le_refl _) rows written_none
  have hget := List.getElem?_eq_getElem hi
  rw [globPosition,load_done hi,done_bind]
  by_cases hstar : p[i] = star
  · rw [hstar] at hget
    rw [if_pos hstar,readsByte_done,done_bind]
    by_cases hdouble : p[i+1]? = some star
    · rw [decide_eq_true hdouble,if_pos rfl,skipSlash_done,done_bind]
      exact hfill _ fun j hj rows' hw => globstarCell_done h hw hj hget hdouble
    · rw [decide_eq_false hdouble,if_neg Bool.false_ne_true]
      exact hfill _ fun j hj rows' hw => starCell_done h hw hj hget hdouble
  rw [if_neg hstar]
  by_cases hquestion : p[i] = question
  · rw [hquestion] at hget
    rw [if_pos hquestion]
    exact hfill _ fun j _ rows' hw => questionCell_done h hw hget
  · rw [if_neg hquestion]
    exact hfill _ fun j hj rows' hw => literalCell_done h hw hj hget ⟨hstar,hquestion⟩

theorem kept_step (hi : i < p.length) (h : Kept p s (i+1) rows)
    (hw : Written (globRow p.length (s.length+1) i) (s.length+1) (Matches p s i) rows 0 rows') :
    Kept p s i rows' := by
  constructor
  · rw [hw.length]
    exact h.length
  · intro k hik hk hkn j hj
    by_cases hki : k = i
    · subst hki
      exact hw.marks j (Nat.zero_le _) (by omega)
    · obtain ⟨v,hv,hm⟩ := h.marks k (by omega) (by omega) hkn j hj
      refine ⟨v,?_,hm⟩
      have := globRow_apart (s.length+1) p.length (i := i) (k := k) (by omega) hk hkn
      rw [hw.others _ (by omega),hv]

theorem globPositions_kept {n : ℕ} (hn : n ≤ p.length) (rows : Bytes) (h : Kept p s n rows) :
    ∃ rows', globPositions p s n rows = .done rows' ∧ Kept p s 0 rows' := by
  induction n generalizing rows with
  | zero => exact ⟨rows,rfl,h⟩
  | succ n ih =>
    obtain ⟨rows',hrows,hw⟩ := globPosition_fills (by omega) h
    rw [globPositions,hrows,done_bind]
    exact ih (by omega) rows' (kept_step (by omega) h hw)

theorem kept_base {rows : Bytes} (hlen : 4*(s.length+1) ≤ rows.length) :
    ∃ rows', baseRow s.length (globRow p.length (s.length+1) p.length) (s.length+1) rows =
      .done rows' ∧ Kept p s p.length rows' := by
  obtain ⟨rows',hrows,hlen',hmarks⟩ := baseRow_written
    (Nat.le_trans globRow_fits hlen) (Nat.le_refl _)
  refine ⟨rows',hrows,by omega,fun k h1 _ h3 j hj => ?_⟩
  obtain ⟨v,hv,hm⟩ := hmarks j (by omega)
  have hk : k = p.length := by omega
  rw [hk,matches_end]
  exact ⟨v,hv,hm⟩

end Positions

theorem scratchRows_length {mem : Scratch} {w : ℕ} {rows : Bytes}
    (h : scratchRows mem w = some rows) : 4*w ≤ rows.length := by
  unfold scratchRows at h
  by_cases hw : w > stackRow
  · rw [if_pos hw] at h
    rw [mem.mallocSize _ _ h]
  · rw [if_neg hw,Option.some.injEq] at h
    rw [← h,mem.stackSize]
    omega

theorem globMatch_language {mem : Scratch} {p s : Bytes}
    (hcap : (p.length+1)*(s.length+1) ≤ workCap)
    (halloc : stackRow < s.length+1 → mem.malloc (4*(s.length+1)) ≠ none) :
    ∃ b, globMatch mem p s = .done b ∧ (b = true ↔ Matches p s 0 0) := by
  unfold globMatch
  by_cases hp : p.length = 0
  · rw [if_pos hp]
    refine ⟨_,rfl,?_⟩
    have hend : Matches p s p.length 0 ↔ 0 = s.length := matches_end
    rw [hp] at hend
    rw [hend,decide_eq_true_iff,eq_comm]
  have hsize : ¬s.length > sizeMax/(p.length+1)-1 := by
    have hle : s.length+1 ≤ sizeMax/(p.length+1) := by
      rw [Nat.le_div_iff_mul_le (by omega),Nat.mul_comm]
      exact Nat.le_trans hcap (by decide)
    omega
  rw [if_neg hp,if_neg hsize,if_neg (by omega)]
  cases hrows : scratchRows mem (s.length+1) with
  | none =>
    unfold scratchRows at hrows
    by_cases hw : s.length+1 > stackRow
    · rw [if_pos hw] at hrows
      exact absurd hrows (halloc hw)
    · rw [if_neg hw] at hrows
      cases hrows
  | some rows =>
    obtain ⟨rows1,hbase,hkept⟩ := kept_base (p := p) (scratchRows_length hrows)
    obtain ⟨rows2,hfilled,hkept⟩ := globPositions_kept (Nat.le_refl _) rows1 hkept
    obtain ⟨v,hv,hm⟩ := hkept.marks 0 (Nat.le_refl _) (by omega) (by omega) 0 (by omega)
    obtain ⟨b,hb,hmb⟩ := isSet_done hv hm
    refine ⟨b,?_,hmb⟩
    simp only [hbase,hfilled,done_bind]
    exact hb

/-- Below the work cap the matcher never leaves its rows and decides the
language, whatever the memory held before. -/
theorem globMatch_decides (mem : Scratch) (p s : Bytes)
    (hcap : (p.length+1)*(s.length+1) ≤ workCap)
    (halloc : stackRow < s.length+1 → mem.malloc (4*(s.length+1)) ≠ none) :
    (∃ b, globMatch mem p s = .done b) ∧
      (globMatch mem p s = .done true ↔ Matches p s 0 0) := by
  obtain ⟨b,hb,hm⟩ := globMatch_language hcap halloc
  rw [hb,Checked.done.injEq]
  exact ⟨⟨b,rfl⟩,hm⟩

def plainScratch : Scratch where
  stackRows := List.replicate (4*stackRow) 0
  stackSize := List.length_replicate
  malloc := fun _ => none
  mallocSize := fun _ _ h => by cases h

/-- The pattern `a/**/b` and the string `a/b`. -/
theorem globMatch_decides_nested :
    (∃ b, globMatch plainScratch [97,slash,star,star,slash,98] [97,slash,98] = .done b) ∧
      (globMatch plainScratch [97,slash,star,star,slash,98] [97,slash,98] = .done true ↔
        Matches [97,slash,star,star,slash,98] [97,slash,98] 0 0) :=
  globMatch_decides plainScratch _ _ (by decide) fun h => absurd h (by decide)

end FastSync.GlobMatch
