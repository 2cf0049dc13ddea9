import FastSync.FilterParse

/-!
# The rules of one per-directory file

A file is read into a list that may hold rules already. What it appends gets its
owner, or is taken back, from the number of rules that were there before. A
clear line drops those rules, so that rules of the file come to stand below that
number: they keep no owner, and survive when the file fails.
-/

set_option autoImplicit false

namespace FastSync.FilterOwners
open DeletePaths (Bytes pathCat)
open FilterSyntax FilterRules FilterParse

def fromFile (list : FilterRuleList) : List FilterRule := list.items.drop list.inherited

def fromCaller (list : FilterRuleList) : List FilterRule := list.items.take list.inherited

/-- A list into which a file is being read, where `L` was there before. -/
structure Reading (L list : FilterRuleList) : Prop where
  held : list.inherited ≤ list.items.length
  kept : list.inherited = L.items.length ∨ list.inherited = 0
  caller : fromCaller list = L.items.take list.inherited
  unowned : ∀ rule ∈ fromFile list, rule.owner.getD [] = []
  names : L.dirMergeNames <+: list.dirMergeNames

variable {rule : FilterRule}

section Reading
variable {L : FilterRuleList}

theorem reading_start {L : FilterRuleList} : Reading L {L with inherited := L.items.length} := by
  refine ⟨Nat.le_refl _,.inl rfl,rfl,?_,List.prefix_refl _⟩
  simp [fromFile]

variable {list' : FilterRuleList}

section
variable {list : FilterRuleList}

theorem add_items (h : filterRuleListAdd list rule = some list') :
    list'.items = list.items++[rule] ∧ list'.inherited = list.inherited ∧
      list'.dirMergeNames = list.dirMergeNames := by
  unfold filterRuleListAdd at h
  split_ifs at h
  all_goals
    rw [Option.some.injEq] at h
    subst h
    exact ⟨rfl,rfl,rfl⟩

theorem reading_add (h : Reading L list) (hrule : Parsed rule)
    (hadd : filterRuleListAdd list rule = some list') : Reading L list' := by
  obtain ⟨hitems,hinherited,hnames⟩ := add_items hadd
  have hheld := h.held
  refine ⟨?_,?_,?_,?_,?_⟩
  · rw [hinherited, hitems, List.length_append]
    omega
  · rw [hinherited]
    exact h.kept
  · rw [fromCaller, hinherited, hitems, List.take_append_of_le_length hheld]
    exact h.caller
  · rw [fromFile, hinherited, hitems, List.drop_append_of_le_length hheld]
    intro x hx
    rcases List.mem_append.mp hx with hx | hx
    · exact h.unowned x hx
    · rw [List.mem_singleton.mp hx]
      exact hrule.owner
  · rw [hnames]
    exact h.names

theorem reading_clear (h : Reading L list) : Reading L (filterListClear list) := by
  refine ⟨Nat.le_refl _,.inr rfl,?_,?_,h.names⟩
  · simp [fromCaller, filterListClear]
  · simp [fromFile, filterListClear]

theorem reading_register {name : Bytes} (h : Reading L list)
    (hname : filterRuleListAddDirMerge list name = some list') : Reading L list' := by
  unfold filterRuleListAddDirMerge at hname
  split_ifs at hname
  · rw [Option.some.injEq] at hname
    exact hname ▸ h
  · rw [Option.some.injEq] at hname
    subst hname
    exact ⟨h.held,h.kept,h.caller,h.unowned,h.names.trans (List.prefix_append _ _)⟩

end

theorem reading_closed {L : FilterRuleList} : Closed (Reading L) where
  add := fun _ _ _ h hrule hadd => reading_add h hrule hadd
  clear := fun _ h => reading_clear h
  register := fun _ _ _ h hname => reading_register h hname

theorem readFilterFile_reading (files : Bytes → Option Bytes) (opts : Option FilterParseOptions)
    (dirPath name stream : Bytes) (L : FilterRuleList) :
    Reading L (readFilterFile files opts dirPath name stream L).list :=
  readLines_closed (parseAppend_closed files opts (some dirPath) reading_closed _) stream
    reading_start

end Reading

/-- On success the rules of the file have the owner and the others are rules of
the caller; on failure nothing of the file is left. -/
structure Isolated (L : FilterRuleList) (owner : Bytes) (result : FileAppended) : Prop where
  owned : result.failure = none → ∀ rule ∈ fromFile result.list, rule.owner.getD [] = owner
  others : result.failure = none → ∀ rule ∈ fromCaller result.list, rule ∈ L.items
  undone : result.failure ≠ none → fromFile result.list = []
  unregistered : result.failure ≠ none → result.list.dirMergeNames = L.dirMergeNames

section
variable {L : FilterRuleList} {owner : Bytes} {result : FileAppended}

theorem isolated_success (h : result.failure = none) :
    Isolated L owner result ↔ (∀ rule ∈ fromFile result.list, rule.owner.getD [] = owner) ∧
      ∀ rule ∈ fromCaller result.list, rule ∈ L.items := by
  constructor
  · intro hiso
    exact ⟨hiso.owned h,hiso.others h⟩
  · rintro ⟨howned,hothers⟩
    exact ⟨fun _ => howned,fun _ => hothers,fun hf => absurd h hf,fun hf => absurd h hf⟩

theorem isolated_failure (h : result.failure ≠ none) :
    Isolated L owner result ↔
      fromFile result.list = [] ∧ result.list.dirMergeNames = L.dirMergeNames := by
  constructor
  · intro hiso
    exact ⟨hiso.undone h,hiso.unregistered h⟩
  · rintro ⟨hundone,hnames⟩
    exact ⟨fun hf => absurd hf h,fun hf => absurd hf h,fun _ => hundone,fun _ => hnames⟩

end

section Outcome
variable {L list : FilterRuleList} {ownerRel : Option Bytes}

theorem setOwners_front (h : L.items.length ≤ list.items.length) :
    (setOwners list L.items.length ownerRel).items.drop L.items.length =
      (list.items.drop L.items.length).map (setRuleOwner ownerRel) ∧
    (setOwners list L.items.length ownerRel).items.take L.items.length =
      list.items.take L.items.length := by
  have hlen : (list.items.take L.items.length).length = L.items.length := by
    rw [List.length_take]
    omega
  constructor
  · rw [setOwners, List.drop_append_of_le_length (Nat.le_of_eq hlen.symm),
      List.drop_of_length_le (Nat.le_of_eq hlen), List.nil_append]
  · rw [setOwners, List.take_append_of_le_length (Nat.le_of_eq hlen.symm), List.take_take,
      Nat.min_self]

theorem setRuleOwner_owner {rules : List FilterRule}
    (h : rule ∈ rules.map (setRuleOwner ownerRel)) : rule.owner.getD [] = ownerRel.getD [] := by
  obtain ⟨x,_,rfl⟩ := List.mem_map.mp h
  rfl

/-- Rules below the count keep no owner; that matters only after a clear line
and for an owner that is not the root. -/
theorem fromFile_setOwners (h : Reading L list) :
    (∀ rule ∈ fromFile (setOwners list L.items.length ownerRel),
      rule.owner.getD [] = ownerRel.getD []) ↔
    list.inherited = L.items.length ∨ list.items = [] ∨ ownerRel.getD [] = [] := by
  have hheld := h.held
  by_cases hall : list.inherited = L.items.length
  · rw [hall] at hheld
    have hfile : fromFile (setOwners list L.items.length ownerRel) =
        (list.items.drop L.items.length).map (setRuleOwner ownerRel) := by
      rw [fromFile, ← (setOwners_front hheld).1, ← hall]
      rfl
    rw [hfile]
    exact ⟨fun _ => Or.inl hall,fun _ rule hrule => setRuleOwner_owner hrule⟩
  · have hnone : list.inherited = 0 := h.kept.resolve_left hall
    have hunowned := h.unowned
    have hfile : fromFile (setOwners list L.items.length ownerRel) =
        list.items.take L.items.length++
          (list.items.drop L.items.length).map (setRuleOwner ownerRel) := by
      rw [fromFile, setOwners, hnone, List.drop_zero]
    rw [fromFile, hnone, List.drop_zero] at hunowned
    rw [hfile]
    constructor
    · intro howned
      cases hitems : list.items with
      | nil => exact .inr (.inl rfl)
      | cons first rest =>
        have hmem : first ∈ list.items.take L.items.length := by
          rw [hitems, List.take_cons (by omega)]
          exact List.mem_cons_self
        have hfirst := howned first (List.mem_append_left _ hmem)
        rw [hunowned first (List.mem_of_mem_take hmem)] at hfirst
        exact .inr (.inr hfirst.symm)
    · intro hcond rule hrule
      rcases List.mem_append.mp hrule with hrule | hrule
      · rcases hcond with hcond | hcond | hcond
        · exact absurd hcond hall
        · rw [hcond] at hrule
          simp at hrule
        · rw [hunowned rule (List.mem_of_mem_take hrule), hcond]
      · exact setRuleOwner_owner hrule

theorem fromCaller_setOwners (h : Reading L list) :
    ∀ rule ∈ fromCaller (setOwners list L.items.length ownerRel), rule ∈ L.items := by
  intro rule hrule
  have hheld := h.held
  have hcaller := h.caller
  unfold fromCaller at hrule hcaller
  rcases h.kept with hall | hnone
  · rw [hall] at hheld hcaller
    rw [show (setOwners list L.items.length ownerRel).inherited = L.items.length from hall,
      (setOwners_front hheld).2, hcaller] at hrule
    exact List.mem_of_mem_take hrule
  · rw [show (setOwners list L.items.length ownerRel).inherited = 0 from hnone] at hrule
    simp at hrule

/-- What the rollback leaves is of the file exactly when a clear line went before it. -/
theorem fromFile_rollback (h : Reading L list) (names : ℕ) :
    fromFile (filterFileRollback list L.items.length names) = [] ↔
      list.inherited = L.items.length ∨ list.items = [] := by
  unfold fromFile filterFileRollback
  rw [List.drop_eq_nil_iff, List.length_take]
  rcases h.kept with hall | hnone
  · rw [hall]
    constructor
    · exact fun _ => Or.inl rfl
    · omega
  · rw [hnone]
    constructor
    · intro hle
      cases hitems : list.items with
      | nil => exact .inr rfl
      | cons first rest =>
        rw [hitems, List.length_cons] at hle
        omega
    · rintro (h0 | h0)
      · omega
      · rw [h0]
        simp

end Outcome

def ownedElsewhere : FilterRuleList :=
  ⟨[⟨.exclude,3,false,false,false,false,some (ascii "x"),some (ascii "o")⟩],8,[],0⟩

end FastSync.FilterOwners
