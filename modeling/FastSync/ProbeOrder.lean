import Mathlib.Data.List.Basic
import Mathlib.Logic.Function.Basic

/-!
# Probing with eviction

A table holds one key in each of its first `n` places, or the mark for an empty
place. Every key has an order in which its places are tried. A search stops at
the key or at the first empty place; when there is none the first place that can
be spared is remembered, and the key may take it over.
-/

set_option autoImplicit false

namespace FastSync.ProbeOrder

variable {κ : Type}

def lookup [DecidableEq κ] (keys : ℕ → κ) (empty key : κ) : List ℕ → Option ℕ
  | [] => none
  | i::rest =>
    if keys i = key then some i
    else if keys i = empty then none
    else lookup keys empty key rest

inductive Scan where
  | own (i : ℕ)
  | free (i : ℕ)
  | full (spare : Option ℕ)

def scan [DecidableEq κ] (keys : ℕ → κ) (empty key : κ) (spare : ℕ → Bool) :
    List ℕ → Option ℕ → Scan
  | [], kept => .full kept
  | i::rest, kept =>
    if keys i = key then .own i
    else if keys i = empty then .free i
    else scan keys empty key spare rest (if kept.isNone && spare i then some i else kept)

/-- Every key is found in its order before an empty place is, and stands once. -/
structure Chained (order : κ → List ℕ) (empty : κ) (n : ℕ) (keys : ℕ → κ) : Prop where
  reached : ∀ i < n, keys i ≠ empty →
    ∃ pre post, order (keys i) = pre++i::post ∧ ∀ j ∈ pre, keys j ≠ empty
  unique : ∀ i < n, ∀ j < n, keys i ≠ empty → keys i = keys j → i = j

def Passed (keys : ℕ → κ) (empty key : κ) (places : List ℕ) : Prop :=
  ∀ j ∈ places, keys j ≠ key ∧ keys j ≠ empty

variable {i : ℕ} {pre post : List ℕ}

section Search
variable {keys : ℕ → κ} {empty key : κ}

theorem passed_nil : Passed keys empty key [] := by
  intro j hj
  cases hj

theorem passed_cons {rest : List ℕ} (hk : keys i ≠ key) (he : keys i ≠ empty)
    (h : Passed keys empty key rest) : Passed keys empty key (i::rest) := by
  intro j hj
  rcases List.mem_cons.mp hj with rfl | hj
  · exact ⟨hk,he⟩
  · exact h j hj

variable [DecidableEq κ]

theorem lookup_some {places : List ℕ} (h : lookup keys empty key places = some i) :
    i ∈ places ∧ keys i = key := by
  induction places with
  | nil => cases h
  | cons j rest ih =>
    rw [lookup] at h
    split_ifs at h with hk he
    · cases h
      exact ⟨List.mem_cons_self,hk⟩
    · exact ⟨List.mem_cons_of_mem j (ih h).1,(ih h).2⟩

theorem lookup_reaches (hi : keys i = key)
    (hpre : ∀ j ∈ pre, keys j ≠ empty) (hown : ∀ j ∈ pre, keys j = key → j = i) :
    lookup keys empty key (pre++i::post) = some i := by
  induction pre with
  | nil => rw [List.nil_append, lookup, if_pos hi]
  | cons j pre ih =>
    rw [List.cons_append, lookup]
    by_cases hj : keys j = key
    · rw [if_pos hj, hown j List.mem_cons_self hj]
    · rw [if_neg hj, if_neg (hpre j List.mem_cons_self)]
      exact ih (fun k hk => hpre k (List.mem_cons_of_mem j hk))
        (fun k hk => hown k (List.mem_cons_of_mem j hk))

theorem lookup_stops (hkey : key ≠ empty) (hpre : Passed keys empty key pre) (hi : keys i = empty) :
    lookup keys empty key (pre++i::post) = none := by
  induction pre with
  | nil => rw [List.nil_append, lookup, if_neg (by rw [hi]; exact hkey.symm), if_pos hi]
  | cons j pre ih =>
    have hj := hpre j List.mem_cons_self
    rw [List.cons_append, lookup, if_neg hj.1, if_neg hj.2]
    exact ih (fun k hk => hpre k (List.mem_cons_of_mem j hk))

theorem scan_cases (spare : ℕ → Bool) (places : List ℕ) (kept : Option ℕ) :
    (∃ i ∈ places, keys i = key ∧ scan keys empty key spare places kept = .own i) ∨
    (∃ pre i post, places = pre++i::post ∧ Passed keys empty key pre ∧ keys i = empty ∧
      keys i ≠ key ∧ scan keys empty key spare places kept = .free i) ∨
    Passed keys empty key places ∧ ∃ kept',
      scan keys empty key spare places kept = .full kept' ∧
        (kept' = kept ∨ ∃ i ∈ places, kept' = some i ∧ spare i = true) := by
  induction places generalizing kept with
  | nil => exact Or.inr (Or.inr ⟨passed_nil,kept,rfl,Or.inl rfl⟩)
  | cons j rest ih =>
    by_cases hk : keys j = key
    · exact Or.inl ⟨j,List.mem_cons_self,hk,by rw [scan, if_pos hk]⟩
    by_cases he : keys j = empty
    · exact Or.inr (Or.inl ⟨[],j,rest,rfl,passed_nil,he,hk,
        by rw [scan, if_neg hk, if_pos he]⟩)
    rw [scan, if_neg hk, if_neg he]
    rcases ih (if kept.isNone && spare j then some j else kept) with
      ⟨i,hi,hik,hs⟩ | ⟨pre,i,post,rfl,hpre,hie,hik,hs⟩ | ⟨hpass,kept',hs,hkept⟩
    · exact Or.inl ⟨i,List.mem_cons_of_mem j hi,hik,hs⟩
    · exact Or.inr (Or.inl ⟨j::pre,i,post,rfl,passed_cons hk he hpre,hie,hik,hs⟩)
    apply Or.inr
    apply Or.inr
    apply And.intro (passed_cons hk he hpass)
    apply Exists.intro kept'
    apply And.intro hs
    rcases hkept with hkept | ⟨i,hi,hik,hsp⟩
    · by_cases hj : (kept.isNone && spare j) = true
      · rw [if_pos hj] at hkept
        exact .inr ⟨j,List.mem_cons_self,hkept,((Bool.and_eq_true _ _).mp hj).2⟩
      · rw [if_neg hj] at hkept
        exact .inl hkept
    · exact .inr ⟨i,List.mem_cons_of_mem j hi,hik,hsp⟩

end Search

section Table
variable {order : κ → List ℕ} {empty : κ} {n : ℕ} {keys : ℕ → κ}

theorem chained_empty : Chained order empty n (fun _ => empty) where
  reached := fun _ _ h => absurd rfl h
  unique := fun _ _ _ _ h => absurd rfl h

section
variable [DecidableEq κ] (h : Chained order empty n keys)
include h

theorem Chained.lookup_eq (horder : ∀ k, ∀ i ∈ order k, i < n) (hi : i < n) (he : keys i ≠ empty) :
    lookup keys empty (keys i) (order (keys i)) = some i := by
  obtain ⟨pre,post,hsplit,hpre⟩ := h.reached i hi he
  rw [hsplit]
  apply lookup_reaches rfl hpre
  intro j hj hji
  have hjn : j < n := horder (keys i) j (by rw [hsplit]; exact List.mem_append_left _ hj)
  exact (h.unique i hi j hjn he hji.symm).symm

theorem Chained.absent {key : κ} (horder : ∀ k, ∀ i ∈ order k, i < n) (hkey : key ≠ empty)
    (hsplit : order key = pre++i::post) (hpre : Passed keys empty key pre) (hi : keys i = empty) :
    ∀ j < n, keys j ≠ key := by
  intro j hj hjk
  have hfound := h.lookup_eq horder hj (by rwa [hjk])
  rw [hjk, hsplit] at hfound
  rw [lookup_stops hkey hpre hi] at hfound
  cases hfound

end

/-- A key that is nowhere in the table may be written to a place that its order
reaches without meeting an empty one. -/
theorem Chained.put (h : Chained order empty n keys) {key : κ}
    (hkey : key ≠ empty) (hsplit : order key = pre++i::post)
    (hpre : ∀ j ∈ pre, keys j ≠ empty) (habsent : ∀ j < n, keys j ≠ key) :
    Chained order empty n (Function.update keys i key) := by
  have hfull : ∀ j, keys j ≠ empty → Function.update keys i key j ≠ empty := by
    intro j hj
    by_cases hji : j = i
    · rw [hji, Function.update_self]
      exact hkey
    · rwa [Function.update_of_ne hji]
  constructor
  · intro j hj hje
    by_cases hji : j = i
    · subst hji
      rw [Function.update_self]
      exact ⟨pre,post,hsplit,fun k hk => hfull k (hpre k hk)⟩
    · rw [Function.update_of_ne hji] at hje ⊢
      obtain ⟨pre',post',hsplit',hpre'⟩ := h.reached j hj hje
      exact ⟨pre',post',hsplit',fun k hk => hfull k (hpre' k hk)⟩
  · intro j hj k hk hje hjk
    by_cases hji : j = i
    · by_cases hki : k = i
      · rw [hji, hki]
      · rw [hji, Function.update_self, Function.update_of_ne hki] at hjk
        exact absurd hjk.symm (habsent k hk)
    · rw [Function.update_of_ne hji] at hje hjk
      by_cases hki : k = i
      · rw [hki, Function.update_self] at hjk
        exact absurd hjk (habsent j hj)
      · rw [Function.update_of_ne hki] at hjk
        exact h.unique j hj k hk hje hjk

end Table

end FastSync.ProbeOrder
