import FastSync.DeletePaths

/-!
# The language of glob patterns

A pattern is read from left to right. A question mark stands for one byte other
than a slash, a star for a run of such bytes, and two stars for any run; two
stars swallow a slash that follows them, and a slash in front of them may stand
for nothing. Positions are counted in the whole pattern and the whole string.
-/

set_option autoImplicit false

namespace FastSync.GlobLanguage
open DeletePaths

def star : UInt8 := 42
def question : UInt8 := 63

/-- Where the pattern goes on after two stars that end before `i`. -/
def afterStars (p : Bytes) (i : ℕ) : ℕ := if p[i]? = some slash then i+1 else i

inductive Matches (p s : Bytes) : ℕ → ℕ → Prop where
  | finish {i j : ℕ} (hi : i = p.length) (hj : j = s.length) : Matches p s i j
  | globstar {i j : ℕ} (k : ℕ) (hi : p[i]? = some star) (hn : p[i+1]? = some star) (hjk : j ≤ k)
      (hk : k ≤ s.length) (h : Matches p s (afterStars p (i+2)) k) : Matches p s i j
  | star {i j : ℕ} (k : ℕ) (hi : p[i]? = some star) (hn : p[i+1]? ≠ some star) (hjk : j ≤ k)
      (hk : k ≤ s.length) (hs : ∀ t, j ≤ t → t < k → s[t]? ≠ some slash)
      (h : Matches p s (i+1) k) : Matches p s i j
  | question {i j : ℕ} {b : UInt8} (hi : p[i]? = some question) (hj : s[j]? = some b)
      (hb : b ≠ slash) (h : Matches p s (i+1) (j+1)) : Matches p s i j
  | literal {i j : ℕ} {c : UInt8} (hi : p[i]? = some c) (hc : c ≠ star ∧ c ≠ question)
      (hj : s[j]? = some c) (h : Matches p s (i+1) (j+1)) : Matches p s i j
  | noDirectories {i j : ℕ} (hi : p[i]? = some slash) (h1 : p[i+1]? = some star)
      (h2 : p[i+2]? = some star) (hj : s[j]? ≠ some slash)
      (h : Matches p s (afterStars p (i+3)) j) : Matches p s i j

section Inversion
variable {p s : Bytes} {i j : ℕ}

theorem inside {c : UInt8} (h : p[i]? = some c) : i ≠ p.length := by
  rintro rfl
  simp at h

theorem matches_end : Matches p s p.length j ↔ j = s.length := by
  constructor
  · intro h
    cases h <;> simp_all
  · intro h
    exact .finish rfl h

theorem matches_globstar (hi : p[i]? = some star) (hn : p[i+1]? = some star) :
    Matches p s i j ↔ ∃ k, j ≤ k ∧ k ≤ s.length ∧ Matches p s (afterStars p (i+2)) k := by
  constructor
  · intro h
    cases h with
    | finish hi' _ => exact absurd hi' (inside hi)
    | globstar k _ _ hjk hk h => exact ⟨k,hjk,hk,h⟩
    | star k _ hn' _ _ _ _ => exact absurd hn hn'
    | question hi' _ _ _ | noDirectories hi' _ _ _ _ => exact absurd (hi.symm.trans hi') (by decide)
    | literal hi' hc _ _ => exact absurd (Option.some.inj (hi'.symm.trans hi)) hc.1
  · rintro ⟨k,hjk,hk,h⟩
    exact .globstar k hi hn hjk hk h

theorem matches_star (hi : p[i]? = some star) (hn : p[i+1]? ≠ some star) :
    Matches p s i j ↔ ∃ k, j ≤ k ∧ k ≤ s.length ∧
      (∀ t, j ≤ t → t < k → s[t]? ≠ some slash) ∧ Matches p s (i+1) k := by
  constructor
  · intro h
    cases h with
    | finish hi' _ => exact absurd hi' (inside hi)
    | globstar k _ hn' _ _ _ => exact absurd hn' hn
    | star k _ _ hjk hk hs h => exact ⟨k,hjk,hk,hs,h⟩
    | question hi' _ _ _ | noDirectories hi' _ _ _ _ => exact absurd (hi.symm.trans hi') (by decide)
    | literal hi' hc _ _ => exact absurd (Option.some.inj (hi'.symm.trans hi)) hc.1
  · rintro ⟨k,hjk,hk,hs,h⟩
    exact .star k hi hn hjk hk hs h

theorem matches_question (hi : p[i]? = some question) :
    Matches p s i j ↔ ∃ b, s[j]? = some b ∧ b ≠ slash ∧ Matches p s (i+1) (j+1) := by
  constructor
  · intro h
    cases h with
    | finish hi' _ => exact absurd hi' (inside hi)
    | globstar k hi' _ _ _ _ | star k hi' _ _ _ _ _ | noDirectories hi' _ _ _ _ =>
      exact absurd (hi.symm.trans hi') (by decide)
    | question _ hj hb h => exact ⟨_,hj,hb,h⟩
    | literal hi' hc _ _ => exact absurd (Option.some.inj (hi'.symm.trans hi)) hc.2
  · rintro ⟨b,hj,hb,h⟩
    exact .question hi hj hb h

section
variable {c : UInt8} (hi : p[i]? = some c) (hc : c ≠ star ∧ c ≠ question)
include hi hc

theorem matches_equal (hj : s[j]? = some c) : Matches p s i j ↔ Matches p s (i+1) (j+1) := by
  constructor
  · intro h
    cases h with
    | finish hi' _ => exact absurd hi' (inside hi)
    | globstar k hi' _ _ _ _ | star k hi' _ _ _ _ _ =>
      exact absurd (Option.some.inj (hi.symm.trans hi')) hc.1
    | question hi' _ _ _ => exact absurd (Option.some.inj (hi.symm.trans hi')) hc.2
    | literal _ _ _ h => exact h
    | noDirectories hi' _ _ hj' _ => exact absurd (hj.trans (hi.symm.trans hi')) hj'
  · intro h
    exact .literal hi hc hj h

theorem matches_differing (hj : s[j]? ≠ some c) : Matches p s i j ↔
      c = slash ∧ p[i+1]? = some star ∧ p[i+2]? = some star ∧
        Matches p s (afterStars p (i+3)) j := by
  constructor
  · intro h
    cases h with
    | finish hi' _ => exact absurd hi' (inside hi)
    | globstar k hi' _ _ _ _ | star k hi' _ _ _ _ _ =>
      exact absurd (Option.some.inj (hi.symm.trans hi')) hc.1
    | question hi' _ _ _ => exact absurd (Option.some.inj (hi.symm.trans hi')) hc.2
    | literal hi' _ hj' _ => exact absurd (hj'.trans (hi'.symm.trans hi)) hj
    | noDirectories hi' h1 h2 _ h => exact ⟨Option.some.inj (hi.symm.trans hi'),h1,h2,h⟩
  · rintro ⟨hs,h1,h2,h⟩
    rw [hs] at hi hj
    exact .noDirectories hi h1 h2 hj h

end

end Inversion

section Columns
variable {p s : Bytes} {i j : ℕ}

theorem globstar_column (hi : p[i]? = some star) (hn : p[i+1]? = some star) (hj : j ≤ s.length) :
    Matches p s i j ↔ Matches p s (afterStars p (i+2)) j ∨ j < s.length ∧ Matches p s i (j+1) := by
  rw [matches_globstar hi hn, matches_globstar hi hn]
  constructor
  · rintro ⟨k,hjk,hk,h⟩
    by_cases hkj : k = j
    · exact .inl (hkj ▸ h)
    · exact .inr ⟨by omega,k,by omega,hk,h⟩
  · rintro (h | ⟨_,k,hjk,hk,h⟩)
    · exact ⟨j,Nat.le_refl _,hj,h⟩
    · exact ⟨k,by omega,hk,h⟩

theorem star_column (hi : p[i]? = some star) (hn : p[i+1]? ≠ some star) (hj : j ≤ s.length) :
    Matches p s i j ↔ Matches p s (i+1) j ∨
      j < s.length ∧ s[j]? ≠ some slash ∧ Matches p s i (j+1) := by
  rw [matches_star hi hn, matches_star hi hn]
  constructor
  · rintro ⟨k,hjk,hk,hs,h⟩
    by_cases hkj : k = j
    · exact .inl (hkj ▸ h)
    · exact .inr ⟨by omega,hs j (Nat.le_refl _) (by omega),k,by omega,hk,
        fun t ht => hs t (by omega),h⟩
  · rintro (h | ⟨_,hsj,k,hjk,hk,hs,h⟩)
    · exact ⟨j,Nat.le_refl _,hj,fun t h1 h2 => by omega,h⟩
    · refine ⟨k,by omega,hk,fun t ht htk => ?_,h⟩
      by_cases htj : t = j
      · exact htj ▸ hsj
      · exact hs t (by omega) htk

end Columns

end FastSync.GlobLanguage
