import FastSync.GlobMatch

/-!
# Two stars between literal components

A pattern `P/**/Q` with literal ends is meant to stand for `P` and `Q` with any
number of whole directories between them. The matcher drops the slash before the
stars when the string has none there, and the stars swallow the slash after them,
so it asks only that the string starts with `P`, ends with `Q` and, unless the
two meet, has a slash after `P`.
-/

set_option autoImplicit false

namespace FastSync.GlobstarLaw
open DeletePaths CheckedMemory GlobLanguage GlobMatch

/-- A non-empty string without wildcards that neither starts nor ends with a slash. -/
structure Literal (w : Bytes) : Prop where
  nonempty : w ≠ []
  plain : ∀ b ∈ w, b ≠ star ∧ b ≠ question
  head : w.head? ≠ some slash
  last : w.getLast? ≠ some slash

def betweenStars (P Q : Bytes) : Bytes := P++([slash,star,star,slash]++Q)

/-- `P`, zero or more whole directories, `Q`. -/
def WholeDirectories (P Q s : Bytes) : Prop :=
  s = P++slash::Q ∨ ∃ D, D ≠ [] ∧ s = P++slash::(D++slash::Q)

section Words
variable {p s : Bytes}

theorem cons_prefix_drop {c : UInt8} {w s : Bytes} {j : ℕ} :
    c::w <+: s.drop j ↔ s[j]? = some c ∧ w <+: s.drop (j+1) := by
  by_cases hj : j < s.length
  · rw [List.drop_eq_getElem_cons hj, List.cons_prefix_cons, List.getElem?_eq_getElem hj,
      Option.some.injEq, eq_comm]
  · rw [List.drop_eq_nil_of_le (by omega), List.getElem?_eq_none (by omega)]
    simp

theorem matches_word {w : Bytes} (i j : ℕ) (hw : w <+: p.drop i)
    (hplain : ∀ b ∈ w, b ≠ star ∧ b ≠ question) (hlast : w.getLast? ≠ some slash) :
    Matches p s i j ↔ w <+: s.drop j ∧ Matches p s (i+w.length) (j+w.length) := by
  induction w generalizing i j with
  | nil => simp
  | cons c w ih =>
    obtain ⟨hi,hrest⟩ := cons_prefix_drop.mp hw
    have hc := hplain c (by simp)
    have hlast' : w.getLast? ≠ some slash := by
      cases w with
      | nil => simp
      | cons b w => simpa using hlast
    have hih := ih (i+1) (j+1) hrest (fun b hb => hplain b (by simp [hb])) hlast'
    rw [cons_prefix_drop]
    by_cases hj : s[j]? = some c
    · rw [matches_equal hi hc hj, hih, List.length_cons, Nat.add_right_comm i, Nat.add_right_comm j,
        Nat.add_assoc i, Nat.add_assoc j]
      simp [hj]
    · rw [matches_differing hi hc hj]
      constructor
      · rintro ⟨hs,hstar,_⟩
        cases w with
        | nil => simp [hs] at hlast
        | cons b w =>
          rw [(cons_prefix_drop.mp hrest).1] at hstar
          exact absurd (Option.some.inj hstar) (hplain b (by simp)).1
      · rintro ⟨⟨h,_⟩,_⟩
        exact absurd h hj

end Words

section Law
variable {P Q s : Bytes}

theorem matches_tail (hQ : Literal Q) {k : ℕ} :
    Matches (betweenStars P Q) s (P.length+4) k ↔ k ≤ s.length ∧ s.drop k = Q := by
  have hdrop : (betweenStars P Q).drop (P.length+4) = Q := by
    simp [betweenStars, List.drop_append]
  have hlen : P.length+4+Q.length = (betweenStars P Q).length := by
    simp [betweenStars]
    omega
  rw [matches_word _ k (hdrop.symm ▸ List.prefix_refl Q) hQ.plain hQ.last, hlen, matches_end]
  constructor
  · rintro ⟨hpre,hk⟩
    refine ⟨by omega,(hpre.eq_of_length ?_).symm⟩
    rw [List.length_drop]
    omega
  · rintro ⟨hk,h⟩
    refine ⟨h.symm ▸ List.prefix_refl _,?_⟩
    have := congrArg List.length h
    rw [List.length_drop] at this
    omega

theorem betweenStars_at (k : ℕ) :
    (betweenStars P Q)[P.length+k]? = ([slash,star,star,slash]++Q)[k]? := by
  rw [betweenStars, List.getElem?_append_right (Nat.le_add_right _ _), Nat.add_sub_cancel_left]

theorem afterStars_middle : afterStars (betweenStars P Q) (P.length+3) = P.length+4 :=
  if_pos (betweenStars_at 3)

theorem matches_middle (hQ : Literal Q) {t : Bytes} :
    Matches (betweenStars P Q) (P++t) P.length P.length ↔ t = Q ∨ ∃ X, t = slash::(X++Q) := by
  have h0 : (betweenStars P Q)[P.length]? = some slash := betweenStars_at 0
  have hplain : slash ≠ star ∧ slash ≠ question := by decide
  have ht : (P++t)[P.length]? = t.head? := by
    rw [List.getElem?_append_right (Nat.le_refl _), Nat.sub_self, List.head?_eq_getElem?]
  by_cases hs : (P++t)[P.length]? = some slash
  · obtain ⟨u,rfl⟩ := List.head?_eq_some_iff.mp (ht.symm.trans hs)
    rw [matches_equal h0 hplain hs, matches_globstar (betweenStars_at 1) (betweenStars_at 2),
      afterStars_middle]
    have hdrop : ∀ m, (P++slash::u).drop (P.length+1+m) = u.drop m := by
      intro m
      rw [Nat.add_assoc, Nat.add_comm 1, ← List.drop_drop, List.drop_left, List.drop_succ_cons]
    constructor
    · rintro ⟨k,hk,_,h⟩
      obtain ⟨m,rfl⟩ := Nat.exists_eq_add_of_le hk
      have hu := ((matches_tail hQ).mp h).2
      rw [hdrop] at hu
      exact .inr ⟨u.take m,by rw [← hu, List.take_append_drop]⟩
    · rintro (h | ⟨X,h⟩)
      · exact absurd (by rw [← h]; rfl) hQ.head
      · obtain rfl := (List.cons.inj h).2
        have hlen : P.length+1+X.length ≤ (P++slash::(X++Q)).length := by
          simp only [List.length_append, List.length_cons]
          omega
        refine ⟨P.length+1+X.length,by omega,hlen,(matches_tail hQ).mpr ⟨hlen,?_⟩⟩
        rw [hdrop, List.drop_left]
  · rw [matches_differing h0 hplain hs, afterStars_middle, matches_tail hQ, List.drop_left]
    constructor
    · rintro ⟨_,_,_,_,h⟩
      exact .inl h
    · rintro (h | ⟨X,rfl⟩)
      · refine ⟨rfl,betweenStars_at 1,betweenStars_at 2,?_,h⟩
        simp
      · exact absurd ht hs

theorem matches_betweenStars (hP : Literal P) (hQ : Literal Q) :
    Matches (betweenStars P Q) s 0 0 ↔ s = P++Q ∨ ∃ X, s = P++slash::(X++Q) := by
  have hpre : P <+: (betweenStars P Q).drop 0 := List.prefix_append _ _
  rw [matches_word 0 0 hpre hP.plain hP.last, Nat.zero_add, List.drop_zero]
  constructor
  · rintro ⟨⟨t,ht⟩,h⟩
    rw [← ht] at h ⊢
    rcases (matches_middle hQ).mp h with rfl | ⟨X,rfl⟩
    · exact .inl rfl
    · exact .inr ⟨X,rfl⟩
  · rintro (rfl | ⟨X,rfl⟩)
    · exact ⟨List.prefix_append _ _,(matches_middle hQ).mpr (.inl rfl)⟩
    · exact ⟨List.prefix_append _ _,(matches_middle hQ).mpr (.inr ⟨X,rfl⟩)⟩

/-- Where the string is `P` and `Q` joined without a slash, or what stands
between them is not whole directories, the matcher accepts too much. -/
def Overmatched (P Q s : Bytes) : Prop :=
  s = P++Q ∨ ∃ X, s = P++slash::(X++Q) ∧ X ≠ [] ∧ ∀ D, D ≠ [] → X ≠ D++[slash]

theorem wholeDirectories_iff (P Q s : Bytes) : WholeDirectories P Q s ↔
    ∃ X, s = P++slash::(X++Q) ∧ (X = [] ∨ ∃ D, D ≠ [] ∧ X = D++[slash]) := by
  constructor
  · rintro (h | ⟨D,hD,h⟩)
    · exact ⟨[],h,.inl rfl⟩
    · exact ⟨D++[slash],by simpa using h,.inr ⟨D,hD,rfl⟩⟩
  · rintro ⟨X,h,rfl | ⟨D,hD,rfl⟩⟩
    · exact .inl h
    · exact .inr ⟨D,hD,by simpa using h⟩

theorem middle_unique {X Y : Bytes} (h : P++slash::(X++Q) = P++slash::(Y++Q)) : X = Y :=
  List.append_cancel_right (List.cons.inj (List.append_cancel_left h)).2

theorem matches_law_iff (hP : Literal P) (hQ : Literal Q) :
    (Matches (betweenStars P Q) s 0 0 ↔ WholeDirectories P Q s) ↔ ¬Overmatched P Q s := by
  rw [matches_betweenStars hP hQ, wholeDirectories_iff]
  constructor
  · rintro hlaw (hjoin | ⟨X,hX,hne,hdirs⟩)
    · obtain ⟨X,hX,_⟩ := hlaw.mp (.inl hjoin)
      have hlen := congrArg List.length (hjoin.symm.trans hX)
      simp only [List.length_append, List.length_cons] at hlen
      omega
    · obtain ⟨Y,hY,h⟩ := hlaw.mp (.inr ⟨X,hX⟩)
      obtain rfl := middle_unique (hX.symm.trans hY)
      rcases h with rfl | ⟨D,hD,rfl⟩
      · exact hne rfl
      · exact hdirs D hD rfl
  · intro hover
    constructor
    · rintro (hjoin | ⟨X,hX⟩)
      · exact absurd (.inl hjoin) hover
      · refine ⟨X,hX,?_⟩
        by_contra hbad
        push Not at hbad
        exact hover (.inr ⟨X,hX,hbad⟩)
    · rintro ⟨X,hX,_⟩
      exact .inr ⟨X,hX⟩

end Law

/-- The matcher agrees with the reading of `P/**/Q` as `P`, whole directories
and `Q` exactly on the strings it does not accept for another reason. -/
theorem globstar_law_iff (mem : Scratch) (P Q s : Bytes) (hP : Literal P) (hQ : Literal Q)
    (hcap : ((betweenStars P Q).length+1)*(s.length+1) ≤ workCap)
    (halloc : stackRow < s.length+1 → mem.malloc (4*(s.length+1)) ≠ none) :
    (globMatch mem (betweenStars P Q) s = .done true ↔ WholeDirectories P Q s) ↔
      ¬Overmatched P Q s := by
  obtain ⟨b,hb,hm⟩ := globMatch_language hcap halloc
  rw [hb, Checked.done.injEq, hm, matches_law_iff hP hQ]

theorem literal_single {b : UInt8} (h : b ≠ star ∧ b ≠ question ∧ b ≠ slash) : Literal [b] := by
  constructor
  · simp
  · simpa using ⟨h.1,h.2.1⟩
  · simpa using h.2.2
  · simpa using h.2.2

/-- For `a/**/b` the law speaks about `a/x/b`. -/
theorem globstar_law_nested :
    (globMatch plainScratch (betweenStars [97] [98]) [97,slash,120,slash,98] = .done true ↔
        WholeDirectories [97] [98] [97,slash,120,slash,98]) ↔
      ¬Overmatched [97] [98] [97,slash,120,slash,98] :=
  globstar_law_iff plainScratch _ _ _ (literal_single (by decide)) (literal_single (by decide))
    (by decide) fun h => absurd h (by decide)

/-- The pattern `a/**/b` accepts `ab` and `a/xb`, which have no whole directory
between `a` and `b`. -/
theorem globstar_joins_components :
    (globMatch plainScratch (betweenStars [97] [98]) [97,98] = .done true ∧
        ¬WholeDirectories [97] [98] [97,98]) ∧
      globMatch plainScratch (betweenStars [97] [98]) [97,slash,120,98] = .done true ∧
        ¬WholeDirectories [97] [98] [97,slash,120,98] := by
  refine ⟨⟨by decide +kernel,?_⟩,by decide +kernel,?_⟩
  · rintro (h | ⟨D,_,h⟩)
    · exact absurd h (by decide)
    · simp [slash] at h
  · rintro (h | ⟨D,hD,h⟩)
    · exact absurd h (by decide)
    · have hlen := congrArg List.length h
      simp only [List.length_append, List.length_cons, List.length_nil] at hlen
      exact hD (List.length_eq_zero_iff.mp (by omega))

end FastSync.GlobstarLaw
