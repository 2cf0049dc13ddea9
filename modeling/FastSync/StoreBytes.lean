import FastSync.StoreAtomic

/-!
# The bytes an install leaves

What the destination holds when an install reports success: exactly when it is
the payload, or the first bytes of the basis.
-/

set_option autoImplicit false

namespace FastSync.StoreBytes
open ByteFile InodeStore InodeStore.Volume
open StoreWrite StoreInstall StorePayload
open StoreAtomic

/-- Success with nothing that existed before the call left alone. -/
def claimed : Outcome → Bool
  | .installed => true
  | .leftEmpty => true
  | _ => false

def priorBytes (t : Target) (fs : Fs) : Bytes :=
  ((fs.entries t.dir t.leaf).map fs.content).getD []

/-- The destination is absent, and the file the call creates for it is taken for
a newer destination. -/
def CreatedNewer (t : Target) (o : StoreOptions) (fs : Fs) : Prop :=
  (o.update && o.metadata) = true ∧ fs.entries t.dir t.leaf = none ∧ t.newer fs.next = true

/-- Writing in place is exact: no created file is taken for newer while there is
something to write, and every skipped run lies over zeros. -/
def InplaceExact (t : Target) (o : StoreOptions) (data : Bytes) (fs : Fs) : Prop :=
  (CreatedNewer t o fs → data = []) ∧
    (o.sparse = true → HolesClear (runs data) (resize 0 data.length (priorBytes t fs)))

section Inplace

variable (t : Target) {o : StoreOptions} {data : Bytes} (w : World)

/-- The world after the destination has been opened for writing. -/
def opened : World :=
  (if (w.fs.entries t.dir t.leaf).isSome then w.answer.2
    else w.answer.2.enter (w.fs.create t.dir t.leaf [])).consult.2

def openedFile : ℕ := (w.fs.entries t.dir t.leaf).getD w.fs.next

theorem opened_entry :
    (opened t w).fs.entries t.dir t.leaf = some (openedFile t w) ∧
      (opened t w).fs.content (openedFile t w) = priorBytes t w.fs := by
  unfold opened openedFile priorBytes
  cases hfound : w.fs.entries t.dir t.leaf with
  | none => exact ⟨setEntry_self _ _ _ _,if_pos rfl⟩
  | some i => exact ⟨hfound,rfl⟩

theorem storeInplace_cases :
    ((storeInplace t o data w).1 = .failed ∨ (storeInplace t o data w).1 = .leftNewer) ∨
      ((storeInplace t o data w).1 = .leftEmpty ∧ CreatedNewer t o w.fs ∧
        (storeInplace t o data w).2 = opened t w) ∨
      ((storeInplace t o data w).1 = .installed ∧ ¬CreatedNewer t o w.fs ∧
        ((opened t w).onFile (openedFile t w) (fillInplace o data)).1 = true ∧
        (storeInplace t o data w).2 =
          ((opened t w).onFile (openedFile t w) (fillInplace o data)).2) := by
  unfold storeInplace
  by_cases h1 : accepted w.answer.1 = true
  · rw [if_pos h1]
    by_cases h2 : (!(if (w.fs.entries t.dir t.leaf).isSome = true then w.answer.2
        else w.answer.2.enter (w.fs.create t.dir t.leaf [])).consult.1) = true
    · rw [if_pos h2]
      exact .inl (.inl rfl)
    · rw [if_neg h2]
      by_cases h3 : (o.update && o.metadata && t.newer (openedFile t w)) = true
      · rw [if_pos (show (o.update && o.metadata &&
          t.newer ((w.fs.entries t.dir t.leaf).getD w.fs.next)) = true from h3)]
        cases hfound : w.fs.entries t.dir t.leaf with
        | some i => exact .inl (.inr rfl)
        | none =>
          right; left
          obtain ⟨hupdate,hnewer⟩ := Bool.and_eq_true_iff.mp h3
          unfold openedFile at hnewer
          rw [hfound] at hnewer
          refine ⟨rfl,⟨hupdate,hfound,hnewer⟩,?_⟩
          unfold opened
          rw [hfound]
      · rw [if_neg (show ¬(o.update && o.metadata &&
          t.newer ((w.fs.entries t.dir t.leaf).getD w.fs.next)) = true from h3)]
        have hnot : ¬CreatedNewer t o w.fs := by
          rintro ⟨hupdate,hfound,hnewer⟩
          apply h3
          unfold openedFile
          rw [hfound, hupdate]
          exact hnewer
        by_cases h4 : ((opened t w).onFile (openedFile t w) (fillInplace o data)).1 = true
        · right; right
          exact ⟨if_pos h4,hnot,h4,rfl⟩
        · exact .inl (.inl (if_neg h4))
  · rw [if_neg h1]
    exact .inl (.inl rfl)

/-- A reported write in place is exact under exactly one condition. -/
theorem storeInplace_exact (hin : claimed (storeInplace t o data w).1 = true) :
    (∃ i, (storeInplace t o data w).2.fs.denotes t.dir t.leaf = some (i, data)) ↔
      InplaceExact t o data w.fs := by
  obtain ⟨hentry,hprior⟩ := opened_entry t w
  have hlen : (runs data).flatten.length =
      (resize (0 : UInt8) data.length (priorBytes t w.fs)).length := by
    rw [runs_flatten, length_resize]
  have hclear := sparseImage_eq_iff (resize 0 data.length (priorBytes t w.fs)) hlen
  rw [runs_flatten] at hclear
  rcases storeInplace_cases t w with hend | ⟨-,hnewer,hworld⟩ | ⟨-,hnewer,hfill,hworld⟩
  · rcases hend with hend | hend <;> rw [hend] at hin <;> cases hin
  · have hzero : priorBytes t w.fs = [] := by
      unfold priorBytes
      rw [hnewer.2.1]
      rfl
    rw [hworld, Volume.denotes, hentry, Option.map_some, hprior, hzero]
    constructor
    · rintro ⟨i,hi⟩
      simp only [Option.some.injEq, Prod.mk.injEq] at hi
      refine ⟨fun _ => hi.2.symm,fun _ => ?_⟩
      rw [← hclear, hzero]
      exact sparseImage_zeros
    · rintro ⟨hempty,-⟩
      exact ⟨_,by rw [hempty hnewer]⟩
  · have hcontent : ((opened t w).onFile (openedFile t w) (fillInplace o data)).2.fs.content
        (openedFile t w) = if o.sparse = true
          then sparseImage (runs data) (resize 0 data.length (priorBytes t w.fs)) else data := by
      rw [← hprior]
      exact (if_pos rfl).trans (fillInplace_eq_true rfl
        (Prod.ext hfill rfl))
    have hdenotes : (storeInplace t o data w).2.fs.denotes t.dir t.leaf =
        some (openedFile t w, if o.sparse = true
          then sparseImage (runs data) (resize 0 data.length (priorBytes t w.fs)) else data) := by
      rw [hworld, ← hcontent]
      show (((opened t w).fs.entries t.dir t.leaf).map _) = _
      rw [hentry, Option.map_some]
    rw [hdenotes]
    constructor
    · rintro ⟨i,hi⟩
      simp only [Option.some.injEq, Prod.mk.injEq] at hi
      refine ⟨fun hx => absurd hx hnewer,fun hs => ?_⟩
      rw [if_pos hs] at hi
      exact hclear.mp hi.2
    · rintro ⟨-,hholes⟩
      refine ⟨openedFile t w,?_⟩
      split_ifs with hs
      · rw [hclear.mpr (hholes hs)]
      · rfl

theorem fileToDiskSecureImpl_inplace (hplace : o.inplace = true) :
    fileToDiskSecureImpl t o data w = (.failed, w.consult.2) ∨
      fileToDiskSecureImpl t o data w = storeInplace t o data w.consult.2 := by
  unfold fileToDiskSecureImpl storeOnce
  by_cases h : (!w.consult.1) = true
  · left
    simp [h]
  · right
    simp [h, hplace]

end Inplace

section Temporary

variable (t : Target) (o : StoreOptions) (data : Bytes)

theorem commitTemporary_ne_leftEmpty {name : Name} {w : World} :
    (commitTemporary t o name w).1.1 ≠ .leftEmpty := by
  unfold commitTemporary
  split_ifs
  · split <;> dsimp only <;> try split_ifs
    all_goals simp
  · split <;> simp

theorem storeAttempts_ne_leftEmpty (left n : ℕ) (w : World) :
    (storeAttempts t o data left n w).1.1 ≠ .leftEmpty := by
  induction left generalizing n w with
  | zero => simp [storeAttempts]
  | succ left ih =>
    rw [storeAttempts]
    split
    · rename_i j w1 _
      unfold storeTemporary
      dsimp only
      by_cases hok : ((w1.onFile j (fillTemporary o data)).1.2 &&
          (w1.onFile j (fillTemporary o data)).2.consult.1) = true
      · rw [if_pos hok]
        split_ifs <;> exact commitTemporary_ne_leftEmpty t o
      · rw [if_neg hok, if_pos rfl]
        simp
    · rename_i w1 _ _
      exact ih (n+1) w1

theorem fileToDiskSecureImpl_ne_leftEmpty (hplace : o.inplace = false) (w : World) :
    (fileToDiskSecureImpl t o data w).1 ≠ .leftEmpty := by
  have honce : ∀ t' w', (storeOnce t' o data w').1.1 ≠ .leftEmpty := by
    intro t' w'
    unfold storeOnce
    simp only [hplace, Bool.false_eq_true, if_false]
    split_ifs
    · simp
    · simp
    · simp
    · exact storeAttempts_ne_leftEmpty t' o data _ _ _
  unfold fileToDiskSecureImpl
  dsimp only
  split_ifs
  · exact honce _ _
  · exact honce _ _

end Temporary

/-- A file of one byte in directory 0, and a target that replaces it. -/
def oneFile : Fs := (Volume.empty []).create 0 [97] [1]

def ontoIt : Target := ⟨0,[97],none,7,fun _ => true⟩

def plainOptions : StoreOptions := ⟨false,false,false,false,false,false,false,true,true⟩

end FastSync.StoreBytes
