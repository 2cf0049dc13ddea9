import FastSync.StoreInstall

/-!
# What the writers leave in the file

The steps on the open file, up to closing it, taken together: a temporary file
ends with the payload, a copy with the bytes from its source offset on, and a
destination written in place with the payload except where holes were skipped.
-/

set_option autoImplicit false

namespace FastSync.StorePayload
open ByteFile StoreWrite StoreInstall

theorem whenever_eq_true {c : Bool} {a : Act} {h h' : Handle} (hcall : whenever c a h = (true, h')) :
    (c = true ∧ a h = (true, h')) ∨ (c = false ∧ h' = h) := by
  cases c with
  | true => exact .inl ⟨rfl,hcall⟩
  | false =>
    right
    cases hcall
    exact ⟨rfl,rfl⟩

section
variable {o : StoreOptions}

theorem finishFile_eq_true {h h' : Handle} (hcall : finishFile o h = (true, h')) :
    h'.content = h.content := by
  obtain ⟨mid,hattr,hsync⟩ := andThen_eq_true hcall
  have hmid : mid.content = h.content := by
    unfold applyAttributes at hattr
    split_ifs at hattr
    · obtain ⟨m,hchmod,hrestore⟩ := andThen_eq_true hattr
      rw [(attempt_eq_true hrestore).1]
      rcases whenever_eq_true hchmod with ⟨-,hc⟩ | ⟨-,rfl⟩
      · exact (attempt_eq_true hc).1
      · rfl
    · exact (attempt_eq_true hattr).1
  rcases whenever_eq_true hsync with ⟨-,hc⟩ | ⟨-,rfl⟩
  · rw [(attempt_eq_true hc).1, hmid]
  · exact hmid

/-- Reserving leaves the first `size` bytes as growing to `size` would. -/
theorem reserve_eq_true {size : ℕ} {h h' : Handle} (hcall : reserve o size h = (true, h')) :
    h'.offset = h.offset ∧ resize 0 size h'.content = resize 0 size h.content ∧
      h'.content.length ≤ max h.content.length size := by
  rcases whenever_eq_true hcall with ⟨-,hc⟩ | ⟨-,rfl⟩
  · obtain ⟨ho,hextend | hresize⟩ := preallocateFd_eq_true hc
    · refine ⟨ho,?_,?_⟩
      · rw [hextend, resize_extend]
      · rw [hextend, extend, List.length_append, List.length_replicate]
        omega
    · have hself := resize_self (0 : UInt8) (resize 0 size h.content)
      rw [length_resize] at hself
      refine ⟨ho,?_,?_⟩
      · rw [hresize, hself]
      · rw [hresize, length_resize]
        exact Nat.le_max_right _ _
  · exact ⟨rfl,rfl,Nat.le_max_left _ _⟩

theorem prepare_eq_true {data : Bytes} {h h' : Handle} (hzero : h.offset = 0)
    (hcall : prepare o data h = (true, h')) :
    h'.offset = 0 ∧ h'.content.length ≤ max h.content.length data.length ∧
      ((o.sparse && decide (0 < data.length)) = true →
        h'.content = resize 0 data.length h.content) := by
  obtain ⟨a,hreserve,hrest⟩ := andThen_eq_true hcall
  obtain ⟨b,hseek,hsize⟩ := andThen_eq_true hrest
  obtain ⟨ho,hcontent,hlen⟩ := reserve_eq_true hreserve
  obtain ⟨hb,hbo⟩ := lseekStart_eq (ho.trans hzero) hseek
  rcases whenever_eq_true hsize with ⟨-,hc⟩ | ⟨hnot,rfl⟩
  · obtain ⟨ht,hto⟩ := ftruncate_eq_true _ hc
    refine ⟨hto.trans hbo,?_,?_⟩
    · rw [ht, length_resize]
      exact Nat.le_max_right _ _
    · intro _
      rw [ht, hb, hcontent]
  · refine ⟨hbo,?_,?_⟩
    · rw [hb]
      exact hlen
    · intro hsparse
      rw [hsparse] at hnot
      cases hnot

theorem writePayload_eq_true (data old : Bytes) (h h' : Handle) (ho : h.offset = 0)
    (hsparse : (o.sparse && decide (0 < data.length)) = true → h.content = resize 0 data.length old)
    (hcall : writePayload o data h = (true, h')) :
    h'.content = if (o.sparse && decide (0 < data.length)) = true
      then sparseImage (runs data) (resize 0 data.length old)
      else data++h.content.drop data.length := by
  unfold writePayload at hcall
  split_ifs at hcall ⊢ with hs
  · have hsize : h.content.length = data.length := by rw [hsparse hs, length_resize]
    rw [fileStoreWriteSparse_eq_true ho hsize hcall, hsparse hs]
  · exact (writeAll_eq_true [] h.content data h h' rfl ho hcall).1

theorem sparseImage_zeros {data : Bytes} :
    sparseImage (runs data) (resize 0 data.length []) = data := by
  have hlen : (runs data).flatten.length = (resize (0 : UInt8) data.length []).length := by
    rw [runs_flatten, length_resize]
  have hclear : HolesClear (runs data) (resize 0 data.length []) := by
    rw [resize_nil]
    apply holesClear_zeros
    · intro run hrun hole
      exact runs_hole hrun hole
    · rw [runs_flatten]
  have himage := (sparseImage_eq_iff _ hlen).mpr hclear
  rw [himage, runs_flatten]

theorem fillTemporary_eq_true {data : Bytes} {a : Bool} {h h' : Handle} (hfresh : h.content = [])
    (hzero : h.offset = 0) (hcall : fillTemporary o data h = ((a, true), h')) :
    h'.content = data := by
  unfold fillTemporary at hcall
  dsimp only at hcall
  split_ifs at hcall with hp
  · obtain ⟨hr,rfl⟩ := Prod.mk.inj hcall
    obtain ⟨-,hok⟩ := Prod.mk.inj hr
    obtain ⟨mid,hwrite,hfinish⟩ := andThen_eq_true (Prod.ext hok rfl)
    obtain ⟨hpo,hplen,hpsparse⟩ := prepare_eq_true hzero (Prod.ext hp rfl)
    have hmid := writePayload_eq_true data [] _ mid hpo (fun hs => by rw [hpsparse hs, hfresh])
      hwrite
    rw [finishFile_eq_true hfinish, hmid]
    split_ifs
    · exact sparseImage_zeros
    · rw [hfresh, List.length_nil, Nat.zero_max] at hplen
      rw [List.drop_of_length_le hplen, List.append_nil]
  · cases hcall

/-- A file written in place ends with the payload, or with its image over the old
bytes when holes were skipped. -/
theorem fillInplace_eq_true {data : Bytes} {h h' : Handle} (hzero : h.offset = 0)
    (hcall : fillInplace o data h = (true, h')) :
    h'.content = if o.sparse = true then sparseImage (runs data) (resize 0 data.length h.content)
      else data := by
  obtain ⟨a,hprepare,hrest⟩ := andThen_eq_true hcall
  obtain ⟨b,hwrite,hrest⟩ := andThen_eq_true hrest
  obtain ⟨c,hcut,hfinish⟩ := andThen_eq_true hrest
  obtain ⟨hao,-,hasparse⟩ := prepare_eq_true hzero hprepare
  have hb := writePayload_eq_true data h.content a b hao hasparse hwrite
  rw [finishFile_eq_true hfinish, (ftruncate_eq_true _ hcut).1, hb]
  split_ifs with hs hsparse hsparse
  · have hfit : (runs data).flatten.length ≤ (resize 0 data.length h.content).length := by
      rw [runs_flatten, length_resize]
    have hself := resize_self (0 : UInt8) (sparseImage (runs data) (resize 0 data.length h.content))
    rw [sparseImage_length _ hfit, length_resize] at hself
    exact hself
  · simp [hsparse] at hs
  · have hnil : data = [] := by simpa [hsparse] using hs
    subst hnil
    simp [resize, runs, sparseImage]
  · exact resize_append 0 data _

theorem fillCopy_eq_true {basis : Bytes} {size src src' : ℕ} {h h' : Handle} (hzero : h.offset = 0)
    (hcall : fillCopy o basis size src h = ((true, src'), h')) :
    h'.content = (basis.drop src).take size ∧ ((basis.drop src).take size).length = size := by
  unfold fillCopy at hcall
  dsimp only at hcall
  split_ifs at hcall with hp hc
  · obtain ⟨hr,rfl⟩ := Prod.mk.inj hcall
    obtain ⟨hf,-⟩ := Prod.mk.inj hr
    obtain ⟨hpo,-,-⟩ := reserve_eq_true (Prod.ext hp rfl)
    obtain ⟨h1,h2⟩ := copyFdAll_eq_true (hpo.trans hzero) (Prod.ext hc rfl)
    exact ⟨(finishFile_eq_true (Prod.ext hf rfl)).trans h1,h2⟩
  · cases hcall
  · cases hcall

end

end FastSync.StorePayload
