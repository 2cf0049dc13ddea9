import FastSync.FileList

/-!
# Rebuilding an entry in place

The buffer always splits into what is rebuilt, a gap that has been read and the
part of the entry still to come. A rebuilt component never reaches past the gap,
so the bytes still to come are those of the entry.
-/

set_option autoImplicit false

namespace FastSync.FileListRebuild
open DeletePaths (Bytes slash dot components components_append components_plain)
open FileList

def kept (cs : List Bytes) : List Bytes := cs.filter fun c => decide (¬(c = [dot] ∨ c = []))

def opened (out : Bytes) : Bytes := if out = [] then [] else out++[slash]

def attach (out c : Bytes) : Bytes := opened out++c

def joined (out : Bytes) (cs : List Bytes) : Bytes := cs.foldl attach out

def canon (e : Bytes) : Bytes := joined [] (kept (components e))

/-- The root marker, or components none of which is empty, `.` or `..`. -/
def Canonical (e : Bytes) : Prop :=
  e = [] ∨ ∀ c ∈ components e, c ≠ [] ∧ c ≠ [dot] ∧ c ≠ [dot,dot]

variable {c : Bytes}

section Components

theorem first_component (t : Bytes) : ∃ c, slash ∉ c ∧ (t = c ∨ ∃ t', t = c++slash::t') := by
  induction t with
  | nil => exact ⟨[],by simp,.inl rfl⟩
  | cons b t ih =>
    by_cases hb : b = slash
    · exact ⟨[],by simp,.inr ⟨t,by rw [hb]; rfl⟩⟩
    · obtain ⟨c,hc,ht⟩ := ih
      have hbc : slash ∉ b::c := by
        rw [List.mem_cons,not_or]
        exact ⟨fun h => hb h.symm,hc⟩
      apply Exists.intro (b::c)
      rcases ht with ht | ⟨t',ht⟩
      · exact ⟨hbc,.inl (by rw [ht])⟩
      · exact ⟨hbc,.inr ⟨t',by rw [ht,List.cons_append]⟩⟩

theorem components_first (hc : slash ∉ c) (t : Bytes) :
    components (c++slash::t) = c::components t := by
  rw [components_append,components_plain c hc,List.singleton_append]

theorem component_plain (t : Bytes) : ∀ c ∈ components t, slash ∉ c := by
  induction hn : t.length using Nat.strong_induction_on generalizing t with
  | _ n ih =>
    obtain ⟨c,hc,rfl | ⟨t',rfl⟩⟩ := first_component t
    · rw [components_plain t hc]
      simpa using hc
    · rw [components_first hc]
      intro x hx
      rcases List.mem_cons.mp hx with rfl | hx
      · exact hc
      · apply ih t'.length _ t' rfl x hx
        simp only [List.length_append,List.length_cons] at hn
        omega

theorem kept_skip (h : c = [dot] ∨ c = []) (cs : List Bytes) : kept (c::cs) = kept cs := by
  have hout : ¬decide (¬(c = [dot] ∨ c = [])) = true := by
    rw [decide_eq_true_iff]
    exact not_not_intro h
  rw [kept,List.filter_cons,if_neg hout,kept]

theorem kept_take (h : ¬(c = [dot] ∨ c = [])) (cs : List Bytes) : kept (c::cs) = c::kept cs := by
  rw [kept,List.filter_cons,if_pos (decide_eq_true h),kept]

end Components

section Canonical

theorem attach_canonical {out : Bytes} (hout : Canonical out) (hslash : slash ∉ c)
    (hc : c ≠ [] ∧ c ≠ [dot] ∧ c ≠ [dot,dot]) : Canonical (attach out c) := by
  apply Or.inr
  unfold attach opened
  by_cases h : out = []
  · rw [if_pos h,List.nil_append,components_plain c hslash]
    simpa using hc
  · rw [if_neg h,List.append_assoc,List.singleton_append,components_append,
      components_plain c hslash]
    intro x hx
    rcases List.mem_append.mp hx with hx | hx
    · exact hout.resolve_left h x hx
    · rw [List.mem_singleton.mp hx]
      exact hc

theorem joined_canonical {cs : List Bytes} {out : Bytes} (hout : Canonical out)
    (hcs : ∀ c ∈ cs, slash ∉ c ∧ c ≠ [] ∧ c ≠ [dot] ∧ c ≠ [dot,dot]) :
    Canonical (joined out cs) := by
  induction cs generalizing out with
  | nil => exact hout
  | cons c cs ih =>
    have hc := hcs c (by simp)
    exact ih (attach_canonical hout hc.1 hc.2) fun x hx => hcs x (by simp [hx])

theorem canon_canonical {e : Bytes} (h : [dot,dot] ∉ components e) : Canonical (canon e) := by
  apply joined_canonical (.inl rfl)
  intro c hc
  simp only [kept,List.mem_filter,decide_eq_true_eq,not_or] at hc
  exact ⟨component_plain e c hc.1,hc.2.2,hc.2.1,fun hd => h (hd ▸ hc.1)⟩

theorem joined_clean {z : UInt8} (hz : z ≠ slash) {cs : List Bytes} {out : Bytes} (hout : z ∉ out)
    (hcs : ∀ c ∈ cs, z ∉ c) : z ∉ joined out cs := by
  induction cs generalizing out with
  | nil => exact hout
  | cons c cs ih =>
    apply ih
    · unfold attach opened
      by_cases h : out = []
      · rw [if_pos h]
        exact hcs c (by simp)
      · rw [if_neg h,List.mem_append,List.mem_append,List.mem_singleton,not_or,not_or]
        exact ⟨⟨hout,hz⟩,hcs c (by simp)⟩
    · intro x hx
      exact hcs x (by simp [hx])

theorem component_clean {z : UInt8} (t : Bytes) (hz : z ∉ t) : ∀ c ∈ components t, z ∉ c := by
  induction hn : t.length using Nat.strong_induction_on generalizing t with
  | _ n ih =>
    obtain ⟨c,hc,rfl | ⟨t',rfl⟩⟩ := first_component t
    · rw [components_plain t hc]
      simpa using hz
    · rw [List.mem_append,List.mem_cons,not_or,not_or] at hz
      rw [components_first hc]
      intro x hx
      rcases List.mem_cons.mp hx with rfl | hx
      · exact hz.1
      · apply ih t'.length _ t' hz.2.2 rfl x hx
        simp only [List.length_append,List.length_cons] at hn
        omega

theorem canon_clean {e : Bytes} (h : 0 ∉ e) : 0 ∉ canon e := by
  apply joined_clean (by decide) (by simp)
  intro c hc
  exact component_clean e h c (List.mem_of_mem_filter hc)

end Canonical

section Buffer

theorem partLength_plain {out gap c : Bytes} {b : UInt8} {z : Bytes} (hc : slash ∉ c) (h0 : 0 ∉ c)
    (hb : b = slash ∨ b = 0) :
    partLength (out++gap++c++b::z) (out.length+gap.length) = c.length := by
  have hdrop : (out++gap++c++b::z).drop (out.length+gap.length) = c++b::z := by
    rw [List.append_assoc (out++gap),← List.length_append,List.drop_left]
  have hall : ∀ x ∈ c, decide (x ≠ slash ∧ x ≠ 0) = true := by
    intro x hx
    rw [decide_eq_true_iff]
    exact ⟨fun h => hc (h ▸ hx),fun h => h0 (h ▸ hx)⟩
  have hend : decide (b ≠ slash ∧ b ≠ 0) = false := by
    rw [decide_eq_false_iff_not]
    exact fun h => hb.elim h.1 h.2
  rw [partLength,hdrop,List.takeWhile_append_of_pos hall,List.takeWhile_cons,hend]
  simp

theorem piece_plain (out gap c rest : Bytes) :
    ((out++gap++c++rest).drop (out.length+gap.length)).take c.length = c := by
  rw [List.append_assoc (out++gap),← List.length_append,List.drop_left,List.take_left]

theorem after_piece (out gap c : Bytes) (b : UInt8) (z : Bytes) :
    (out++gap++c++b::z)[out.length+gap.length+c.length]? = some b := by
  rw [← List.length_append,← List.length_append,
    List.getElem?_append_right (Nat.le_refl _),Nat.sub_self]
  rfl

theorem separate_opened (out gap rest : Bytes) (hroom : out ≠ [] → gap ≠ []) :
    ∃ gap', separate (out++gap++rest) out.length = (opened out++gap'++rest,(opened out).length) ∧
      (opened out).length+gap'.length = out.length+gap.length := by
  by_cases hout : out = []
  · refine ⟨gap,?_,?_⟩
    · simp [separate,opened,hout]
    · simp [opened,hout]
  · obtain ⟨g,gap,rfl⟩ := List.exists_cons_of_ne_nil (hroom hout)
    have hpos : out.length > 0 := List.length_pos_of_ne_nil hout
    refine ⟨gap,?_,?_⟩
    · simp [separate,opened,hout,hpos]
    · simp [opened,hout]
      omega

theorem appendPart_attach {out gap c rest : Bytes} (hroom : out ≠ [] → gap ≠ []) :
    ∃ gap', appendPart (out++gap++c++rest) (out.length+gap.length) c.length out.length =
      (attach out c++gap'++rest,(attach out c).length) ∧
      (attach out c).length+gap'.length = out.length+gap.length+c.length := by
  obtain ⟨mid,hsep,hmid⟩ := separate_opened out gap (c++rest) hroom
  have hpiece := piece_plain (opened out) mid c rest
  have hwrite := ByteFile.writeAt_split 0 (opened out) (mid++c++rest) c
  simp only [List.append_assoc] at hsep hpiece hwrite
  refine ⟨(mid++c).drop c.length,?_,?_⟩
  · simp only [appendPart,List.append_assoc,hsep,← hmid,hpiece,hwrite,attach,
      List.length_append]
    rw [← List.append_assoc mid,List.drop_append_of_le_length (by simp)]
  · simp only [attach,List.length_append,List.length_drop]
    omega

theorem step_attach (out gap c rest : Bytes) (hroom : out ≠ [] → gap ≠ []) :
    ∃ out' gap', (if c = [dot] ∨ c = [] then (out++gap++c++rest,out.length)
        else appendPart (out++gap++c++rest) (out.length+gap.length) c.length out.length) =
        (out'++gap'++rest,out'.length) ∧
      out'.length+gap'.length = out.length+gap.length+c.length ∧
      ∀ cs, joined out (kept (c::cs)) = joined out' (kept cs) := by
  by_cases hc : c = [dot] ∨ c = []
  · refine ⟨out,gap++c,?_,?_,fun cs => ?_⟩
    · rw [if_pos hc,List.append_assoc out]
    · rw [List.length_append]
      omega
    · rw [kept_skip hc]
  · obtain ⟨gap',happend,hlen⟩ := appendPart_attach hroom
    refine ⟨attach out c,gap',?_,hlen,fun cs => ?_⟩
    · rw [if_neg hc,happend]
    · rw [kept_take hc,joined,joined,List.foldl_cons]

/-- The loop either meets a `..` or ends with the kept components joined behind
what was there, closed by a NUL. -/
theorem rebuild_joined {fuel : ℕ} (out gap t z : Bytes) (hroom : out ≠ [] → gap ≠ [])
    (h0 : 0 ∉ t) (hfuel : t.length < fuel) :
    ([dot,dot] ∈ components t ∧
      ∃ d, rebuild fuel (out++gap++t++0::z) (out.length+gap.length) out.length = .traversal d) ∨
    ([dot,dot] ∉ components t ∧
      ∃ z', rebuild fuel (out++gap++t++0::z) (out.length+gap.length) out.length =
        .done (joined out (kept (components t))++0::z')
          (joined out (kept (components t))).length) := by
  induction fuel generalizing out gap t with
  | zero => omega
  | succ fuel ih =>
    obtain ⟨c,hc,ht⟩ := first_component t
    rcases ht with rfl | ⟨t,rfl⟩
    · -- the last component: the NUL ends the loop
      obtain ⟨out',gap',hstep,hlen,hjoin⟩ := step_attach out gap t (0::z) hroom
      rw [components_plain t hc,List.mem_singleton,hjoin,rebuild,
        partLength_plain hc h0 (Or.inr rfl),piece_plain,after_piece]
      by_cases hdots : t = [dot,dot]
      · exact Or.inl ⟨hdots.symm,_,by rw [if_pos hdots]⟩
      · apply Or.inr
        refine ⟨fun h => hdots h.symm,(gap'++0::z).tail,?_⟩
        rw [if_neg hdots,if_neg (by decide),hstep,List.append_assoc]
        cases gap' <;> simp [kept,joined]
    · obtain ⟨out',gap',hstep,hlen,hjoin⟩ := step_attach out gap c (slash::(t++0::z)) hroom
      rw [List.mem_append,List.mem_cons,not_or,not_or] at h0
      have hsplit : out++gap++(c++slash::t)++0::z = out++gap++c++slash::(t++0::z) := by
        simp
      have hnext := ih out' (gap'++[slash]) t (by simp) h0.2.2 (by
        simp only [List.length_append,List.length_cons] at hfuel
        omega)
      have hpart : out'.length+(gap'++[slash]).length = out.length+gap.length+c.length+1 := by
        rw [List.length_append,List.length_singleton]
        omega
      have hbuf : out'++(gap'++[slash])++t++0::z = out'++gap'++slash::(t++0::z) := by
        simp
      rw [hpart,hbuf] at hnext
      rw [components_first hc,hjoin,hsplit,rebuild,
        partLength_plain hc h0.1 (.inl rfl),piece_plain,after_piece]
      by_cases hdots : c = [dot,dot]
      · exact .inl ⟨by rw [hdots]; simp,_,by rw [if_pos hdots]⟩
      · rw [if_neg hdots,if_pos rfl,hstep,List.mem_cons,
          or_iff_right (fun h => hdots (Eq.symm h))]
        exact hnext

end Buffer

end FastSync.FileListRebuild
