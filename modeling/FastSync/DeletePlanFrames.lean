import FastSync.DeletePlan
import Mathlib.Data.List.Forall2
import Mathlib.Data.List.TakeWhile

/-!
# What the transmitted plans say

A sender that was given every entry of a source tree transmits one plan per
source directory, no directory before one of its ancestors, and each plan lists
the names of the source entries of its directory by kind.
-/

set_option autoImplicit false

namespace FastSync.DeletePlanFrames
open FiniteTree DeletePaths DeletePlan

theorem splitLast_deep {a n : Bytes} (hn : slash ∉ n) : splitLast (a++slash::n) = some (a, n) := by
  have hr : (a++slash::n).reverse = n.reverse++slash::a.reverse := by simp
  have hall : ∀ b ∈ n.reverse, decide (b ≠ slash) = true := by
    intro b hb
    refine decide_eq_true ?_
    rintro rfl
    exact hn (List.mem_reverse.mp hb)
  rw [splitLast,if_pos (by simp),hr,List.dropWhile_append_of_pos hall,
    List.takeWhile_append_of_pos hall]
  simp

section
variable (d : Position) (n : Name)

theorem splitLast_relPath :
    splitLast (relPath (d++[n])) = if d = [] then none else some (relPath d, n.1) := by
  split_ifs with hd
  · subst hd
    exact if_neg n.2.2.1
  · rw [relPath_deep hd,splitLast_deep n.2.2.1]

theorem pathParentDir_child : pathParentDir (relPath (d++[n])) = dirName d := by
  rw [pathParentDir,splitLast_relPath,dirName]
  split_ifs with hd
  · rfl
  · exact if_neg fun h => hd (relPath_eq_nil.mp h)

theorem pathBaseName_child : pathBaseName (relPath (d++[n])) = n.1 := by
  rw [pathBaseName,splitLast_relPath]
  by_cases hd : d = []
  · subst hd
    rfl
  · rw [if_neg hd]

end

theorem dropWhile_slash {p : Bytes} (h : p.head? ≠ some slash) :
    (p.dropWhile fun b => decide (b = slash)) = p := by
  cases p with
  | nil => rfl
  | cons b bs =>
    have hb : b ≠ slash := fun he => h (by rw [he]; rfl)
    simp [hb]

theorem planCleanPath_relPath (p : Position) : planCleanPath (relPath p) = relPath p := by
  rw [planCleanPath,dropWhile_slash relPath_head,dropWhile_slash,List.reverse_reverse]
  rw [List.head?_reverse]
  exact relPath_getLast

theorem length_le_relPath (d : Position) : d.length ≤ (relPath d).length := by
  induction d using List.reverseRecOn with
  | nil => simp
  | append_singleton d n ih =>
    by_cases hd : d = []
    · subst hd
      exact List.length_pos_iff.mpr n.2.1
    · rw [relPath_deep hd]
      simp only [List.length_append,List.length_cons,List.length_nil]
      omega

variable {s : DeletePlanSender} {d : Position}

section Build
variable (src : DirTree Name)

/-- A plan node of the sender lists only entries of its source directory. -/
def Sound (node : PlanNode) : Prop :=
  ∃ d, IsDir src d ∧ node.dir = dirName d ∧
    (∀ b ∈ node.dirs, ∃ n : Name, b = n.1 ∧ EntryAt src (d++[n]) true) ∧
    (∀ b ∈ node.files, ∃ n : Name, b = n.1 ∧ EntryAt src (d++[n]) false)

structure Recorded (sender : DeletePlanSender) : Prop where
  keys : (sender.nodes.map PlanNode.dir).Nodup
  sound : ∀ node ∈ sender.nodes, Sound src node
  unsent : ∀ node ∈ sender.nodes, node.sent = false

def HasNode (sender : DeletePlanSender) (d : Position) : Prop :=
  ∃ node ∈ sender.nodes, node.dir = dirName d

def HasDir (sender : DeletePlanSender) (d : Position) (n : Name) : Prop :=
  ∃ node ∈ sender.nodes, node.dir = dirName d ∧ n.1 ∈ node.dirs

def HasFile (sender : DeletePlanSender) (d : Position) (n : Name) : Prop :=
  ∃ node ∈ sender.nodes, node.dir = dirName d ∧ n.1 ∈ node.files

def Grows (sender sender' : DeletePlanSender) : Prop :=
  ∀ node ∈ sender.nodes, ∃ node' ∈ sender'.nodes,
    node'.dir = node.dir ∧ node.dirs ⊆ node'.dirs ∧ node.files ⊆ node'.files

theorem grows_refl (s : DeletePlanSender) : Grows s s :=
  fun node h => ⟨node,h,rfl,fun _ hb => hb,fun _ hb => hb⟩

theorem grows_trans {s1 s2 : DeletePlanSender} (h1 : Grows s s1) (h2 : Grows s1 s2) :
    Grows s s2 := by
  intro node hn
  obtain ⟨n1,hn1,he1,hd1,hf1⟩ := h1 node hn
  obtain ⟨n2,hn2,he2,hd2,hf2⟩ := h2 n1 hn1
  exact ⟨n2,hn2,he2.trans he1,fun b hb => hd2 (hd1 hb),fun b hb => hf2 (hf1 hb)⟩

variable {s' : DeletePlanSender}

theorem hasNode_grows (h : Grows s s') (hn : HasNode s d) : HasNode s' d := by
  obtain ⟨node,hmem,hdir⟩ := hn
  obtain ⟨node',hmem',he,-,-⟩ := h node hmem
  exact ⟨node',hmem',he.trans hdir⟩

variable {n : Name}

theorem hasDir_grows (h : Grows s s') (hn : HasDir s d n) : HasDir s' d n := by
  obtain ⟨node,hmem,hdir,hb⟩ := hn
  obtain ⟨node',hmem',he,hd,-⟩ := h node hmem
  exact ⟨node',hmem',he.trans hdir,hd hb⟩

theorem hasFile_grows (h : Grows s s') (hn : HasFile s d n) : HasFile s' d n := by
  obtain ⟨node,hmem,hdir,hb⟩ := hn
  obtain ⟨node',hmem',he,-,hf⟩ := h node hmem
  exact ⟨node',hmem',he.trans hdir,hf hb⟩

theorem planEnsure_recorded (h : Recorded src s)
    (hd : IsDir src d) : Recorded src (planEnsure s (dirName d)) ∧
      Grows s (planEnsure s (dirName d)) ∧ HasNode (planEnsure s (dirName d)) d := by
  unfold planEnsure
  cases hf : planFind s (dirName d) with
  | some node =>
    have hdir := List.find?_some hf
    exact ⟨h,grows_refl s,node,List.mem_of_find?_eq_some hf,of_decide_eq_true hdir⟩
  | none =>
    have hnew : dirName d ∉ s.nodes.map PlanNode.dir := by
      intro hm
      obtain ⟨node,hn,he⟩ := List.mem_map.mp hm
      have hne := List.find?_eq_none.mp hf node hn
      exact hne (decide_eq_true he)
    refine ⟨⟨List.nodup_cons.mpr ⟨hnew,h.keys⟩,?_,?_⟩,?_,⟨_,List.mem_cons_self,rfl⟩⟩
    · intro node hn
      rcases List.mem_cons.mp hn with rfl | hn
      · exact ⟨d,hd,rfl,by simp,by simp⟩
      · exact h.sound node hn
    · intro node hn
      rcases List.mem_cons.mp hn with rfl | hn
      · rfl
      · exact h.unsent node hn
    · exact fun node hn => ⟨node,List.mem_cons_of_mem _ hn,rfl,fun _ hb => hb,fun _ hb => hb⟩

theorem mem_listAddStrUnique {list : List Bytes} {value b : Bytes} :
    b ∈ listAddStrUnique list value ↔ b ∈ list ∨ b = value := by
  unfold listAddStrUnique
  split_ifs with h
  · exact ⟨.inl,fun hb => hb.elim id fun he => he ▸ h⟩
  · simp

theorem planUpdate_recorded {isDir : Bool} (h : Recorded src s) (he : EntryAt src (d++[n]) isDir)
    (f : PlanNode → PlanNode) (hdir : ∀ node, (f node).dir = node.dir)
    (hsent : ∀ node, (f node).sent = node.sent)
    (hdirs : ∀ node b, b ∈ (f node).dirs ↔ b ∈ node.dirs ∨ isDir = true ∧ b = n.1)
    (hfiles : ∀ node b, b ∈ (f node).files ↔ b ∈ node.files ∨ isDir = false ∧ b = n.1) :
    Recorded src (planUpdate s (dirName d) f) ∧ Grows s (planUpdate s (dirName d) f) := by
  have hkeys : (planUpdate s (dirName d) f).nodes.map PlanNode.dir = s.nodes.map PlanNode.dir := by
    rw [planUpdate,List.map_map]
    refine List.map_congr_left fun node _ => ?_
    rw [Function.comp_apply]
    split_ifs
    · exact hdir node
    · rfl
  refine ⟨⟨by rw [hkeys]; exact h.keys,?_,?_⟩,?_⟩
  · intro node hn
    obtain ⟨old,ho,rfl⟩ := List.mem_map.mp hn
    split_ifs with hold
    · obtain ⟨d',hd',hdir',hds,hfs⟩ := h.sound old ho
      have hdd : d' = d := dirName_injective (hdir'.symm.trans hold)
      subst hdd
      refine ⟨d',hd',(hdir old).trans hdir',fun b hb => ?_,fun b hb => ?_⟩
      · rcases (hdirs old b).mp hb with hb | ⟨rfl,rfl⟩
        · exact hds b hb
        · exact ⟨n,rfl,he⟩
      · rcases (hfiles old b).mp hb with hb | ⟨rfl,rfl⟩
        · exact hfs b hb
        · exact ⟨n,rfl,he⟩
    · exact h.sound old ho
  · intro node hn
    obtain ⟨old,ho,rfl⟩ := List.mem_map.mp hn
    split_ifs
    · rw [hsent old]
      exact h.unsent old ho
    · exact h.unsent old ho
  · intro node hn
    refine ⟨_,List.mem_map_of_mem hn,?_⟩
    split_ifs
    · exact ⟨hdir node,fun b hb => (hdirs node b).mpr (.inl hb),
        fun b hb => (hfiles node b).mpr (.inl hb)⟩
    · exact ⟨rfl,fun _ hb => hb,fun _ hb => hb⟩

theorem addDirName_recorded (h : Recorded src s) (he : EntryAt src (d++[n]) true) :
    Recorded src (planUpdate s (dirName d) (addDirName n.1)) ∧
      Grows s (planUpdate s (dirName d) (addDirName n.1)) ∧
      (HasNode s d → HasDir (planUpdate s (dirName d) (addDirName n.1)) d n) := by
  obtain ⟨hr,hg⟩ := planUpdate_recorded src h he (addDirName n.1) (fun _ => rfl) (fun _ => rfl)
    (by simp [addDirName,mem_listAddStrUnique]) (by simp [addDirName])
  refine ⟨hr,hg,?_⟩
  rintro ⟨node,hn,hdir⟩
  refine ⟨_,List.mem_map_of_mem hn,?_⟩
  rw [if_pos hdir]
  exact ⟨hdir,mem_listAddStrUnique.mpr (.inr rfl)⟩

theorem addFileName_recorded (h : Recorded src s) (he : EntryAt src (d++[n]) false) :
    Recorded src (planUpdate s (dirName d) (addFileName n.1)) ∧
      Grows s (planUpdate s (dirName d) (addFileName n.1)) ∧
      (HasNode s d → HasFile (planUpdate s (dirName d) (addFileName n.1)) d n) := by
  obtain ⟨hr,hg⟩ := planUpdate_recorded src h he (addFileName n.1) (fun _ => rfl) (fun _ => rfl)
    (by simp [addFileName]) (by simp [addFileName,mem_listAddStrUnique])
  refine ⟨hr,hg,?_⟩
  rintro ⟨node,hn,hdir⟩
  refine ⟨_,List.mem_map_of_mem hn,?_⟩
  rw [if_pos hdir]
  exact ⟨hdir,mem_listAddStrUnique.mpr (.inr rfl)⟩

theorem planEnsureAncestors_recorded {fuel : ℕ} (h : Recorded src s)
    (d : Position) (hd : IsDir src d) (hfuel : d.length < fuel) :
    Recorded src (planEnsureAncestors fuel s (dirName d)) ∧
      Grows s (planEnsureAncestors fuel s (dirName d)) := by
  induction fuel generalizing s d with
  | zero => omega
  | succ fuel ih =>
    rw [planEnsureAncestors]
    rcases List.eq_nil_or_concat' d with rfl | ⟨q,n,rfl⟩
    · have hroot : dirName [] = [dot] := rfl
      exact ⟨h,grows_refl s⟩
    · have hname : dirName (q++[n]) = relPath (q++[n]) := if_neg (by simp)
      rw [if_neg (by rw [hname]; exact relPath_ne_dot _),hname,pathParentDir_child,
        pathBaseName_child]
      have he : EntryAt src (q++[n]) true := isDir_entry hd (by simp)
      have hq := entryAt_parent he
      obtain ⟨h1,g1,-⟩ := planEnsure_recorded src h hq
      obtain ⟨h2,g2,-⟩ := addDirName_recorded src h1 he
      rw [List.length_append,List.length_singleton] at hfuel
      obtain ⟨h3,g3⟩ := ih h2 q hq (by omega)
      exact ⟨h3,grows_trans g1 (grows_trans g2 g3)⟩

theorem dirName_child (d : Position) (n : Name) : dirName (d++[n]) = relPath (d++[n]) :=
  if_neg (by simp)

theorem deletePlanSenderAdd_recorded (h : Recorded src s)
    {isDir : Bool} (he : EntryAt src (d++[n]) isDir) :
    let s' := deletePlanSenderAdd s (relPath (d++[n])) isDir
    Recorded src s' ∧ Grows s s' ∧ (isDir = true → HasDir s' d n ∧ HasNode s' (d++[n])) ∧
      (isDir = false → HasFile s' d n) := by
  intro s'
  have hd := entryAt_parent he
  have hne : relPath (d++[n]) ≠ [] := fun h => by simpa using relPath_eq_nil.mp h
  have hfuel : d.length < (dirName d).length+1 := by
    unfold dirName
    split_ifs with h0
    · simp [h0]
    · have := length_le_relPath d
      omega
  have hs' : s' = deletePlanSenderAdd s (relPath (d++[n])) isDir := rfl
  rw [deletePlanSenderAdd,planCleanPath_relPath,if_neg hne,pathParentDir_child,
    pathBaseName_child] at hs'
  obtain ⟨h1,g1,n1⟩ := planEnsure_recorded src h hd
  cases isDir with
  | true =>
    obtain ⟨h2,g2,n2⟩ := addDirName_recorded src h1 he
    have hchild : IsDir src (d++[n]) := isDir_iff.mpr (.inr he)
    obtain ⟨h3,g3,n3⟩ := planEnsure_recorded src h2 hchild
    rw [dirName_child] at h3 g3 n3
    obtain ⟨h4,g4⟩ := planEnsureAncestors_recorded src h3 d hd hfuel
    rw [hs']
    exact ⟨⟨h4.keys,h4.sound,h4.unsent⟩,grows_trans g1 (grows_trans g2 (grows_trans g3 g4)),
      fun _ => ⟨hasDir_grows (grows_trans g3 g4) (n2 n1),hasNode_grows g4 n3⟩,by simp⟩
  | false =>
    obtain ⟨h2,g2,n2⟩ := addFileName_recorded src h1 he
    obtain ⟨h4,g4⟩ := planEnsureAncestors_recorded src h2 d hd hfuel
    rw [hs']
    exact ⟨⟨h4.keys,h4.sound,h4.unsent⟩,grows_trans g1 (grows_trans g2 g4),by simp,
      fun _ => hasFile_grows g4 (n2 n1)⟩

def addAll (adds : List (Position × Bool)) (s : DeletePlanSender) : DeletePlanSender :=
  adds.foldl (fun s x => deletePlanSenderAdd s (relPath x.1) x.2) s

theorem addAll_recorded {adds : List (Position × Bool)}
    (h : Recorded src s) (hsrc : ∀ x ∈ adds, EntryAt src x.1 x.2) :
    Recorded src (addAll adds s) ∧ Grows s (addAll adds s) ∧
      ∀ d n isDir, (d++[n], isDir) ∈ adds →
        (isDir = true → HasDir (addAll adds s) d n ∧ HasNode (addAll adds s) (d++[n])) ∧
        (isDir = false → HasFile (addAll adds s) d n) := by
  induction adds generalizing s with
  | nil => exact ⟨h,grows_refl s,by simp⟩
  | cons x adds ih =>
    obtain ⟨p,k⟩ := x
    have hx : EntryAt src p k := hsrc (p, k) (by simp)
    obtain ⟨d,m,rfl⟩ := (List.eq_nil_or_concat' p).resolve_left (entryAt_ne_nil hx)
    obtain ⟨h1,g1,hd1,hf1⟩ := deletePlanSenderAdd_recorded src h hx
    obtain ⟨h2,g2,hall⟩ := ih h1 fun y hy => hsrc y (List.mem_cons_of_mem _ hy)
    refine ⟨h2,grows_trans g1 g2,?_⟩
    intro d' n isDir hmem
    rcases List.mem_cons.mp hmem with hxe | hmem
    · obtain ⟨hp,rfl⟩ := Prod.mk.inj hxe
      obtain ⟨rfl,hn⟩ := List.append_inj' hp rfl
      cases hn
      exact ⟨fun hb => ⟨hasDir_grows g2 (hd1 hb).1,hasNode_grows g2 (hd1 hb).2⟩,
        fun hb => hasFile_grows g2 (hf1 hb)⟩
    · exact hall d' n isDir hmem

end Build

theorem boundaries_last (a : Bytes) {n : Bytes} {k m : ℕ} (hn : slash ∉ n) (hk : a.length ≤ k)
    (hm : k+m = (a++n).length) :
    ((List.range' k (m+1)).filter fun i => decide (i = (a++n).length) ||
      decide (((a++n).drop i).head? = some slash)).map (a++n).take = [a++n] := by
  rw [← List.range'_append_1,List.filter_append,List.map_append,
    List.filter_eq_nil_iff.mpr,List.map_nil,List.nil_append]
  · simp [hm]
  · intro i hi
    rw [List.mem_range'_1] at hi
    rw [Bool.or_eq_true,decide_eq_true_eq,decide_eq_true_eq,not_or]
    refine ⟨by omega,?_⟩
    rw [List.head?_drop,List.getElem?_append_right (by omega)]
    exact fun hs => hn (List.mem_of_getElem? hs)

theorem leadingDirs_deep {a n : Bytes} (hn : slash ∉ n) :
    leadingDirs (a++slash::n) (a++slash::n).length = leadingDirs a a.length++[a++slash::n] := by
  have hlen : (a++slash::n).length = a.length+(n.length+1) := by simp
  have hrange : List.range' 1 (a++slash::n).length =
      List.range' 1 a.length++List.range' (1+a.length) (n.length+1) := by
    rw [hlen,List.range'_append_1]
  rw [leadingDirs,hrange,List.filter_append,List.map_append]
  congr 1
  · -- up to the slash the two paths agree
    have hfil : ∀ i ∈ List.range' 1 a.length,
        (decide (i = (a++slash::n).length) ||
          decide (((a++slash::n).drop i).head? = some slash)) =
        (decide (i = a.length) || decide ((a.drop i).head? = some slash)) := by
      intro i hi
      rw [List.mem_range'_1] at hi
      rw [List.drop_append_of_le_length (by omega),decide_eq_false (by omega),Bool.false_or]
      by_cases hia : i = a.length
      · simp [hia]
      · have hdrop : a.drop i ≠ [] := by
          rw [Ne,List.drop_eq_nil_iff]
          omega
        rw [List.head?_append_of_ne_nil _ hdrop,decide_eq_false hia,Bool.false_or]
    rw [List.filter_congr hfil]
    refine List.map_congr_left fun i hi => ?_
    have := List.mem_range'_1.mp (List.mem_of_mem_filter hi)
    exact List.take_append_of_le_length (by omega)
  · rw [List.append_cons]
    exact boundaries_last (a++[slash]) hn (by simp [Nat.add_comm]) (by simp; omega)

theorem leadingDirs_plain {n : Bytes} (hn : slash ∉ n) (hne : n ≠ []) :
    leadingDirs n n.length = [n] := by
  obtain ⟨k,hk⟩ : ∃ k, n.length = k+1 := ⟨_,(Nat.succ_pred (mt List.length_eq_zero_iff.mp hne)).symm⟩
  have hlast := boundaries_last (k := 1) (m := k) [] hn (Nat.zero_le 1) (by simp; omega)
  rwa [List.nil_append,← hk] at hlast

theorem leadingDirs_relPath (d : Position) (n : Name) :
    leadingDirs (relPath (d++[n])) (relPath (d++[n])).length =
      (if d = [] then [] else leadingDirs (relPath d) (relPath d).length)++[relPath (d++[n])] := by
  split_ifs with hd
  · subst hd
    exact leadingDirs_plain n.2.2.1 n.2.1
  · rw [relPath_deep hd]
    exact leadingDirs_deep n.2.2.1

section Send
variable (src : DirTree Name)

/-- The plan of one source directory, as a frame without configuration. -/
structure FrameFor (d : Position) (frame : PlanFrame) : Prop where
  config : frame.config = none
  apply : frame.apply = true
  dir : frame.dir = dirName d
  dirs : ∀ b, b ∈ frame.dirs ↔ ∃ n : Name, b = n.1 ∧ EntryAt src (d++[n]) true
  files : ∀ b, b ∈ frame.files ↔ ∃ n : Name, b = n.1 ∧ EntryAt src (d++[n]) false

/-- A sender that knows the whole source tree and has transmitted the plans of
the directories `ds`, in this order. -/
structure Sent (sender : DeletePlanSender) (ds : List Position) (fs : List PlanFrame) :
    Prop where
  config : sender.configSent = true
  scope : sender.allSynced = true
  root : sender.walkRoot = none
  keys : (sender.nodes.map PlanNode.dir).Nodup
  sound : ∀ node ∈ sender.nodes, Sound src node
  hasNode : ∀ d, IsDir src d → HasNode sender d
  hasDir : ∀ d n, EntryAt src (d++[n]) true → HasDir sender d n
  hasFile : ∀ d n, EntryAt src (d++[n]) false → HasFile sender d n
  flags : ∀ node ∈ sender.nodes, ∀ d, node.dir = dirName d → (node.sent = true ↔ d ∈ ds)
  known : ∀ d ∈ ds, IsDir src d
  closed : ∀ d ∈ ds, ∀ q, Below q d → q ∈ ds
  nodup : ds.Nodup
  order : ds.Pairwise fun a b => ¬Below b a
  frames : List.Forall₂ (FrameFor src) ds fs

variable {src}

theorem node_unique (h : (s.nodes.map PlanNode.dir).Nodup)
    {a b : PlanNode} (ha : a ∈ s.nodes) (hb : b ∈ s.nodes) (hd : a.dir = b.dir) : a = b :=
  List.inj_on_of_nodup_map h ha hb hd

variable {ds : List Position} {fs : List PlanFrame}

section
variable (h : Sent src s ds fs) {node : PlanNode} (hn : node ∈ s.nodes)
include h hn

theorem sent_frame (hdir : node.dir = dirName d) :
    FrameFor src d ⟨none,true,node.dir,node.dirs,node.files⟩ := by
  obtain ⟨d',-,hdir',hds,hfs⟩ := h.sound node hn
  have hdd : d' = d := dirName_injective (hdir'.symm.trans hdir)
  subst hdd
  refine ⟨rfl,rfl,hdir,fun b => ⟨hds b,?_⟩,fun b => ⟨hfs b,?_⟩⟩
  · rintro ⟨n,rfl,he⟩
    obtain ⟨node',hn',hdir'',hb⟩ := h.hasDir d' n he
    rw [node_unique h.keys hn hn' (hdir.trans hdir''.symm)]
    exact hb
  · rintro ⟨n,rfl,he⟩
    obtain ⟨node',hn',hdir'',hb⟩ := h.hasFile d' n he
    rw [node_unique h.keys hn hn' (hdir.trans hdir''.symm)]
    exact hb

theorem sent_mark (hd : IsDir src d) (hdir : node.dir = dirName d) (hnew : d ∉ ds)
    (habove : ∀ q, Below q d → q ∈ ds) :
    Sent src (planUpdate { s with configSent := true } node.dir fun n => { n with sent := true })
      (ds++[d]) (fs++[⟨none,true,node.dir,node.dirs,node.files⟩]) := by
  set mark := fun n : PlanNode => if n.dir = node.dir then { n with sent := true } else n with hmark
  have hmd : ∀ n, (mark n).dir = n.dir ∧ (mark n).dirs = n.dirs ∧ (mark n).files = n.files := by
    intro n
    rw [hmark]
    dsimp only
    split_ifs <;> exact ⟨rfl,rfl,rfl⟩
  have hnodes : ∀ n' ∈ s.nodes.map mark, ∃ n ∈ s.nodes, mark n = n' :=
    fun n' => List.mem_map.mp
  refine ⟨rfl,h.scope,h.root,?_,?_,?_,?_,?_,?_,?_,?_,?_,?_,?_⟩
  · show ((s.nodes.map mark).map PlanNode.dir).Nodup
    have hsame : (s.nodes.map mark).map PlanNode.dir = s.nodes.map PlanNode.dir := by
      rw [List.map_map]
      exact List.map_congr_left fun n _ => (hmd n).1
    rw [hsame]
    exact h.keys
  · intro n' hn'
    obtain ⟨n,hn,rfl⟩ := hnodes n' hn'
    obtain ⟨d',hd',hdir',hds,hfs⟩ := h.sound n hn
    exact ⟨d',hd',(hmd n).1.trans hdir',by rwa [(hmd n).2.1],by rwa [(hmd n).2.2]⟩
  · intro d' hd'
    obtain ⟨n,hn,hdir'⟩ := h.hasNode d' hd'
    exact ⟨mark n,List.mem_map_of_mem hn,(hmd n).1.trans hdir'⟩
  · intro d' m he
    obtain ⟨n,hn,hdir',hb⟩ := h.hasDir d' m he
    exact ⟨mark n,List.mem_map_of_mem hn,(hmd n).1.trans hdir',by rwa [(hmd n).2.1]⟩
  · intro d' m he
    obtain ⟨n,hn,hdir',hb⟩ := h.hasFile d' m he
    exact ⟨mark n,List.mem_map_of_mem hn,(hmd n).1.trans hdir',by rwa [(hmd n).2.2]⟩
  · intro n' hn' d' hdir'
    obtain ⟨n,hn,rfl⟩ := hnodes n' hn'
    rw [(hmd n).1] at hdir'
    by_cases hnn : n.dir = node.dir
    · have hdd : d' = d := dirName_injective (hdir'.symm.trans (hnn.trans hdir))
      simp [hmark,hnn,hdd]
    · have hdd : d' ≠ d := by
        rintro rfl
        exact hnn (hdir'.trans hdir.symm)
      simp [hmark,hnn,hdd,h.flags n hn d' hdir']
  · intro d' hd'
    rcases List.mem_append.mp hd' with hd' | hd'
    · exact h.known d' hd'
    · rw [List.mem_singleton.mp hd']
      exact hd
  · intro d' hd' q hq
    rcases List.mem_append.mp hd' with hd' | hd'
    · exact List.mem_append_left _ (h.closed d' hd' q hq)
    · rw [List.mem_singleton.mp hd'] at hq
      exact List.mem_append_left _ (habove q hq)
  · exact h.nodup.append (by simp) (by simpa using hnew)
  · rw [List.pairwise_append]
    refine ⟨h.order,by simp,?_⟩
    intro a ha b hb hab
    rw [List.mem_singleton.mp hb] at hab
    exact hnew (h.closed a ha d hab)
  · exact List.rel_append h.frames (.cons (sent_frame h hn hdir) .nil)

end

theorem sendPrefixPlan_sent
    (h : Sent src s ds fs) (hd : IsDir src d) (habove : ∀ q, Below q d → q ∈ ds) :
    ∃ ds', Sent src (sendPrefixPlan s (dirName d)).1 ds'
      (fs++(sendPrefixPlan s (dirName d)).2) ∧ d ∈ ds' ∧ ds ⊆ ds' := by
  obtain ⟨node,hn,hdir⟩ := h.hasNode d hd
  have hfind : planFind s (dirName d) = some node := by
    have hsome : (planFind s (dirName d)).isSome := by
      rw [planFind,List.find?_isSome]
      exact ⟨node,hn,decide_eq_true hdir⟩
    obtain ⟨node',hf⟩ := Option.isSome_iff_exists.mp hsome
    have hfound := List.find?_some hf
    have hdir' := of_decide_eq_true hfound
    rw [hf,node_unique h.keys (List.mem_of_find?_eq_some hf) hn (hdir'.trans hdir.symm)]
  have hallowed : planIsAllowed s (dirName d) = true := by rw [planIsAllowed,if_pos h.scope]
  have hflag := h.flags node hn d hdir
  rw [sendPrefixPlan,hfind]
  dsimp only
  cases hsent : node.sent with
  | true =>
    refine ⟨ds,?_,hflag.mp hsent,fun _ hx => hx⟩
    simpa using h
  | false =>
    have hnew : d ∉ ds := fun hmem => by
      rw [hflag.mpr hmem] at hsent
      cases hsent
    refine ⟨ds++[d],?_,by simp,List.subset_append_left _ _⟩
    rw [hallowed]
    have hm := sent_mark h hn hd hdir hnew habove
    simpa [sendPlanNode,senderConfig,h.config] using hm

theorem sendEach_append (s : DeletePlanSender) (xs ys : List Bytes) :
    sendEach s (xs++ys) = ((sendEach (sendEach s xs).1 ys).1,
      (sendEach s xs).2++(sendEach (sendEach s xs).1 ys).2) := by
  induction xs generalizing s with
  | nil => simp [sendEach]
  | cons x xs ih => simp [sendEach,ih]

theorem sendEach_single (s : DeletePlanSender) (dir : Bytes) :
    sendEach s [dir] = sendPrefixPlan s dir := by simp [sendEach]

section
variable (h : Sent src s ds fs) (hroot : [] ∈ ds) (d : Position) (n : Name)
  (hd : IsDir src (d++[n]))
include h hroot hd

theorem sendEach_sent :
    let r := sendEach s (leadingDirs (relPath (d++[n])) (relPath (d++[n])).length)
    ∃ ds', Sent src r.1 ds' (fs++r.2) ∧ d++[n] ∈ ds' ∧ ds ⊆ ds' := by
  induction d using List.reverseRecOn generalizing n with
  | nil =>
    rw [leadingDirs_relPath,if_pos rfl,List.nil_append,sendEach_single,← dirName_child]
    refine sendPrefixPlan_sent h hd fun q hq => ?_
    rcases (below_concat q [] n).mp hq with hq | rfl
    · exact absurd hq below_nil
    · exact hroot
  | append_singleton q m ih =>
    have hq : IsDir src (q++[m]) :=
      entryAt_parent (isDir_entry hd (by simp))
    obtain ⟨ds1,h1,hm1,hs1⟩ := ih m hq
    rw [leadingDirs_relPath,if_neg (by simp),sendEach_append,sendEach_single,
      ← dirName_child (q++[m]) n]
    have habove : ∀ p, Below p (q++[m]++[n]) → p ∈ ds1 := by
      intro p hp
      rcases (below_concat p (q++[m]) n).mp hp with hp | rfl
      · exact h1.closed _ hm1 p hp
      · exact hm1
    obtain ⟨ds2,h2,hm2,hs2⟩ := sendPrefixPlan_sent h1 hd habove
    exact ⟨ds2,by simpa using h2,hm2,fun x hx => hs2 (hs1 hx)⟩

theorem deletePlanSendForPath_sent : let r := deletePlanSendForPath s (relPath (d++[n])) true
    ∃ ds', Sent src r.1 ds' (fs++r.2) ∧ d++[n] ∈ ds' ∧ ds ⊆ ds' := by
  have hnone : sendPrefixPlan s [dot] = sendPrefixPlan s (dirName []) := rfl
  obtain ⟨ds1,h1,-,hs1⟩ := sendPrefixPlan_sent h (.root : IsDir src [])
    (fun q hq => absurd hq below_nil)
  obtain ⟨ds2,h2,hm2,hs2⟩ := sendEach_sent h1 (hs1 hroot) d n hd
  refine ⟨ds2,?_,hm2,fun x hx => hs2 (hs1 hx)⟩
  simpa [deletePlanSendForPath,planCleanPath_relPath,h.root,hnone] using h2

end

theorem deletePlanSendRemaining_sent
    (h : Sent src s ds fs) (hroot : [] ∈ ds) {dirs : List Position}
    (hdirs : ∀ d ∈ dirs, IsDir src d ∧ d ≠ []) :
    let r := deletePlanSendRemaining s (dirs.map relPath)
    ∃ ds', Sent src r.1 ds' (fs++r.2) ∧ (∀ d ∈ dirs, d ∈ ds') ∧ ds ⊆ ds' := by
  induction dirs generalizing s ds fs with
  | nil => exact ⟨ds,by simpa [deletePlanSendRemaining] using h,by simp,fun _ hx => hx⟩
  | cons d dirs ih =>
    obtain ⟨hd,hne⟩ := hdirs d (by simp)
    obtain ⟨q,n,rfl⟩ := (List.eq_nil_or_concat' d).resolve_left hne
    obtain ⟨ds1,h1,hm1,hs1⟩ := deletePlanSendForPath_sent h hroot q n hd
    obtain ⟨ds2,h2,hall,hs2⟩ := ih h1 (hs1 hroot) fun d hd => hdirs d (List.mem_cons_of_mem _ hd)
    refine ⟨ds2,by simpa [deletePlanSendRemaining] using h2,?_,fun x hx => hs2 (hs1 hx)⟩
    intro d' hd'
    rcases List.mem_cons.mp hd' with rfl | hd'
    · exact hs2 hm1
    · exact hall d' hd'

end Send

def planSender (adds : List (Position × Bool)) (config : PlanConfig) : DeletePlanSender :=
  deletePlanSenderSetConfig (deletePlanSenderFinalize (addAll adds deletePlanSenderCreate)
    none none) config.protectedPrefixes config.sizeSkipped config.missing

theorem planEnsure_nodes (s : DeletePlanSender) (dir : Bytes) :
    ∃ nodes, planEnsure s dir = { s with nodes := nodes } := by
  unfold planEnsure
  split
  · exact ⟨s.nodes,rfl⟩
  · exact ⟨_,rfl⟩

theorem planEnsureAncestors_configSent (fuel : ℕ) (s : DeletePlanSender) (dir : Bytes) :
    (planEnsureAncestors fuel s dir).configSent = s.configSent := by
  induction fuel generalizing s dir with
  | zero => rfl
  | succ fuel ih =>
    rw [planEnsureAncestors]
    split_ifs
    · rfl
    · obtain ⟨nodes,hn⟩ := planEnsure_nodes s (pathParentDir dir)
      rw [ih,hn]
      rfl

theorem deletePlanSenderAdd_configSent (s : DeletePlanSender) (path : Bytes) (isDir : Bool) :
    (deletePlanSenderAdd s path isDir).configSent = s.configSent := by
  unfold deletePlanSenderAdd
  dsimp only
  obtain ⟨nodes,hn⟩ := planEnsure_nodes s (pathParentDir (planCleanPath path))
  split_ifs
  · rfl
  · obtain ⟨nodes',hn'⟩ := planEnsure_nodes (planUpdate (planEnsure s
      (pathParentDir (planCleanPath path))) (pathParentDir (planCleanPath path))
        (addDirName (pathBaseName (planCleanPath path)))) (planCleanPath path)
    rw [planEnsureAncestors_configSent,hn',hn]
    rfl
  · rw [planEnsureAncestors_configSent,hn]
    rfl

theorem addAll_configSent {adds : List (Position × Bool)} (s : DeletePlanSender) :
    (addAll adds s).configSent = s.configSent := by
  induction adds generalizing s with
  | nil => rfl
  | cons x adds ih =>
    show (addAll adds (deletePlanSenderAdd s (relPath x.1) x.2)).configSent = _
    rw [ih,deletePlanSenderAdd_configSent]

theorem recorded_create {src : DirTree Name} : Recorded src deletePlanSenderCreate :=
  ⟨List.nodup_nil,by simp [deletePlanSenderCreate],by simp [deletePlanSenderCreate]⟩

theorem sent_start (src : DirTree Name) (adds : List (Position × Bool)) (config : PlanConfig)
    (hadds : ∀ p isDir, (p, isDir) ∈ adds ↔ EntryAt src p isDir) :
    Sent src { planEnsure (planSender adds config) [dot] with configSent := true } [] [] := by
  obtain ⟨hrec,-,hall⟩ := addAll_recorded src recorded_create
    fun x hx => (hadds x.1 x.2).mp hx
  have hrec' : Recorded src (planSender adds config) := ⟨hrec.keys,hrec.sound,hrec.unsent⟩
  obtain ⟨h1,g1,hn1⟩ := planEnsure_recorded src hrec' (.root : IsDir src [])
  obtain ⟨nodes,hnodes⟩ := planEnsure_nodes (planSender adds config) [dot]
  refine ⟨rfl,?_,?_,h1.keys,h1.sound,?_,?_,?_,?_,by simp,by simp,by simp,by simp,.nil⟩
  · rw [hnodes]
    rfl
  · rw [hnodes]
    rfl
  · intro d hd
    rcases List.eq_nil_or_concat' d with rfl | ⟨q,n,rfl⟩
    · exact hn1
    · have he := isDir_entry hd (by simp)
      exact hasNode_grows g1 ((hall q n true ((hadds _ _).mpr he)).1 rfl).2
  · intro d n he
    exact hasDir_grows g1 ((hall d n true ((hadds _ _).mpr he)).1 rfl).1
  · intro d n he
    exact hasFile_grows g1 ((hall d n false ((hadds _ _).mpr he)).2 rfl)
  · intro node hn d _
    rw [h1.unsent node hn]
    simp

theorem deletePlanSendAll_frames {src : DirTree Name} {adds : List (Position × Bool)}
    {dirs : List Position} {config : PlanConfig}
    (hadds : ∀ p isDir, (p, isDir) ∈ adds ↔ EntryAt src p isDir)
    (hdirs : ∀ d, d ∈ dirs ↔ IsDir src d ∧ d ≠ []) :
    ∃ ds fs, deletePlanSendAll (planSender adds config) (dirs.map relPath) =
        ⟨some config,false,[dot],[],[]⟩::fs ∧
      List.Forall₂ (FrameFor src) ds fs ∧ ds.Nodup ∧ (ds.Pairwise fun a b => ¬Below b a) ∧
      ∀ d, d ∈ ds ↔ IsDir src d := by
  have h0 := sent_start src adds config hadds
  obtain ⟨ds1,h1,hroot,-⟩ := sendPrefixPlan_sent h0 (.root : IsDir src [])
    (fun q hq => absurd hq below_nil)
  obtain ⟨ds2,h2,hall,hs2⟩ := deletePlanSendRemaining_sent h1 hroot
    fun d hd => (hdirs d).mp hd
  obtain ⟨nodes,hnodes⟩ := planEnsure_nodes (planSender adds config) [dot]
  have hconf : (planSender adds config).configSent = false :=
    (addAll_configSent deletePlanSenderCreate).trans rfl
  have hroot' : deletePlanSendRoot (planSender adds config) =
      ((sendPrefixPlan { planEnsure (planSender adds config) [dot] with configSent := true }
        (dirName [])).1, ⟨some config,false,[dot],[],[]⟩::(sendPrefixPlan
          { planEnsure (planSender adds config) [dot] with configSent := true } (dirName [])).2) := by
    have hwalk : (planSender adds config).walkRoot.getD [dot] = [dot] := rfl
    rw [deletePlanSendRoot,hwalk]
    rw [sendConfigOnly,hnodes,if_neg (by simp [hconf])]
    rw [senderConfig,if_neg (by simp [hconf])]
    rfl
  refine ⟨ds2,_,?_,h2.frames,h2.nodup,h2.order,fun d => ⟨h2.known d,fun hd => ?_⟩⟩
  · rw [deletePlanSendAll,hroot']
    simp
  · by_cases hd0 : d = []
    · rw [hd0]
      exact hs2 hroot
    · exact hall d ((hdirs d).mpr ⟨hd,hd0⟩)

end FastSync.DeletePlanFrames
