import FastSync.DeleteExtras

/-!
# The list of extras as a list

Every element is an entry of the tree with its kind, no position occurs twice,
and a directory stands behind all of its entries. Membership follows the tree:
an entry is listed when it is an extra and, for a directory, all it holds is.
-/

set_option autoImplicit false

namespace FastSync.DeleteListing
open FiniteTree DeletePaths DeleteWalk DeleteExtras

theorem extrasBelow_fuel (t : DirTree Name) (run : DeleteRun) (fuel fuel' : ℕ) (dir : Position)
    (rel : Bytes) (pd : Bool) (h : t.height dir < fuel) (h' : t.height dir < fuel') :
    extrasBelow t run fuel dir rel pd = extrasBelow t run fuel' dir rel pd := by
  induction fuel generalizing fuel' dir rel pd with
  | zero => omega
  | succ fuel ih =>
    obtain ⟨k,rfl⟩ : ∃ k, fuel' = k+1 := ⟨fuel'-1,by omega⟩
    have hsub : ∀ e ∈ sortEntries (t.entries dir), e.isDir = true →
        extrasBelow t run fuel (dir++[e.name]) (pathCat rel e.name.1)
          (pd || isSyncedDir run.dirs rel) =
        extrasBelow t run k (dir++[e.name]) (pathCat rel e.name.1)
          (pd || isSyncedDir run.dirs rel) := by
      intro e he hdir
      have hh := t.height_lt dir e ((mem_sortEntries _).mp he) hdir
      exact ih k _ _ _ (by omega) (by omega)
    rw [extrasBelow, extrasBelow, entriesExtras, entriesExtras]
    congr 1
    · refine List.flatMap_congr fun e he => ?_
      have he' := ((mem_visitOrder (sortEntries_dirsFirst _)).mp he).1
      cases hdir : e.isDir with
      | false =>
        simp only [contribution, hdir]
        cases classify run rel (pd || isSyncedDir run.dirs rel) e <;> rfl
      | true => simp [contribution, hdir, hsub e he' hdir]
    · rw [Bool.eq_iff_iff, List.all_eq_true, List.all_eq_true]
      refine forall₂_congr fun e he => ?_
      cases hdir : e.isDir with
      | false => simp
      | true => rw [hsub e he hdir]

theorem within_disjoint {dir : Position} {a b : Name} (hab : a ≠ b) {p : Position}
    (ha : Below (dir++[a]) p ∨ p = dir++[a]) (hb : Below (dir++[b]) p ∨ p = dir++[b]) : False := by
  rcases ha with ha | ha
  · exact hab (below_sibling ha hb)
  · rcases hb with hb | hb
    · exact hab (below_sibling hb (.inr ha)).symm
    · rw [ha] at hb
      exact hab (List.cons.inj (List.append_cancel_left hb)).1

theorem contribution_nodup (v : DeleteDirEntry → Verdict) (dir : Position)
    (sub : DeleteDirEntry → List Extra × Bool) (e : DeleteDirEntry)
    (hb : ∀ x ∈ (sub e).1, Below (dir++[e.name]) x.1) (hn : ((sub e).1.map Prod.fst).Nodup) :
    ((contribution v dir sub e).map Prod.fst).Nodup := by
  unfold contribution
  split
  · unfold emptied
    split
    · rw [List.map_append, List.nodup_append]
      refine ⟨hn,by simp,?_⟩
      intro p hp q hq
      obtain ⟨x,hx,rfl⟩ := List.mem_map.mp hp
      rw [List.map_singleton, List.mem_singleton] at hq
      rintro rfl
      have := hb x hx
      rw [hq] at this
      exact below_irrefl this
    · rw [List.append_nil]
      exact hn
  · simp
  · exact hn
  · simp

theorem visitOrder_nodup (v : DeleteDirEntry → Verdict) {entries : List DeleteDirEntry}
    (hn : (entries.map Entry.name).Nodup) : ((visitOrder v entries).map Entry.name).Nodup := by
  apply passes_nodup
  rw [List.takeWhile_append_dropWhile]
  exact hn

/-- Every directory of the list stands behind all of its entries. -/
def Closed (t : DirTree Name) (xs : List Extra) : Prop :=
  ∀ l p r, xs = l++(p, true)::r → ∀ c ∈ t.entries p, p++[c.name] ∈ l.map Prod.fst

theorem closed_nil {t : DirTree Name} : Closed t [] := by
  intro l p r h
  simp at h

theorem closed_append {t : DirTree Name} {xs ys : List Extra} (hx : Closed t xs) (hy : Closed t ys) :
    Closed t (xs++ys) := by
  intro l p r h c hc
  rcases List.append_eq_append_iff.mp h with ⟨l',rfl,hl⟩ | ⟨m,rfl,hm⟩
  · rw [List.map_append, List.mem_append]
    exact .inr (hy l' p r hl c hc)
  · cases m with
    | nil =>
      have := hy [] p r hm.symm c hc
      simp at this
    | cons a m =>
      obtain ⟨rfl,-⟩ := List.cons.inj hm
      exact hx l p m rfl c hc

theorem closed_flatMap {α : Type} {t : DirTree Name} {as : List α} {f : α → List Extra}
    (h : ∀ a ∈ as, Closed t (f a)) : Closed t (as.flatMap f) := by
  induction as with
  | nil => exact closed_nil
  | cons a as ih =>
    exact closed_append (h a (by simp)) (ih fun b hb => h b (List.mem_cons_of_mem _ hb))

theorem closed_single {t : DirTree Name} {xs : List Extra} {p : Position} (hx : Closed t xs)
    (hall : ∀ c ∈ t.entries p, ∃ x ∈ xs, x.1 = p++[c.name]) : Closed t (xs++[(p, true)]) := by
  intro l q r h c hc
  rcases List.eq_nil_or_concat' r with rfl | ⟨r',z,rfl⟩
  · obtain ⟨rfl,hq⟩ := List.append_inj' h rfl
    obtain ⟨rfl,-⟩ := Prod.mk.inj (List.cons.inj hq).1
    obtain ⟨x,hxs,hxc⟩ := hall c hc
    rw [← hxc]
    exact List.mem_map_of_mem hxs
  · rw [← List.cons_append, ← List.append_assoc] at h
    exact hx l q r' (List.append_inj' h rfl).1 c hc

section Properties
variable (t : DirTree Name) (v : DeleteDirEntry → Verdict) (dir : Position)
variable (sub : DeleteDirEntry → List Extra × Bool)

theorem entriesExtras_listed (hd : IsDir t dir)
    (hsub : ∀ e ∈ t.entries dir, e.isDir = true → ∀ x ∈ (sub e).1, EntryAt t x.1 x.2) :
    ∀ x ∈ (entriesExtras v dir sub (sortEntries (t.entries dir))).1, EntryAt t x.1 x.2 := by
  intro x hx
  obtain ⟨e,he,hx⟩ := List.mem_flatMap.mp hx
  have hmem := (mem_sortEntries _).mp
    ((mem_visitOrder (sortEntries_dirsFirst _)).mp he).1
  unfold contribution at hx
  split at hx
  · rename_i hdir
    rcases List.mem_append.mp hx with hx | hx
    · exact hsub e hmem hdir x hx
    · split at hx
      · rw [List.mem_singleton.mp hx]
        exact ⟨dir,e,hd,hmem,rfl,hdir.symm⟩
      · exact absurd hx List.not_mem_nil
  · rename_i hdir
    rw [List.mem_singleton.mp hx]
    exact ⟨dir,e,hd,hmem,rfl,hdir.symm⟩
  · rename_i hdir
    exact hsub e hmem hdir x hx
  · exact absurd hx List.not_mem_nil

theorem entriesExtras_nodup (hbelow : ∀ e, ∀ x ∈ (sub e).1, Below (dir++[e.name]) x.1)
    (hsub : ∀ e, ((sub e).1.map Prod.fst).Nodup) :
    ((entriesExtras v dir sub (sortEntries (t.entries dir))).1.map Prod.fst).Nodup := by
  rw [entriesExtras, List.map_flatMap, List.nodup_flatMap]
  constructor
  · intro e _
    exact contribution_nodup v dir sub e (hbelow e) (hsub e)
  · have hn := visitOrder_nodup v (sortEntries_nodup _ (t.names_nodup dir))
    rw [List.Nodup, List.pairwise_map] at hn
    refine hn.imp fun {a b} hab => ?_
    intro p hpa hpb
    obtain ⟨x,hx,rfl⟩ := List.mem_map.mp hpa
    obtain ⟨y,hy,hxy⟩ := List.mem_map.mp hpb
    refine within_disjoint hab (contribution_within (hbelow a) x hx) ?_
    rw [← hxy]
    exact contribution_within (hbelow b) y hy

theorem entriesExtras_closed (hsub : ∀ e, Closed t (sub e).1)
    (hcovers : ∀ e, (sub e).2 = true → ∀ c ∈ t.entries (dir++[e.name]),
      ∃ x ∈ (sub e).1, x.1 = dir++[e.name]++[c.name]) :
    Closed t (entriesExtras v dir sub (sortEntries (t.entries dir))).1 := by
  refine closed_flatMap fun e _ => ?_
  unfold contribution
  split
  · unfold emptied
    split
    · exact closed_single (hsub e) (hcovers e ‹_›)
    · rw [List.append_nil]
      exact hsub e
  · intro l p r h
    have hmem : (p, true) ∈ [(dir++[e.name], false)] := h ▸ by simp
    simp at hmem
  · exact hsub e
  · exact closed_nil

end Properties

section Below
variable (t : DirTree Name) (run : DeleteRun)

section
variable (fuel : ℕ) (dir : Position) (rel : Bytes) (pd : Bool)

theorem extrasBelow_listed (hd : IsDir t dir) :
    ∀ x ∈ (extrasBelow t run fuel dir rel pd).1, EntryAt t x.1 x.2 := by
  induction fuel generalizing dir rel pd with
  | zero => simp [extrasBelow]
  | succ fuel ih =>
    exact entriesExtras_listed t _ dir _ hd
      fun e he hdir => ih _ _ _ (.child dir e hd he hdir)

theorem extrasBelow_nodup : ((extrasBelow t run fuel dir rel pd).1.map Prod.fst).Nodup := by
  induction fuel generalizing dir rel pd with
  | zero => simp [extrasBelow]
  | succ fuel ih =>
    exact entriesExtras_nodup t _ dir _ (fun e => extrasBelow_below t run fuel _ _ _)
      fun e => ih _ _ _

theorem extrasBelow_closed : Closed t (extrasBelow t run fuel dir rel pd).1 := by
  induction fuel generalizing dir rel pd with
  | zero => exact closed_nil
  | succ fuel ih =>
    exact entriesExtras_closed t _ dir _ (fun e => ih _ _ _)
      fun e => extrasBelow_covers t run fuel _ _ _

end

end Below

section Membership
variable (t : DirTree Name)

section Entries
variable (v : DeleteDirEntry → Verdict) (dir : Position)
variable (sub : DeleteDirEntry → List Extra × Bool)
variable (hsub : ∀ e, ∀ x ∈ (sub e).1, Below (dir++[e.name]) x.1)
include hsub

section
variable (e : DeleteDirEntry) (he : e ∈ t.entries dir)
include he

theorem mem_entriesExtras {p : Position} (hp : Below (dir++[e.name]) p ∨ p = dir++[e.name]) :
    p ∈ (entriesExtras v dir sub (sortEntries (t.entries dir))).1.map Prod.fst ↔
      p ∈ (contribution v dir sub e).map Prod.fst := by
  rw [entriesExtras, List.map_flatMap, List.mem_flatMap]
  constructor
  · rintro ⟨c,hc,hx⟩
    have hmem := (mem_sortEntries _).mp
      ((mem_visitOrder (sortEntries_dirsFirst _)).mp hc).1
    obtain ⟨x,hx',rfl⟩ := List.mem_map.mp hx
    have hw := contribution_within (hsub c) x hx'
    have hce : c.name = e.name := by
      by_contra hne
      exact within_disjoint hne hw hp
    rw [← entry_eq_of_name hmem he hce]
    exact hx
  · intro hx
    refine ⟨e,?_,hx⟩
    rw [mem_visitOrder (sortEntries_dirsFirst _), mem_sortEntries]
    refine ⟨he,?_⟩
    unfold contribution at hx
    split at hx
    · exact .inl ‹_›
    · exact .inl ‹_›
    · exact .inr ⟨‹_›,‹_›⟩
    · exact absurd hx List.not_mem_nil

theorem mem_entriesExtras_child :
    dir++[e.name] ∈ (entriesExtras v dir sub (sortEntries (t.entries dir))).1.map Prod.fst ↔
      v e = .extra ∧ (e.isDir = true → (sub e).2 = true) := by
  rw [mem_entriesExtras t v dir sub hsub e he (.inr rfl)]
  have hout : dir++[e.name] ∉ (sub e).1.map Prod.fst := by
    intro hm
    obtain ⟨x,hx,hxe⟩ := List.mem_map.mp hm
    have hb := hsub e x hx
    rw [hxe] at hb
    exact below_irrefl hb
  unfold contribution
  cases v e <;> cases e.isDir
  case extra.true =>
    simp only [emptied, List.map_append, List.mem_append, hout, false_or, true_and, true_implies]
    split_ifs with h <;> simp [h]
  case kept.true => simpa using hout
  all_goals simp

theorem mem_entriesExtras_deeper (hdir : e.isDir = true) (p : Position)
    (hp : Below (dir++[e.name]) p) :
    p ∈ (entriesExtras v dir sub (sortEntries (t.entries dir))).1.map Prod.fst ↔
      v e ≠ .shielded ∧ p ∈ (sub e).1.map Prod.fst := by
  rw [mem_entriesExtras t v dir sub hsub e he (.inl hp)]
  have hself : p ≠ dir++[e.name] := by
    rintro rfl
    exact below_irrefl hp
  unfold contribution
  rw [hdir]
  cases v e with
  | shielded | kept => simp
  | extra =>
    simp only [emptied, List.map_append, List.mem_append, ne_eq, reduceCtorEq, not_false_eq_true,
      true_and, or_iff_left_iff_imp]
    intro hm
    split_ifs at hm
    · exact absurd (by simpa using hm) hself
    · simp at hm

end

end Entries

variable (run : DeleteRun)

section
variable (fuel : ℕ) (dir : Position) (rel : Bytes) (pd : Bool)

theorem mem_extrasBelow_child {e : DeleteDirEntry} (he : e ∈ t.entries dir) :
    dir++[e.name] ∈ (extrasBelow t run (fuel+1) dir rel pd).1.map Prod.fst ↔
      classify run rel (pd || isSyncedDir run.dirs rel) e = .extra ∧
        (e.isDir = true → (extrasBelow t run fuel (dir++[e.name]) (pathCat rel e.name.1)
          (pd || isSyncedDir run.dirs rel)).2 = true) :=
  mem_entriesExtras_child t _ dir _ (fun _ => extrasBelow_below t run fuel _ _ _) e he

theorem mem_extrasBelow_deeper (e : DeleteDirEntry) (he : e ∈ t.entries dir) (hdir : e.isDir = true)
    (p : Position) (hp : Below (dir++[e.name]) p) :
    p ∈ (extrasBelow t run (fuel+1) dir rel pd).1.map Prod.fst ↔
      classify run rel (pd || isSyncedDir run.dirs rel) e ≠ .shielded ∧
        p ∈ (extrasBelow t run fuel (dir++[e.name]) (pathCat rel e.name.1)
          (pd || isSyncedDir run.dirs rel)).1.map Prod.fst :=
  mem_entriesExtras_deeper t _ dir _ (fun _ => extrasBelow_below t run fuel _ _ _) e he hdir p hp

theorem extrasBelow_flag :
    (extrasBelow t run (fuel+1) dir rel pd).2 = true ↔
      ∀ c ∈ t.entries dir,
        dir++[c.name] ∈ (extrasBelow t run (fuel+1) dir rel pd).1.map Prod.fst := by
  have hflag : (extrasBelow t run (fuel+1) dir rel pd).2 = true ↔
      ∀ c ∈ t.entries dir, classify run rel (pd || isSyncedDir run.dirs rel) c = .extra ∧
        (c.isDir = true → (extrasBelow t run fuel (dir++[c.name]) (pathCat rel c.name.1)
          (pd || isSyncedDir run.dirs rel)).2 = true) := by
    rw [extrasBelow, entriesExtras, List.all_eq_true]
    simp only [mem_sortEntries, Bool.and_eq_true, decide_eq_true_eq, Bool.or_eq_true,
      Bool.not_eq_true', ← Bool.not_eq_true, ← imp_iff_not_or]
  rw [hflag]
  exact forall₂_congr fun c hc => (mem_extrasBelow_child t run fuel dir rel pd hc).symm

end

end Membership

end FastSync.DeleteListing
