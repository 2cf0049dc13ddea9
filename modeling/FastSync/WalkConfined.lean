import FastSync.SecureWalk

/-!
# What confined access touches

A run stays within bounds when the objects it touches satisfy given predicates.
The parent walk keeps to the positions below the authorized root, whatever links
the tree holds.
-/

set_option autoImplicit false

namespace FastSync.WalkConfined
open DeletePaths Programs SystemCalls
open SecureWalk

/-- Where a run may touch objects through descriptors and by whole paths. -/
structure Bounds where
  via : Position → Prop
  byPath : Position → Prop

def Bounds.Admits (b : Bounds) (t : Touch) : Prop :=
  if t.byPath then b.byPath t.position else b.via t.position

/-- What a run adds to the log of touched objects lies within the bounds. -/
def Within (b : Bounds) (w w' : World) : Prop :=
  ∃ ts, w'.touched = ts++w.touched ∧ ∀ t ∈ ts, b.Admits t

/-- A program all of whose accesses lie within the bounds. -/
abbrev Stays (b : Bounds) {α : Type} (m : Sys α) : Prop := Effect (Within b) m fun _ => True

def WhenOk {α : Type} (P : α → Prop) : Except Errno α → Prop
  | .ok a => P a
  | .error _ => True

/-- What the name `c` of the directory `d` stands for lies in `I`. -/
def Lands (I : Position → Prop) (d : Position) (c : Bytes) : Prop :=
  ∀ p, locate d c = some p → I p

variable {α : Type}

section Bounds

variable {b : Bounds}

theorem within_same (w w' : World) (h : w'.touched = w.touched) : Within b w w' :=
  ⟨[],h,by simp⟩

theorem within_composable : Composable (Within b) where
  refl := fun w => within_same w w rfl
  trans := by
    rintro w w' w'' ⟨ts,h,hts⟩ ⟨ts',h',hts'⟩
    refine ⟨ts'++ts,by rw [h', h, List.append_assoc],?_⟩
    intro t ht
    rcases List.mem_append.mp ht with ht | ht
    · exact hts' t ht
    · exact hts t ht

theorem stays_pure {Q : α → Prop} {a : α} (h : Q a) :
    Effect (Within b) (pure a : Sys α) Q := effect_pure within_composable h

theorem stays_bind {β : Type} {P : α → Prop} {Q : β → Prop} {m : Sys α} {f : α → Sys β}
    (hm : Effect (Within b) m P) (hf : ∀ a, P a → Effect (Within b) (f a) Q) :
    Effect (Within b) (m >>= f) Q := effect_bind within_composable hm hf

theorem stays_done {a : α} : Stays b (pure a : Sys α) := stays_pure trivial

section Parts

variable {β ε : Type} {c : Prop} [Decidable c] {a : α} {m : Sys α}

theorem stays_when (hm : c → Stays b m) : Stays b (if c then m else pure a) :=
  effect_ite hm fun _ => stays_done

theorem stays_unless (hm : ¬c → Stays b m) : Stays b (if c then pure a else m) :=
  effect_ite (fun _ => stays_done) hm

theorem stays_seq {f : α → Sys β} (hm : Stays b m) (hf : ∀ a, Stays b (f a)) :
    Stays b (m >>= f) := stays_bind hm fun a _ => hf a

theorem stays_except {P : Except ε α → Prop} {Q : β → Prop} {m : Sys (Except ε α)}
    {f : Except ε α → Sys β} (hm : Effect (Within b) m P)
    (he : ∀ e, Effect (Within b) (f (.error e)) Q)
    (ha : ∀ a, P (.ok a) → Effect (Within b) (f (.ok a)) Q) : Effect (Within b) (m >>= f) Q := by
  refine stays_bind hm ?_
  rintro (e | a) h
  · exact he e
  · exact ha a h

end Parts

theorem stays_true {P : α → Prop} {m : Sys α} (hm : Effect (Within b) m P) :
    Stays b m := effect_mono hm fun _ _ => trivial

theorem stays_answer : Stays b answer := by
  intro w
  obtain ⟨rs,hw⟩ := answer_run
  exact ⟨within_same _ _ (by rw [hw]),trivial⟩

theorem stays_look {Q : Except Errno α → Prop} (k : Fs → Except Errno α)
    (hk : ∀ fs, Q (k fs)) (he : ∀ e, Q (.error e)) : Effect (Within b) (query k) Q := by
  intro w
  obtain ⟨rs,r,hq,hr⟩ := query_run k w
  rw [hq]
  refine ⟨within_same _ _ rfl,?_⟩
  rcases hr with rfl | ⟨e,rfl⟩
  · exact hk w.fs
  · exact he e

theorem stays_query (k : Fs → Except Errno α) :
    Stays b (query k) := stays_look k (fun _ => trivial) fun _ => trivial

theorem stays_perform {Q : Except Errno α → Prop} (byPath : Bool) (k : Fs → Change α)
    (hk : ∀ fs a fs' ps, k fs = .ok (a,fs',ps) → Q (.ok a) ∧ ∀ p ∈ ps, b.Admits ⟨p,byPath⟩)
    (he : ∀ e, Q (.error e)) : Effect (Within b) (perform byPath k) Q := by
  intro w
  obtain ⟨rs,⟨e,h⟩ | ⟨a,fs,ps,hc,h⟩⟩ := perform_run
  · rw [h]
    exact ⟨within_same _ _ rfl,he e⟩
  · obtain ⟨hq,hps⟩ := hk w.fs a fs ps hc
    rw [h]
    refine ⟨⟨_,rfl,?_⟩,hq⟩
    intro t ht
    obtain ⟨p,hp,rfl⟩ := List.mem_map.mp ht
    exact hps p hp

end Bounds

variable {c : Bytes} {p : Position} {fs fs' : Fs} {a : Unit} {ps : List Position}

section Calls

variable {b : Bounds}

section
variable {d : Position}

theorem locate_name {n : Name} (h : leafOf c = .name n) : locate d c = some (d++[n]) := by
  rw [locate, h]

theorem stays_statAt (d : Position) (c : Bytes) : Stays b (statAt d c) := stays_query _

theorem openDir_ok (h : openDir d c fs = .ok p) : locate d c = some p ∧ fs.node p = some .dir := by
  unfold openDir at h
  split at h
  · cases h
  next q hq =>
    split at h
    next hn =>
      cases h
      exact ⟨hq,hn⟩
    · cases h
    · cases h

theorem stays_openDirAt (d : Position) (c : Bytes) :
    Effect (Within b) (openDirAt d c) (WhenOk fun p => locate d c = some p) := by
  intro w
  obtain ⟨rs,⟨e,h⟩ | ⟨p,hp,h⟩⟩ := openDirAt_run
  · rw [h]
    exact ⟨within_same _ _ rfl,trivial⟩
  · rw [h]
    exact ⟨within_same _ _ rfl,(openDir_ok hp).1⟩

theorem freeAt_name {n : Name} (h : freeAt d c fs = .ok n) : leafOf c = .name n := by
  unfold freeAt at h
  split at h
  · cases h
  · cases h
  · cases h
  next m hm =>
    split_ifs at h
    cases h
    exact hm

theorem mkdir_touches (h : mkdir d c fs = .ok (a,fs',ps)) :
    ∃ n, leafOf c = .name n ∧ ps = [d++[n]] := by
  unfold mkdir at h
  split at h
  · cases h
  next n hn =>
    cases h
    exact ⟨n,freeAt_name hn,rfl⟩

theorem create_touches {x : Inode} {d : Position} {a : ℕ × Position}
    (h : create x d c fs = .ok (a,fs',ps)) :
    ∃ n, leafOf c = .name n ∧ a.2 = d++[n] ∧ ps = [d++[n]] := by
  unfold create at h
  split at h
  · cases h
  next n hn =>
    cases h
    exact ⟨n,freeAt_name hn,rfl,rfl⟩

theorem link_touches {d d' : Position} {c' : Bytes}
    (h : link d c d' c' fs = .ok (a,fs',ps)) : ∃ n, ps = [d'++[n]] := by
  unfold link at h
  split at h
  · cases h
  · split at h
    · cases h
    · cases h
    · split at h
      · cases h
      next n _ =>
        cases h
        exact ⟨n,rfl⟩

theorem unlink_touches (h : unlink d c fs = .ok (a,fs',ps)) :
    ∃ n, leafOf c = .name n ∧ ps = [d++[n]] := by
  unfold unlink at h
  split at h
  · cases h
  · cases h
  · cases h
  next n hn =>
    split at h
    · cases h
    · cases h
    · cases h
      exact ⟨n,hn,rfl⟩

theorem rmdir_touches (h : rmdir d c fs = .ok (a,fs',ps)) :
    ∃ n, leafOf c = .name n ∧ ps = [d++[n]] := by
  unfold rmdir at h
  split at h
  · cases h
  · cases h
  · cases h
  next n hn =>
    split at h
    · cases h
    · cases h
    · split_ifs at h
      cases h
      exact ⟨n,hn,rfl⟩

theorem rename_touches {d d' : Position} {c' : Bytes} (h : rename d c d' c' fs = .ok (a,fs',ps)) :
    ∀ p ∈ ps, (∃ n, p = d++[n]) ∨ ∃ n, p = d'++[n] := by
  unfold rename at h
  split at h
  next n n' _ _ =>
    split at h
    · cases h
    · split_ifs at h
      · cases h
        simp
      · split at h
        · cases h
        · cases h
          simp
  · cases h
  · cases h
  · cases h

theorem openWrite_touches {now : Time} {a : ℕ × Position}
    (h : openWrite d c now fs = .ok (a,fs',ps)) :
    (∃ n, a.2 = d++[n]) ∧ ∀ p ∈ ps, ∃ n, p = d++[n] := by
  unfold openWrite at h
  split at h
  · cases h
  · cases h
  · cases h
  next n _ =>
    split at h
    · cases h
      exact ⟨⟨n,rfl⟩,by simp⟩
    · cases h
    · cases h
    · cases h
    · obtain ⟨m,-,ha,hps⟩ := create_touches h
      exact ⟨⟨m,ha⟩,by simp [hps]⟩

theorem setAttribute_touches (h : setAttribute d c fs = .ok (a,fs',ps)) :
    ∀ p ∈ ps, locate d c = some p := by
  unfold setAttribute at h
  split at h
  · cases h
  next q hq =>
    split_ifs at h
    cases h
    simp [hq]

theorem setAttribute_keeps (h : setAttribute d c fs = .ok (a,fs',ps)) : fs' = fs := by
  unfold setAttribute at h
  split at h
  · cases h
  · split_ifs at h
    cases h
    rfl

end

variable {d d' : Position}

theorem stays_mkdirAt (c : Bytes) (hd : ∀ n, b.via (d++[n])) :
    Effect (Within b) (mkdirAt d c) (WhenOk fun _ => ∃ n, leafOf c = .name n) := by
  refine stays_perform false _ ?_ fun _ => trivial
  intro fs a fs' ps h
  obtain ⟨n,hn,rfl⟩ := mkdir_touches h
  exact ⟨⟨n,hn⟩,by simpa [Bounds.Admits] using hd n⟩

theorem stays_createAt {x : Inode} {c : Bytes} (hd : ∀ n, b.via (d++[n])) :
    Effect (Within b) (createAt x d c) (WhenOk fun r => b.via r.2 ∧ ∃ n, leafOf c = .name n) := by
  refine stays_perform false _ ?_ fun _ => trivial
  intro fs a fs' ps h
  obtain ⟨n,hn,ha,rfl⟩ := create_touches h
  exact ⟨⟨ha ▸ hd n,n,hn⟩,by simpa [Bounds.Admits] using hd n⟩

theorem stays_linkAt {c c' : Bytes} (hd : ∀ n, b.via (d'++[n])) : Stays b (linkAt d c d' c') := by
  refine stays_perform false _ ?_ fun _ => trivial
  intro fs a fs' ps h
  obtain ⟨n,rfl⟩ := link_touches h
  exact ⟨trivial,by simpa [Bounds.Admits] using hd n⟩

theorem stays_renameAt {c c' : Bytes} (hd : ∀ n, b.via (d++[n])) (hd' : ∀ n, b.via (d'++[n])) :
    Stays b (renameAt d c d' c') := by
  refine stays_perform false _ ?_ fun _ => trivial
  intro fs a fs' ps h
  refine ⟨trivial,?_⟩
  intro p hp
  rcases rename_touches h p hp with ⟨n,rfl⟩ | ⟨n,rfl⟩
  · exact hd n
  · exact hd' n

theorem stays_unlinkAt {c : Bytes} (hd : ∀ n, b.via (d++[n])) : Stays b (unlinkAt d c) := by
  refine stays_perform false _ ?_ fun _ => trivial
  intro fs a fs' ps h
  obtain ⟨n,-,rfl⟩ := unlink_touches h
  exact ⟨trivial,by simpa [Bounds.Admits] using hd n⟩

theorem stays_rmdirAt {c : Bytes} (hd : ∀ n, b.via (d++[n])) : Stays b (rmdirAt d c) := by
  refine stays_perform false _ ?_ fun _ => trivial
  intro fs a fs' ps h
  obtain ⟨n,-,rfl⟩ := rmdir_touches h
  exact ⟨trivial,by simpa [Bounds.Admits] using hd n⟩

theorem stays_openWrite {c : Bytes} {now : Time} (hd : ∀ n, b.via (d++[n])) :
    Effect (Within b) (change (openWrite d c now)) (WhenOk fun r => b.via r.2) := by
  refine stays_perform false _ ?_ fun _ => trivial
  intro fs a fs' ps h
  obtain ⟨⟨n,ha⟩,hps⟩ := openWrite_touches h
  refine ⟨show b.via a.2 from ha ▸ hd n,?_⟩
  intro p hp
  obtain ⟨m,rfl⟩ := hps p hp
  exact hd m

theorem stays_attributeAt (h : Lands b.via d c) : Stays b (attributeAt d c) := by
  refine stays_perform false _ ?_ fun _ => trivial
  intro fs a fs' ps hs
  exact ⟨trivial,fun p hp => h p (setAttribute_touches hs p hp)⟩

theorem stays_touch (h : b.via p) : Stays b (change fun fs => .ok ((), fs, [p])) := by
  refine stays_perform (Q := fun _ => True) false _ ?_ fun _ => trivial
  intro fs a fs' ps hs
  cases hs
  exact ⟨trivial,by simpa [Bounds.Admits] using h⟩

theorem stays_attributeFd (h : b.via p) : Stays b (attributeFd p) := stays_touch h

theorem stays_changePath {k : Fs → Change α}
    (hk : ∀ fs a fs' ps, k fs = .ok (a,fs',ps) → ∀ p ∈ ps, b.byPath p) : Stays b (changePath k) :=
  stays_perform true _ (fun fs a fs' ps h => ⟨trivial,hk fs a fs' ps h⟩) fun _ => trivial

end Calls

section Names

theorem leafOf_name {n : Name} : leafOf n.1 = .name n := by
  obtain ⟨c,hc⟩ := n
  rw [leafOf, if_neg hc.2.2.2.1, if_neg hc.2.2.2.2, name?, dif_pos hc]

theorem locate_component {d : Position} (h : locate d c = some p) (h1 : c ≠ [dot])
    (h2 : c ≠ [dot,dot]) : ∃ n, p = d++[n] := by
  unfold locate leafOf at h
  rw [if_neg h1, if_neg h2] at h
  cases hc : name? c with
  | none =>
    rw [hc] at h
    cases h
  | some n =>
    rw [hc] at h
    cases h
    exact ⟨n,rfl⟩

theorem locate_below {root d : Position} (h : locate d c = some p)
    (h2 : c ≠ [dot,dot]) (hd : root <+: d) : root <+: p := by
  by_cases h1 : c = [dot]
  · subst h1
    cases h
    exact hd
  · obtain ⟨n,rfl⟩ := locate_component h h1 h2
    exact hd.trans (List.prefix_append d [n])

end Names

/-- The calls of the parent walk from `base` keep to `R`. A walk that makes no
directories needs no rule for making them. -/
structure WalkRules (R : World → World → Prop) (createDirs : Bool) (base : Position) : Prop where
  composable : Composable R
  look : ∀ {α : Type} (k : Fs → Except Errno α), Effect R (query k) fun _ => True
  openDir : ∀ d c, base <+: d → c ≠ [dot,dot] →
    Effect R (openDirAt d c) (WhenOk fun p => locate d c = some p)
  mkdir : createDirs = true → ∀ d c, base <+: d → Effect R (mkdirAt d c) fun _ => True
  own : createDirs = true → ∀ d c, base <+: d → c ≠ [dot,dot] →
    Effect R (attributeAt d c) fun _ => True

def Deeper (base p : Position) : Prop := base <+: p ∧ p ≠ base

section Walk

variable {R : World → World → Prop} {createDirs : Bool} {base : Position}

theorem walks_ownership (hR : WalkRules R createDirs base) (hc : createDirs = true) {pr : Process}
    {d : Position} {c : Bytes} (hd : base <+: d) (h2 : c ≠ [dot,dot]) :
    Effect R (identityApplyOwnershipLink pr d c) fun _ => True := by
  refine effect_ite (fun _ => effect_pure hR.composable trivial) fun _ => ?_
  refine effect_bind hR.composable (hR.look _) ?_
  rintro (e | s) -
  · exact effect_pure hR.composable trivial
  refine effect_ite (fun _ => effect_pure hR.composable trivial) fun _ => ?_
  refine effect_bind hR.composable (hR.own hc d c hd h2) ?_
  rintro (e | s) -
  · exact effect_pure hR.composable trivial
  · exact effect_pure hR.composable trivial

theorem deeper_child {d : Position} {n : Name} (hd : base <+: d) : Deeper base (d++[n]) := by
  refine ⟨hd.trans (List.prefix_append d [n]),?_⟩
  intro h
  have hl := hd.length_le
  rw [← h, List.length_append, List.length_singleton] at hl
  omega

section
variable (hR : WalkRules R createDirs base)
include hR

theorem walks_openBeneath (fd : Position) {ns : List Name} (hd : base <+: fd) :
    Effect R (openBeneath fd ns) (WhenOk fun p => p = fd++ns) := by
  induction ns generalizing fd with
  | nil => exact effect_pure hR.composable (List.append_nil fd).symm
  | cons n ns ih =>
    refine effect_bind hR.composable (hR.openDir fd n.1 hd n.2.2.2.2.2) ?_
    rintro (e | next) hn
    · exact effect_pure hR.composable trivial
    have hnext : next = fd++[n] := by
      have h : locate fd n.1 = some next := hn
      rw [locate_name leafOf_name] at h
      exact (Option.some.inj h).symm
    subst hnext
    refine effect_mono (ih (fd++[n]) (deeper_child hd).1) ?_
    rintro (e | p) hp
    · trivial
    · exact hp.trans (List.append_assoc fd [n] ns)

theorem walks_openDirBeneathRoot {resolved real : Position} :
    Effect R (openDirBeneathRoot base resolved real) (WhenOk (Deeper base)) := by
  refine effect_ite (fun _ => effect_pure hR.composable trivial) fun hne => ?_
  refine effect_mono (walks_openBeneath hR base (List.prefix_rfl)) ?_
  rintro (e | p) hp
  · trivial
  · have h : p = base++resolved.drop real.length := hp
    subst h
    exact ⟨List.prefix_append _ _,fun h => hne (List.append_right_eq_self.mp h)⟩

theorem walks_followDirlink {fd : Position} {relBuf component : Bytes} {e : Errno} :
    Effect R (followDirlink base fd relBuf component e) (WhenOk (Deeper base)) := by
  have fails : ∀ e', Effect R (pure (.error e') : Sys (Except Errno Position))
      (WhenOk (Deeper base)) := fun e' => effect_pure hR.composable trivial
  refine effect_bind hR.composable (hR.look _) ?_
  rintro (e' | (_ | ⟨i,(_ | _ | _)⟩)) -
  · exact fails e'
  · exact fails e
  · exact fails e
  · refine effect_bind hR.composable (hR.look _) ?_
    rintro (e' | real) -
    · exact fails e'
    refine effect_bind hR.composable (hR.look _) ?_
    rintro (e' | resolved) -
    · exact fails e'
    refine effect_ite (fun _ => ?_) fun _ => fails e
    refine effect_bind hR.composable (hR.look _) ?_
    rintro (e' | (_ | (_ | _))) -
    · exact fails e'
    · exact fails e
    · exact walks_openDirBeneathRoot hR
    · exact fails e
  · exact fails e

end

/-- An attempt that opened a directory opened one below `base`. -/
def Attempted (base : Position) : Attempt → Prop
  | .opened p => Deeper base p
  | _ => True

variable (pr : Process)

section
variable (hR : WalkRules R createDirs base)
include hR

theorem walks_reopen {fd : Position} {c : Bytes} (hd : base <+: fd) (h1 : c ≠ [dot])
    (h2 : c ≠ [dot,dot]) : Effect R (reopen fd c) (Attempted base) := by
  refine effect_bind hR.composable (hR.openDir fd c hd h2) ?_
  rintro (e | p) hp
  · exact effect_pure hR.composable trivial
  · obtain ⟨n,rfl⟩ := locate_component hp h1 h2
    exact effect_pure hR.composable (deeper_child hd)

section
variable (hc : createDirs = true) {fd : Position} {c : Bytes} (hd : base <+: fd) (h1 : c ≠ [dot])
  (h2 : c ≠ [dot,dot])
include hc hd h1 h2

theorem walks_ownComponent : Effect R (ownComponent pr fd c) (Attempted base) := by
  have again := walks_reopen hR hd h1 h2
  refine effect_ite (fun _ => ?_) fun _ => again
  refine effect_bind hR.composable (walks_ownership hR hc hd h2) fun ok _ => ?_
  exact effect_ite (fun _ => again) fun _ => effect_pure hR.composable trivial

theorem walks_makeComponent : Effect R (makeComponent pr fd c) (Attempted base) := by
  refine effect_bind hR.composable (hR.mkdir hc fd c hd) fun r _ => ?_
  split
  · exact walks_ownComponent pr hR hc hd h1 h2
  · exact walks_reopen hR hd h1 h2
  · exact effect_pure hR.composable trivial

end

theorem walks_tryComponent {fd : Position} {c : Bytes} (hd : base <+: fd) (h1 : c ≠ [dot])
    (h2 : c ≠ [dot,dot]) : Effect R (tryComponent pr createDirs fd c) (Attempted base) := by
  refine effect_bind hR.composable (hR.openDir fd c hd h2) ?_
  rintro (e | p) hp
  · exact effect_ite (fun h => walks_makeComponent pr hR h.1 hd h1 h2)
      fun _ => effect_pure hR.composable trivial
  · obtain ⟨n,rfl⟩ := locate_component hp h1 h2
    exact effect_pure hR.composable (deeper_child hd)

section
variable (hb : pr.authorizedRoot = some base ∨ pr.authorizedRoot = none)
include hb

theorem walks_settleComponent {fd : Position} {relBuf c : Bytes} {a : Attempt}
    (ha : Attempted base a) :
    Effect R (settleComponent pr fd relBuf c a) (WhenOk (Deeper base)) := by
  cases a with
  | opened p => exact effect_pure hR.composable ha
  | abort e => exact effect_pure hR.composable trivial
  | failed e =>
    rcases hb with hb | hb
    · simp only [settleComponent, hb]
      exact effect_ite (fun _ => walks_followDirlink hR)
        fun _ => effect_pure hR.composable trivial
    · simp only [settleComponent, hb]
      exact effect_pure hR.composable trivial

theorem walks_openComponent (fd : Position) (relBuf c : Bytes) (hd : base <+: fd) (h1 : c ≠ [dot])
    (h2 : c ≠ [dot,dot]) :
    Effect R (openComponent pr createDirs fd relBuf c) (WhenOk (Deeper base)) :=
  effect_bind hR.composable (walks_tryComponent pr hR hd h1 h2) fun _ ha =>
    walks_settleComponent pr hR hb ha

/-- The walk ends below `base`, and at `base` only when no component led away. -/
theorem walks_walkParent {cs : List Bytes} (fd : Position) (relBuf : Bytes) (hd : base <+: fd) :
    Effect R (walkParent pr createDirs cs fd relBuf)
      (WhenOk fun p => base <+: p ∧ (p = base → fd = base ∧ ∀ c ∈ cs, c = [dot])) := by
  induction cs generalizing fd relBuf with
  | nil => exact effect_pure hR.composable ⟨hd,fun h => ⟨h,by simp⟩⟩
  | cons c cs ih =>
    refine effect_ite (fun _ => effect_pure hR.composable trivial) fun h2 => ?_
    refine effect_ite (fun h1 => ?_) fun h1 => ?_
    · refine effect_mono (ih fd relBuf hd) ?_
      rintro (e | p) hp
      · trivial
      · exact ⟨hp.1,fun h => ⟨(hp.2 h).1,by simpa [h1] using (hp.2 h).2⟩⟩
    · refine effect_bind hR.composable (walks_openComponent pr hR hb fd relBuf c hd h1 h2) ?_
      rintro (e | next) hn
      · exact effect_pure hR.composable trivial
      · refine effect_mono (ih next (relBuf++slash::c) hn.1) ?_
        rintro (e | p) hp
        · trivial
        · exact ⟨hp.1,fun h => absurd (hp.2 h).1 hn.2⟩

end

end

end Walk

/-- No component before the last leads away from the root. -/
def Flat (root : Position) (path : Bytes) : Prop :=
  ∀ c ∈ strtok (dirname (path.drop (absPath root).length)), c = [dot]

structure Reached (root : Position) (path : Bytes) (r : Position × Bytes) : Prop where
  below : root <+: r.1
  leaf : r.2 = leafName path
  flat : r.1 = root → Flat root path

theorem walks_fileOpenSecureParent {R : World → World → Prop} {createDirs : Bool}
    {root : Position} (hR : WalkRules R createDirs root) {pr : Process}
    (hr : pr.authorizedRoot = some root) {path : Bytes} :
    Effect R (fileOpenSecureParent pr path createDirs) (WhenOk (Reached root path)) := by
  unfold fileOpenSecureParent
  simp only [hr]
  refine effect_ite (fun _ => effect_pure hR.composable trivial) fun _ => ?_
  refine effect_bind hR.composable (walks_walkParent pr hR (.inl hr) root [] List.prefix_rfl) ?_
  rintro (e | fd) hfd
  · exact effect_pure hR.composable trivial
  · exact effect_pure hR.composable ⟨hfd.1,rfl,fun h => (hfd.2 h).2⟩

section Confined

def Covers (root : Position) (b : Bounds) : Prop := ∀ p, root <+: p → b.via p

variable {root : Position}

theorem covers_entry {b : Bounds} (hb : Covers root b) {d : Position} (hd : root <+: d) (n : Name) :
    b.via (d++[n]) := hb _ (hd.trans (List.prefix_append d [n]))

theorem within_walks {b : Bounds} (hb : Covers root b) {createDirs : Bool} :
    WalkRules (Within b) createDirs root where
  composable := within_composable
  look := stays_query
  openDir := fun d c _ _ => stays_openDirAt d c
  mkdir := fun _ _ c hd => stays_true (stays_mkdirAt c (covers_entry hb hd))
  own := fun _ _ _ hd h2 => stays_attributeAt fun p hp => hb p (locate_below hp h2 hd)

/-- What the parent walk does: it touches and opens positions below the root only,
no directory goes, and what it opened are directories of the tree. -/
structure Walked (root : Position) (w w' : World) : Prop where
  touched : ∃ ts, w'.touched = ts++w.touched ∧ ∀ t ∈ ts, root <+: t.position
  opened : ∃ ds, w'.opened = ds++w.opened ∧ ∀ d ∈ ds, root <+: d ∧ w'.fs.node d = some .dir
  kept : ∀ p, w.fs.node p = some .dir → w'.fs.node p = some .dir

theorem walked_same {w : World} {rs : List Reply} : Walked root w { w with replies := rs } :=
  ⟨⟨[],rfl,by simp⟩,⟨[],rfl,by simp⟩,fun _ h => h⟩

theorem walked_composable : Composable (Walked root) where
  refl := fun w => walked_same
  trans := by
    rintro w w' w'' ⟨⟨ts,ht,hts⟩,⟨ds,hd,hds⟩,hk⟩ ⟨⟨ts',ht',hts'⟩,⟨ds',hd',hds'⟩,hk'⟩
    refine ⟨⟨ts'++ts,by rw [ht', ht, List.append_assoc],?_⟩,
      ⟨ds'++ds,by rw [hd', hd, List.append_assoc],?_⟩,fun p hp => hk' p (hk p hp)⟩
    · intro t h
      rcases List.mem_append.mp h with h | h
      · exact hts' t h
      · exact hts t h
    · intro d h
      rcases List.mem_append.mp h with h | h
      · exact hds' d h
      · exact ⟨(hds d h).1,hk' d (hds d h).2⟩

theorem walked_openDirAt {d : Position} (hd : root <+: d) (h2 : c ≠ [dot,dot]) :
    Effect (Walked root) (openDirAt d c) (WhenOk fun p => locate d c = some p) := by
  intro w
  obtain ⟨rs,⟨e,h⟩ | ⟨p,hp,h⟩⟩ := openDirAt_run
  · rw [h]
    exact ⟨walked_same,trivial⟩
  · obtain ⟨hl,hn⟩ := openDir_ok hp
    rw [h]
    refine ⟨⟨⟨[],rfl,by simp⟩,⟨[p],rfl,?_⟩,fun _ hq => hq⟩,hl⟩
    intro q hq
    cases List.mem_singleton.mp hq
    exact ⟨locate_below hl h2 hd,hn⟩

theorem walked_perform {k : Fs → Change α}
    (hk : ∀ fs a fs' ps, k fs = .ok (a,fs',ps) →
      (∀ p ∈ ps, root <+: p) ∧ ∀ q, fs.node q = some .dir → fs'.node q = some .dir) :
    Effect (Walked root) (change k) fun _ => True := by
  intro w
  obtain ⟨rs,⟨e,h⟩ | ⟨a,fs,ps,hc,h⟩⟩ := perform_run
  · rw [change, h]
    exact ⟨walked_same,trivial⟩
  · obtain ⟨hps,hkept⟩ := hk w.fs a fs ps hc
    rw [change, h]
    refine ⟨⟨⟨_,rfl,?_⟩,⟨[],rfl,by simp⟩,hkept⟩,trivial⟩
    intro t ht
    obtain ⟨p,hp,rfl⟩ := List.mem_map.mp ht
    exact hps p hp

theorem mkdir_keeps {d : Position}
    (h : mkdir d c fs = .ok (a,fs',ps)) (q : Position) (hq : fs.node q = some .dir) :
    fs'.node q = some .dir := by
  unfold mkdir at h
  split at h
  · cases h
  · cases h
    show (if q = _ then some .dir else fs.tree.node q) = some .dir
    split
    · rfl
    · exact hq

theorem walked_walks {createDirs : Bool} : WalkRules (Walked root) createDirs root where
  composable := walked_composable
  look := by
    intro α k w
    obtain ⟨rs,r,hq,-⟩ := query_run k w
    rw [hq]
    exact ⟨walked_same,trivial⟩
  openDir := fun d c hd h2 => walked_openDirAt hd h2
  mkdir := by
    intro _ d c hd
    refine walked_perform ?_
    intro fs a fs' ps h
    obtain ⟨n,-,rfl⟩ := mkdir_touches h
    exact ⟨by simpa using hd.trans (List.prefix_append d [n]),mkdir_keeps h⟩
  own := by
    intro _ d c hd h2
    refine walked_perform ?_
    intro fs a fs' ps h
    refine ⟨fun p hp => locate_below (setAttribute_touches h p hp) h2 hd,?_⟩
    intro q hq
    rwa [setAttribute_keeps h]

end Confined

end FastSync.WalkConfined
