import FastSync.ConfigFrame

/-!
# What the receiver makes of one field

For every kind of field: the strings it sends, the condition under which its
bytes are taken when the session has room for them, and the value that arrives.
-/

set_option autoImplicit false

namespace FastSync.ConfigFields
open DeletePaths (Bytes)
open ByteReader WireValues
open FilterSyntax ProtectBlock
open ConfigTable ConfigFrame

section Room

/-- The session has room for the strings, one after the other. -/
def FitAll : Session → List Bytes → Prop
  | _, [] => True
  | s, x::xs => Fits s x.length ∧ FitAll (charged s x.length) xs

def chargeAll (s : Session) (xs : List Bytes) : Session :=
  xs.foldl (fun s x => charged s x.length) s

theorem fitAll_append {xs ys : List Bytes} (s : Session) :
    FitAll s (xs++ys) ↔ FitAll s xs ∧ FitAll (chargeAll s xs) ys := by
  induction xs generalizing s with
  | nil => simp [FitAll, chargeAll]
  | cons x xs ih =>
    rw [List.cons_append, FitAll, FitAll, ih, and_assoc]
    rfl

def charge (xs : List Bytes) : ℕ := (xs.map fun x => x.length+1).sum

theorem fitAll_iff (xs : List Bytes) (s : Session) (hused : s.used ≤ maxConfigStringBytes) :
    FitAll s xs ↔
      (∀ x ∈ xs, x.length ≤ maxStringSize ∧ (s.maxAlloc = 0 ∨ x.length+1 ≤ s.maxAlloc)) ∧
        s.used+charge xs ≤ maxConfigStringBytes := by
  induction xs generalizing s with
  | nil => simp [FitAll, charge, hused]
  | cons x xs ih =>
    have hcharge : charge (x::xs) = x.length+1+charge xs := by
      simp [charge]
    constructor
    · rintro ⟨⟨hsize,halloc,hroom⟩,hrest⟩
      rw [ih (charged s x.length) (by simp only [charged]; omega)] at hrest
      obtain ⟨heach,htotal⟩ := hrest
      simp only [charged] at heach htotal
      refine ⟨fun y hy => ?_,by omega⟩
      rcases List.mem_cons.mp hy with rfl | hy
      · exact ⟨hsize,halloc⟩
      · exact heach y hy
    · rintro ⟨heach,htotal⟩
      obtain ⟨hsize,halloc⟩ := heach x (by simp)
      refine ⟨⟨hsize,halloc,by omega⟩,?_⟩
      rw [ih (charged s x.length) (by simp only [charged]; omega)]
      refine ⟨fun y hy => heach y (by simp [hy]),?_⟩
      simp only [charged]
      omega

end Room

def CString (x : Bytes) : Prop := 0 ∉ x ∧ x.length < 2^64

section Numbers
variable (s : Session)

theorem reads_int32 {v : Int32} : Reads receiveInt32 s (sendInt32 v) v s := by
  have hrange : IntRange v.toInt := ⟨Int32.le_toInt v,Int32.toInt_lt v⟩
  have hmap : Reads receiveInt32 s (sendInt32 v) (Int32.ofInt v.toInt) s :=
    reads_map (reads_int hrange s)
  rwa [Int32.ofInt_toInt] at hmap

theorem decides_checked {p : Int32 → Prop} [DecidablePred p] {v : Int32} :
    Decides (receiveChecked p) s (sendInt32 v) (p v) v s := by
  refine decides_congr ?_ (decides_read (reads_int32 s)
    (decides_check (p := p v) fun _ => decides_pure v s))
  exact and_iff_left trivial

theorem reads_u64 {v : UInt64} : Reads receiveU64 s (sendU64 v) v s := by
  have hmap : Reads receiveU64 s (sendU64 v) (UInt64.ofNat v.toNat) s :=
    reads_map (reads_word v.toNat_lt s)
  rwa [UInt64.ofNat_toNat] at hmap

theorem reads_u32 {v : UInt32} : Reads receiveU32 s (sendU32 v) v s := by
  have hmap : Reads receiveU32 s (sendU32 v) (UInt32.ofNat v.toNat) s :=
    reads_map (reads_word v.toNat_lt s)
  rwa [UInt32.ofNat_toNat] at hmap

theorem reads_maxAlloc {v : UInt64} :
    Reads configReceiveMaxAlloc s (sendU64 v) (effectiveMaxAlloc v)
      {s with maxAlloc := (effectiveMaxAlloc v).toNat} := by
  intro rest
  rw [configReceiveMaxAlloc, bind_reads (reads_u64 s)]
  rfl

theorem reads_superMode {v : SuperMode} :
    Reads configReceiveSuperMode s (sendInt (superModeCode v)) v s := by
  intro rest
  have hrange : IntRange (superModeCode v) := by
    cases v <;> exact ⟨by decide,by decide⟩
  cases v <;> rfl

end Numbers

section Strings
variable {x : Bytes}

section
variable (h : CString x) (s : Session)
include h

theorem decides_one : Decides configReceiveStr s (sendStr x) (FitAll s [x]) x (chargeAll s [x]) :=
  decides_congr (and_iff_left trivial).symm (decides_str h.1 h.2 s)

theorem decides_optional :
    Decides configReceiveOptionalStr s (sendStr x) (FitAll s [x]) (orNull x) (chargeAll s [x]) :=
  decides_map (decides_one h s)

theorem decides_kept :
    Decides configReceiveKeptStr s (sendStr x) (FitAll s [x]) (some x) (chargeAll s [x]) :=
  decides_map (decides_one h s)

theorem decides_module :
    Decides configReceiveModule s (sendStr x)
      ((x = [] ∨ daemonModuleNameValid x = true) ∧ FitAll s [x]) (orNull x) (chargeAll s [x]) := by
  rw [← List.append_nil (sendStr x)]
  refine decides_congr ?_ (decides_bind (decides_one h s) fun _ =>
    decides_check (p := x = [] ∨ daemonModuleNameValid x = true) fun _ =>
      decides_pure (orNull x) (chargeAll s [x]))
  rw [and_iff_left trivial, and_comm]

end

theorem decides_authUser {v : Option Bytes} (h : CString (textOf v)) {s : Session} :
    Decides configReceiveAuthUser s (configSendAuthUser v)
      ((textOf v = [] ∨ credentialsUsernameValid (textOf v) = true) ∧
        FitAll s (if textOf v = [] then [] else [textOf v])) (orNull (textOf v))
      (chargeAll s (if textOf v = [] then [] else [textOf v])) := by
  unfold configSendAuthUser orNull
  by_cases hempty : textOf v = []
  · simp only [if_pos hempty]
    have hread : Reads configReceiveAuthUser s (sendBool false++[]) none s :=
      reads_bind (reads_bool false s) (reads_pure none s)
    exact ⟨fun _ => hread,fun hnot => absurd ⟨.inl hempty,trivial⟩ hnot⟩
  · simp only [if_neg hempty]
    have hbody : Decides (do
        let user ← configReceiveStr
        check (credentialsUsernameValid user = true)
        pure (some user)) s (sendStr (textOf v)++[])
        (FitAll s [textOf v] ∧ credentialsUsernameValid (textOf v) = true ∧ True)
        (some (textOf v)) (chargeAll s [textOf v]) :=
      decides_bind (decides_one h s) fun _ =>
        decides_check (p := credentialsUsernameValid (textOf v) = true) fun _ =>
          decides_pure (some (textOf v)) (chargeAll s [textOf v])
    rw [List.append_nil] at hbody
    have hread : Decides configReceiveAuthUser s (sendBool true++sendStr (textOf v))
        (FitAll s [textOf v] ∧ credentialsUsernameValid (textOf v) = true ∧ True)
        (some (textOf v)) (chargeAll s [textOf v]) :=
      decides_read (reads_bool true s) hbody
    refine decides_congr ?_ hread
    rw [and_true, and_comm, or_iff_right hempty]

theorem decides_strs {xs : List Bytes} (h : ∀ x ∈ xs, CString x) (s : Session) :
    Decides (receiveStrs xs.length) s (xs.flatMap sendStr) (FitAll s xs) xs (chargeAll s xs) := by
  induction xs generalizing s with
  | nil => exact decides_pure [] s
  | cons x xs ih =>
    have hone := decides_str (h x (by simp)).1 (h x (by simp)).2 s
    have hrest := ih (fun y hy => h y (by simp [hy])) (charged s x.length)
    exact decides_bind hone fun _ => decides_map hrest

end Strings

section Blocks

def arrivedBasis (b : BasisDest) : BasisDest := ⟨b.type,(basisPathNormalize b.path).getD []⟩

def BasisValid (b : BasisDest) : Prop :=
  b.type ≠ .none ∧ (basisPathNormalize b.path).isSome = true

theorem decides_basis (b : BasisDest) (h : CString b.path) (index : ℕ) (s : Session) :
    Decides (receiveBasis index) s (sendBasis b)
      (BasisValid b ∧ (index:ℤ) < maxBasisDirs ∧ FitAll s [b.path]) (arrivedBasis b)
      (chargeAll s [b.path]) := by
  have hrange : IntRange (basisCode b.type) := by
    cases b.type <;> exact ⟨by decide,by decide⟩
  have hcode : (0 < basisCode b.type ∧ basisCode b.type ≤ 3) ↔ b.type ≠ .none := by
    cases b.type <;> decide
  have htype : b.type ≠ .none → basisType (basisCode b.type) = b.type := by
    cases b.type <;> decide
  have hpath : Decides (do
      let path ← configReceiveStr
      check ((index:ℤ) < maxBasisDirs ∧ (basisPathNormalize path).isSome = true)
      pure ⟨basisType (basisCode b.type),(basisPathNormalize path).getD []⟩) s
      (sendStr b.path++[])
      (FitAll s [b.path] ∧
        ((index:ℤ) < maxBasisDirs ∧ (basisPathNormalize b.path).isSome = true) ∧ True)
      (⟨basisType (basisCode b.type),(basisPathNormalize b.path).getD []⟩ : BasisDest)
      (chargeAll s [b.path]) :=
    decides_bind (decides_one h s) fun _ =>
      decides_check (p := (index:ℤ) < maxBasisDirs ∧ (basisPathNormalize b.path).isSome = true)
        fun _ => decides_pure _ (chargeAll s [b.path])
  rw [List.append_nil] at hpath
  have hentry : Decides (receiveBasis index) s (sendBasis b)
      ((0 < basisCode b.type ∧ basisCode b.type ≤ 3) ∧ FitAll s [b.path] ∧
        ((index:ℤ) < maxBasisDirs ∧ (basisPathNormalize b.path).isSome = true) ∧ True)
      (⟨basisType (basisCode b.type),(basisPathNormalize b.path).getD []⟩ : BasisDest)
      (chargeAll s [b.path]) :=
    decides_read (reads_int hrange s)
      (decides_check (p := 0 < basisCode b.type ∧ basisCode b.type ≤ 3) fun _ => hpath)
  rw [hcode] at hentry
  constructor
  · rintro ⟨⟨hne,hsome⟩,hindex,hfit⟩
    have hreads := hentry.reads ⟨hne,hfit,⟨hindex,hsome⟩,trivial⟩
    rwa [htype hne] at hreads
  · intro hnot
    apply hentry.refuses
    rintro ⟨hne,hfit,⟨hindex,hsome⟩,_⟩
    exact hnot ⟨⟨hne,hsome⟩,hindex,hfit⟩

def basisPaths (entries : List BasisDest) : List Bytes := entries.map BasisDest.path

theorem decides_basisEntries (entries : List BasisDest) (h : ∀ b ∈ entries, CString b.path)
    (index : ℕ) (hindex : (index:ℤ) ≤ maxBasisDirs) (s : Session) :
    Decides (receiveBasisEntries entries.length index) s (entries.flatMap sendBasis)
      (((∀ b ∈ entries, BasisValid b) ∧ (index+entries.length:ℤ) ≤ maxBasisDirs) ∧
        FitAll s (basisPaths entries)) (entries.map arrivedBasis)
      (chargeAll s (basisPaths entries)) := by
  induction entries generalizing index s with
  | nil =>
    refine decides_congr ?_ (decides_pure [] s)
    simp [basisPaths, FitAll, hindex]
  | cons b entries ih =>
    have hone := decides_basis b (h b (by simp)) index s
    have hboth : Decides (receiveBasisEntries (b::entries).length index) s
        (sendBasis b++entries.flatMap sendBasis)
        ((BasisValid b ∧ (index:ℤ) < maxBasisDirs ∧ FitAll s [b.path]) ∧
          ((∀ b ∈ entries, BasisValid b) ∧ (((index+1:ℕ):ℤ)+entries.length) ≤ maxBasisDirs) ∧
            FitAll (chargeAll s [b.path]) (basisPaths entries))
        (arrivedBasis b::entries.map arrivedBasis)
        (chargeAll (chargeAll s [b.path]) (basisPaths entries)) :=
      decides_bind hone fun hp => decides_map
        (ih (fun x hx => h x (by simp [hx])) (index+1) (by have := hp.2.1; omega) _)
    refine decides_congr ?_ hboth
    have hsplit : basisPaths (b::entries) = [b.path]++basisPaths entries := rfl
    rw [hsplit, fitAll_append, List.forall_mem_cons, List.length_cons]
    push_cast
    constructor
    · rintro ⟨⟨hb,hlt,hfit⟩,⟨hrest,hle⟩,hfits⟩
      exact ⟨⟨⟨hb,hrest⟩,by omega⟩,hfit,hfits⟩
    · rintro ⟨⟨⟨hb,hrest⟩,hle⟩,hfit,hfits⟩
      exact ⟨⟨hb,by omega,hfit⟩,⟨hrest,by omega⟩,hfits⟩

def arrivedIdentity (m : IdentityMap) : IdentityMap := {m with toName := orNull (textOf m.toName)}

theorem decides_identity (m : IdentityMap) (h : CString (textOf m.toName)) (s : Session) :
    Decides receiveIdentity s (sendIdentity m) (FitAll s [textOf m.toName]) (arrivedIdentity m)
      (chargeAll s [textOf m.toName]) := by
  rw [sendIdentity, List.append_assoc, List.append_assoc]
  exact decides_read (reads_int32 s) (decides_read (reads_int32 s)
    (decides_read (reads_int32 s) (decides_map (decides_one h s))))

def identityNames (entries : List IdentityMap) : List Bytes :=
  entries.map fun m => textOf m.toName

theorem decides_identityEntries {entries : List IdentityMap}
    (h : ∀ m ∈ entries, CString (textOf m.toName)) (s : Session) :
    Decides (receiveIdentityEntries entries.length) s (entries.flatMap sendIdentity)
      (FitAll s (identityNames entries)) (entries.map arrivedIdentity)
      (chargeAll s (identityNames entries)) := by
  induction entries generalizing s with
  | nil => exact decides_pure [] s
  | cons m entries ih =>
    have hone := decides_identity m (h m (by simp)) s
    have hrest := ih (fun x hx => h x (by simp [hx])) (chargeAll s [textOf m.toName])
    have hsplit : identityNames (m::entries) = [textOf m.toName]++identityNames entries := rfl
    rw [List.flatMap_cons, hsplit]
    refine decides_congr (fitAll_append s).symm ?_
    exact decides_bind hone fun _ => decides_map hrest

/-- The strings of a block of rules: an owner and a pattern each. -/
def ruleStrings (rules : List FilterRule) : List Bytes :=
  rules.flatMap fun r => [[],patternText r]

theorem ruleStrings_cons (r : FilterRule) (rules : List FilterRule) :
    ruleStrings (r::rules) = [[],patternText r]++ruleStrings rules := List.flatMap_cons

theorem afterRules_charge (rules : List FilterRule) (s : Session) :
    afterRules s rules = chargeAll s (ruleStrings rules) := by
  induction rules generalizing s with
  | nil => rfl
  | cons r rules ih =>
    exact ih (afterRule s r)

theorem rulesFit_strings (rules : List FilterRule) (patternBytes : ℕ) (s : Session)
    (hbytes : patternBytes ≤ maxFilterBytes) :
    RulesFit patternBytes s rules ↔
      patternBytes+patternTotal rules ≤ maxFilterBytes ∧ FitAll s (ruleStrings rules) := by
  induction rules generalizing patternBytes s with
  | nil => simp [RulesFit, patternTotal, ruleStrings, FitAll, hbytes]
  | cons r rules ih =>
    have htotal : patternTotal (r::rules) = (patternText r).length+patternTotal rules := by
      simp [patternTotal]
    have hpair : FitAll s [[],patternText r] ↔
        Fits s 0 ∧ Fits (charged s 0) (patternText r).length := by
      simp [FitAll]
    have hafter : afterRule s r = chargeAll s [[],patternText r] := rfl
    rw [RulesFit, RuleFits, ruleStrings_cons, fitAll_append, htotal, hpair, hafter]
    constructor
    · rintro ⟨⟨howner,hpattern,hle⟩,hrest⟩
      rw [ih _ _ (by omega)] at hrest
      exact ⟨by omega,⟨howner,hpattern⟩,hrest.2⟩
    · rintro ⟨hle,⟨howner,hpattern⟩,hrest⟩
      refine ⟨⟨howner,hpattern,by omega⟩,?_⟩
      rw [ih _ _ (by omega)]
      exact ⟨by omega,hrest⟩

end Blocks

end FastSync.ConfigFields
