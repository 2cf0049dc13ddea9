import FastSync.ConfigFields

/-!
# The value that arrives for a field

Over all kinds of fields: what arrives, which strings are sent, and what the
receiver asks of a value besides room for its strings. A field is taken exactly
under these conditions once the fields that steer it have arrived.
-/

set_option autoImplicit false

namespace FastSync.ConfigValues
open DeletePaths (Bytes)
open ByteReader WireValues
open FilterSyntax FilterRules ProtectBlock
open ConfigTable ConfigFrame ConfigFields

section Fields
variable (files : Bytes → Option Bytes) (c : Config)

def compiledRules : List FilterRule :=
  match filterBaseBuild files c.filters c.cvsExclude (c.member .deleteExcluded) with
  | .ok list => list.items
  | .error _ => []

def arrivedValue : (k : Kind) → Value k → Value k
  | .derivedDelta, v => Bool.and v (!c.wholeFile)
  | .rawMaxAlloc, v => effectiveMaxAlloc v
  | .copyAsId, v => if copyAsSet c then v else (0:Int32)
  | .str, v => some (textOf v)
  | .strOpt, v => orNull (textOf v)
  | .strKeep, v => some (textOf v)
  | .strModule, v => orNull (textOf v)
  | .strRedactedAuth, v => orNull (textOf v)
  | .blockBasis, v => List.map arrivedBasis v
  | .blockIdmap _, v => List.map arrivedIdentity v
  | .blockProtectRules, _ => rebuilt (compiledRules files c)
  | _, v => v

def stringsOf : (k : Kind) → Value k → List Bytes
  | .str, v => [textOf v]
  | .strOpt, v => [textOf v]
  | .strKeep, v => [textOf v]
  | .strModule, v => [textOf v]
  | .strRedactedAuth, v => if textOf v = [] then [] else [textOf v]
  | .blockSkipSuffixes, v => v
  | .blockBasis, v => basisPaths v
  | .blockIdmap _, v => identityNames v
  | .blockProtectRules, _ => ruleStrings (compiledRules files c)
  | _, _ => []

/-- What the receiver asks of a field besides room for its strings. -/
def Accepted : (k : Kind) → Value k → Prop
  | .intChecksumAlgo, v => checksumAlgoValid v
  | .intCompressionAlgo, v => compressionAlgoValid v
  | .intIdentity, v => identityMatchAny ≤ Int32.toInt v
  | .intSkipCount, v => 0 ≤ Int32.toInt v ∧ Int32.toInt v ≤ maxSkipCompressSuffixes
  | .intBasisCount, v => 0 ≤ Int32.toInt v ∧ Int32.toInt v ≤ maxBasisDirs
  | .intIdmapCount, v => 0 ≤ Int32.toInt v ∧ Int32.toInt v ≤ maxIdentityMap
  | .copyAsId, v => copyAsSet c = true → 0 ≤ Int32.toInt v
  | .strModule, v => textOf v = [] ∨ daemonModuleNameValid (textOf v) = true
  | .strRedactedAuth, v => textOf v = [] ∨ credentialsUsernameValid (textOf v) = true
  | .blockBasis, v => (∀ b ∈ (show List BasisDest from v), BasisValid b) ∧
      (List.length v:ℤ) ≤ maxBasisDirs
  | .blockProtectRules, _ => patternTotal (compiledRules files c) ≤ maxFilterBytes
  | _, _ => True

def afterValue (s : Session) : (k : Kind) → Value k → Session
  | .rawMaxAlloc, v => {s with maxAlloc := (effectiveMaxAlloc v).toNat}
  | k, v => chargeAll s (stringsOf files c k v)

/-- What has been received agrees with the sender on what steers the field. -/
def Ready (acc : Config) : (k : Kind) → Value k → Value k → Prop
  | .copyAsId, _, current => copyAsSet acc = copyAsSet c ∧ current = (0:Int32)
  | .blockSkipSuffixes, v, _ => countOf acc .skipCompressCount = List.length v ∧
      countOf c .skipCompressCount = List.length v
  | .blockBasis, v, _ => countOf acc .basisCount = List.length v ∧
      countOf c .basisCount = List.length v
  | .blockIdmap count, v, _ => countOf acc count = List.length v ∧
      countOf c count = List.length v
  | _, _, _ => True

variable {bs : List UInt8}

section
variable {σ α : Type} {r : Reader σ α} {s s' : σ} {a : α}

theorem decides_total (h : Reads r s bs a s') : Decides r s bs (True ∧ True) a s' :=
  ⟨fun _ => h,fun hnot => absurd ⟨trivial,trivial⟩ hnot⟩

theorem decides_and_true {p : Prop} (h : Decides r s bs p a s') : Decides r s bs (p ∧ True) a s' :=
  decides_congr (and_iff_left trivial).symm h

theorem decides_true_and {p : Prop} (h : Decides r s bs p a s') : Decides r s bs (True ∧ p) a s' :=
  decides_congr (and_iff_right trivial).symm h

end

variable {files} {c}

theorem decides_copyAsId {acc : Config} {v current : Int32} (hacc : copyAsSet acc = copyAsSet c)
    (hzero : current = 0) {s : Session} :
    Decides (if copyAsSet acc then receiveChecked (fun v => 0 ≤ v.toInt) else pure current) s
      (if copyAsSet c then sendInt32 v else [])
      (copyAsSet c = true → 0 ≤ Int32.toInt v) (if copyAsSet c then v else (0:Int32)) s := by
  rw [hacc]
  cases copyAsSet c with
  | false =>
    rw [hzero]
    exact ⟨fun _ => reads_pure (0:Int32) s,fun hnot => absurd (by simp) hnot⟩
  | true =>
    refine decides_congr ?_ (decides_checked s)
    simp

variable {bytes : Bytes}

theorem decides_string {v : Option Bytes} (hsend : v.map sendStr = some bytes)
    (h : CString (textOf v)) {s : Session} :
    Decides configReceiveKeptStr s bytes (FitAll s [textOf v]) (some (textOf v))
      (chargeAll s [textOf v]) := by
  obtain ⟨x,rfl,rfl⟩ := Option.map_eq_some_iff.mp hsend
  exact decides_kept h s

theorem cstring_authUser {v : Option Bytes}
    (h : ∀ x ∈ (if textOf v = [] then [] else [textOf v]), CString x) : CString (textOf v) := by
  by_cases hempty : textOf v = []
  · rw [hempty]
    exact ⟨by simp,by decide⟩
  · rw [if_neg hempty] at h
    exact h _ (List.mem_singleton_self _)

section Counted
variable {received sent : ℕ}

theorem decides_suffixes {v : List Bytes} (hreceived : received = v.length)
    (hsent : sent = v.length) (hclean : ∀ x ∈ v, CString x) {s : Session} :
    Decides (receiveStrs received) s ((v.take sent).flatMap sendStr) (FitAll s v) v
      (chargeAll s v) := by
  rw [hreceived, hsent, List.take_length]
  exact decides_strs hclean s

theorem decides_basisBlock {v : List BasisDest} (hreceived : received = v.length)
    (hsent : sent = v.length) (hclean : ∀ x ∈ basisPaths v, CString x) {s : Session} :
    Decides (receiveBasisEntries received 0) s ((v.take sent).flatMap sendBasis)
      (((∀ b ∈ v, BasisValid b) ∧ (v.length:ℤ) ≤ maxBasisDirs) ∧ FitAll s (basisPaths v))
      (v.map arrivedBasis) (chargeAll s (basisPaths v)) := by
  have hpaths : ∀ b ∈ v, CString b.path := fun b hb => hclean _ (List.mem_map_of_mem hb)
  have hentries := decides_basisEntries v hpaths 0 (by decide) s
  rw [Nat.cast_zero, zero_add] at hentries
  rw [hreceived, hsent, List.take_length]
  exact hentries

theorem decides_identityBlock {v : List IdentityMap} (hreceived : received = v.length)
    (hsent : sent = v.length) (hclean : ∀ x ∈ identityNames v, CString x) {s : Session} :
    Decides (receiveIdentityEntries received) s ((v.take sent).flatMap sendIdentity)
      (FitAll s (identityNames v)) (v.map arrivedIdentity) (chargeAll s (identityNames v)) := by
  have hnames : ∀ m ∈ v, CString (textOf m.toName) := fun m hm =>
    hclean _ (List.mem_map_of_mem (f := fun m => textOf m.toName) hm)
  rw [hreceived, hsent, List.take_length]
  exact decides_identityEntries hnames s

end Counted

theorem decides_protect
    (hsend : sendProtectEntries files c.filters c.cvsExclude (c.member .deleteExcluded) =
      some bytes)
    (hfilters : ∀ t ∈ c.filters, 0 ∉ t) {s : Session} :
    Decides receiveProtectEntries s bytes
      (patternTotal (compiledRules files c) ≤ maxFilterBytes ∧
        FitAll s (ruleStrings (compiledRules files c))) (rebuilt (compiledRules files c))
      (chargeAll s (ruleStrings (compiledRules files c))) := by
  cases hbuild : filterBaseBuild files c.filters c.cvsExclude (c.member .deleteExcluded) with
  | error failure =>
    unfold sendProtectEntries at hsend
    rw [hbuild] at hsend
    cases hsend
  | ok compiled =>
    have hrules : compiledRules files c = compiled.items := by
      rw [compiledRules, hbuild]
    obtain ⟨hcount,rfl,hlen⟩ := send_parts hbuild hsend
    have hfit := rulesFit_strings compiled.items 0 s (Nat.zero_le _)
    rw [Nat.zero_add] at hfit
    rw [hrules, ← afterRules_charge]
    exact decides_congr hfit
      (decides_block compiled.items (filterBaseBuild_parsed hfilters hbuild) hcount hlen)

theorem decides_value {acc : Config} (k : Kind) {v current : Value k}
    (hsend : sendValue files c k v = some bytes)
    (hstrings : k ≠ .blockProtectRules → ∀ x ∈ stringsOf files c k v, CString x)
    (hfilters : ∀ t ∈ c.filters, 0 ∉ t) (hready : Ready c acc k v current) (s : Session) :
    Decides (receiveValue acc k current) s bytes
      (Accepted files c k v ∧ FitAll s (stringsOf files c k v)) (arrivedValue files c k v)
      (afterValue files c s k v) := by
  cases k with
  | bool | bool8Bit | boolXattrDerive | copyAsPresence =>
    cases hsend
    exact decides_total (reads_bool v s)
  | derivedDelta =>
    cases hsend
    exact decides_total (reads_bool _ s)
  | int | rawInt =>
    cases hsend
    exact decides_total (reads_int32 s)
  | rawU32 =>
    cases hsend
    exact decides_total (reads_u32 s)
  | rawU64 =>
    cases hsend
    exact decides_total (reads_u64 s)
  | rawMaxAlloc =>
    cases hsend
    exact decides_total (reads_maxAlloc s)
  | intChecksumAlgo =>
    cases hsend
    exact decides_and_true (decides_checked s)
  | intCompressionAlgo =>
    cases hsend
    exact decides_and_true (decides_checked s)
  | superMode =>
    cases hsend
    exact decides_total (reads_superMode s)
  | intIdentity | intSkipCount | intBasisCount | intIdmapCount =>
    cases hsend
    exact decides_and_true (decides_checked s)
  | copyAsId =>
    cases hsend
    obtain ⟨hacc,hzero⟩ := hready
    exact decides_and_true (decides_copyAsId hacc hzero)
  | str =>
    exact decides_true_and (decides_string hsend (hstrings (by decide) _ (List.mem_singleton_self _)))
  | strOpt =>
    cases hsend
    have hx : CString (textOf v) := hstrings (by decide) _ (List.mem_singleton_self _)
    exact decides_true_and (decides_optional hx s)
  | strKeep =>
    cases hsend
    have hx : CString (textOf v) := hstrings (by decide) _ (List.mem_singleton_self _)
    exact decides_true_and (decides_kept hx s)
  | strModule =>
    cases hsend
    have hx : CString (textOf v) := hstrings (by decide) _ (List.mem_singleton_self _)
    exact decides_module hx s
  | strRedactedAuth =>
    cases hsend
    exact decides_authUser (cstring_authUser (hstrings (by decide)))
  | blockSkipSuffixes =>
    cases hsend
    obtain ⟨hacc,hsent⟩ := hready
    exact decides_true_and (decides_suffixes hacc hsent (hstrings (by simp)))
  | blockBasis =>
    cases hsend
    obtain ⟨hacc,hsent⟩ := hready
    exact decides_basisBlock hacc hsent (hstrings (by simp))
  | blockIdmap count =>
    cases hsend
    obtain ⟨hacc,hsent⟩ := hready
    exact decides_true_and (decides_identityBlock hacc hsent (hstrings (by simp)))
  | blockProtectRules => exact decides_protect hsend hfilters

end Fields

end FastSync.ConfigValues
