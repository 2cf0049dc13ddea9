import FastSync.ConfigValues

/-!
# The fields, one after the other

The table lists a count or a flag before every field it steers, so that the
receiver knows what it needs when it comes to a field. The whole table is taken
exactly when every field is, and every member then holds what arrives for it.
-/

set_option autoImplicit false

namespace FastSync.ConfigArrival
open DeletePaths (Bytes)
open ByteReader WireValues
open ConfigTable ConfigFrame ConfigFields ConfigValues

section Table
variable (files : Bytes → Option Bytes) (c : Config)

def arrivedMember (m : Member) : Value (kindOf m) := arrivedValue files c (kindOf m) (c.member m)

def arriveFields (ms : List Member) (acc : Config) : Config :=
  ms.foldl (fun acc m => storeMember acc m (arrivedMember files c m)) acc

def afterFields (ms : List Member) (s : Session) : Session :=
  ms.foldl (fun s m => afterValue files c s (kindOf m) (c.member m)) s

/-- Every field is taken, with the room the fields before it leave. -/
def TakenAll : Session → List Member → Prop
  | _, [] => True
  | s, m::ms => (Accepted files c (kindOf m) (c.member m) ∧
      FitAll s (stringsOf files c (kindOf m) (c.member m))) ∧
        TakenAll (afterValue files c s (kindOf m) (c.member m)) ms

def ReadyAll : Config → List Member → Prop
  | _, [] => True
  | acc, m::ms => Ready c acc (kindOf m) (c.member m) (acc.member m) ∧
      ReadyAll (storeMember acc m (arrivedMember files c m)) ms

variable {files} {c}

theorem sendFields_cons {m : Member} {ms : List Member} {bytes : Bytes}
    (h : sendFields files c (m::ms) = some bytes) :
    ∃ first rest, sendValue files c (kindOf m) (c.member m) = some first ∧
      sendFields files c ms = some rest ∧ bytes = first++rest := by
  rw [sendFields] at h
  split at h
  · rename_i first rest hfirst hrest
    exact ⟨first,rest,hfirst,hrest,(Option.some.inj h).symm⟩
  · cases h

theorem decides_fields (ms : List Member)
    (hstrings : ∀ m, kindOf m ≠ .blockProtectRules →
      ∀ x ∈ stringsOf files c (kindOf m) (c.member m), CString x)
    (hfilters : ∀ t ∈ c.filters, 0 ∉ t) {bytes : Bytes}
    (hsend : sendFields files c ms = some bytes) (acc : Config) (hready : ReadyAll files c acc ms)
    (s : Session) :
    Decides (receiveFields ms acc) s bytes (TakenAll files c s ms) (arriveFields files c ms acc)
      (afterFields files c ms s) := by
  induction ms generalizing bytes acc s with
  | nil =>
    cases hsend
    exact decides_pure acc s
  | cons m ms ih =>
    obtain ⟨first,rest,hfirst,hrest,rfl⟩ := sendFields_cons hsend
    have hvalue := decides_value (kindOf m) hfirst (hstrings m) hfilters hready.1 s
    exact decides_bind hvalue fun _ => ih hrest _ hready.2 _

end Table

section Order

theorem storeMember_self {c : Config} {m : Member} {v : Value (kindOf m)} :
    (storeMember c m v).member m = v := by
  exact Function.update_self m _ c.member

theorem storeMember_of_ne {c : Config} {m x : Member} (h : x ≠ m) {v : Value (kindOf m)} :
    (storeMember c m v).member x = c.member x := by
  exact Function.update_of_ne h _ c.member

def steers : Kind → List Member
  | .copyAsId => [.copyAsSet]
  | .blockSkipSuffixes => [.skipCompressCount]
  | .blockBasis => [.basisCount]
  | .blockIdmap count => [count]
  | _ => []

/-- No field is listed twice or before what steers it. -/
def Ordered : List Member → List Member → Prop
  | _, [] => True
  | seen, m::ms => m ∉ seen ∧ (∀ x ∈ steers (kindOf m), x ∈ seen) ∧ Ordered (m::seen) ms

instance decidableOrdered : (seen ms : List Member) → Decidable (Ordered seen ms)
  | _, [] => .isTrue trivial
  | seen, m::ms =>
    have := decidableOrdered (m::seen) ms
    inferInstanceAs (Decidable (_ ∧ _ ∧ _))

theorem table_ordered : Ordered [.version] configWireFields.tail := by decide +kernel

structure Counted (c : Config) : Prop where
  suffixes : countOf c .skipCompressCount = List.length (c.member .skipCompressSuffixes)
  basis : countOf c .basisCount = List.length (c.member .basisDirs)
  users : countOf c .usermapCount = List.length (c.member .usermap)
  groups : countOf c .groupmapCount = List.length (c.member .groupmap)

variable {files : Bytes → Option Bytes} {c : Config}

theorem countOf_arrived {acc : Config} {count : Member}
    (hkind : kindOf count = .intSkipCount ∨ kindOf count = .intBasisCount ∨
      kindOf count = .intIdmapCount)
    (h : acc.member count = arrivedMember files c count) : countOf acc count = countOf c count := by
  rw [countOf, countOf, h, arrivedMember]
  rcases hkind with hkind | hkind | hkind <;> generalize c.member count = v <;> revert v <;>
    rw [hkind] <;> exact fun _ => rfl

theorem ready_of_steers (hcounted : Counted c) {acc : Config} {m : Member}
    (hsteers : ∀ x ∈ steers (kindOf m), acc.member x = arrivedMember files c x)
    (hfresh : acc.member m = configCreate.member m) :
    Ready c acc (kindOf m) (c.member m) (acc.member m) := by
  cases m with
  | copyAsUid | copyAsGid => exact ⟨hsteers .copyAsSet (by decide),hfresh⟩
  | skipCompressSuffixes =>
    have hcount := countOf_arrived (by decide) (hsteers .skipCompressCount (by decide))
    exact ⟨hcount.trans hcounted.suffixes,hcounted.suffixes⟩
  | basisDirs =>
    have hcount := countOf_arrived (by decide) (hsteers .basisCount (by decide))
    exact ⟨hcount.trans hcounted.basis,hcounted.basis⟩
  | usermap =>
    have hcount := countOf_arrived (by decide) (hsteers .usermapCount (by decide))
    exact ⟨hcount.trans hcounted.users,hcounted.users⟩
  | groupmap =>
    have hcount := countOf_arrived (by decide) (hsteers .groupmapCount (by decide))
    exact ⟨hcount.trans hcounted.groups,hcounted.groups⟩
  | _ => exact trivial

theorem readyAll_of_ordered (hcounted : Counted c) {ms : List Member} (seen : List Member)
    (hordered : Ordered seen ms) (acc : Config)
    (hseen : ∀ x ∈ seen, acc.member x = arrivedMember files c x)
    (hfresh : ∀ x ∉ seen, acc.member x = configCreate.member x) : ReadyAll files c acc ms := by
  induction ms generalizing seen acc with
  | nil => trivial
  | cons m ms ih =>
    obtain ⟨hnew,hsteers,hrest⟩ := hordered
    refine ⟨ready_of_steers hcounted (fun x hx => hseen x (hsteers x hx)) (hfresh m hnew),?_⟩
    apply ih (m::seen) hrest
    · intro x hx
      by_cases hxm : x = m
      · subst hxm
        exact storeMember_self
      · rw [storeMember_of_ne hxm]
        exact hseen x ((List.mem_cons.mp hx).resolve_left hxm)
    · intro x hx
      rw [List.mem_cons, not_or] at hx
      rw [storeMember_of_ne hx.1]
      exact hfresh x hx.2

end Order

section Whole
variable (files : Bytes → Option Bytes) (c : Config)

theorem afterValue_charges {k : Kind} (hk : k ≠ .rawMaxAlloc) (v : Value k) (s : Session) :
    afterValue files c s k v = chargeAll s (stringsOf files c k v) := by
  cases k
  case rawMaxAlloc => exact absurd rfl hk
  all_goals rfl

def fieldStrings (m : Member) : List Bytes := stringsOf files c (kindOf m) (c.member m)

theorem takenAll_iff (ms : List Member) (h : ∀ m ∈ ms, kindOf m ≠ .rawMaxAlloc) (s : Session) :
    TakenAll files c s ms ↔
      (∀ m ∈ ms, Accepted files c (kindOf m) (c.member m)) ∧
        FitAll s (ms.flatMap (fieldStrings files c)) := by
  induction ms generalizing s with
  | nil => simp [TakenAll, FitAll]
  | cons m ms ih =>
    rw [TakenAll, ih (fun x hx => h x (by simp [hx])), afterValue_charges files c (h m (by simp)),
      List.flatMap_cons, fitAll_append, List.forall_mem_cons]
    rw [and_and_and_comm, fieldStrings]

theorem arriveFields_member {ms : List Member} (acc : Config) {x : Member}
    (h : x ∈ ms ∨ acc.member x = arrivedMember files c x) :
    (arriveFields files c ms acc).member x = arrivedMember files c x := by
  induction ms generalizing acc with
  | nil => exact h.resolve_left (by simp)
  | cons m ms ih =>
    apply ih
    by_cases hxm : x = m
    · subst hxm
      exact .inr storeMember_self
    · rw [storeMember_of_ne hxm]
      exact h.imp_left fun hmem => (List.mem_cons.mp hmem).resolve_left hxm

theorem arriveFields_wholeFile {ms : List Member} (acc : Config) :
    (arriveFields files c ms acc).wholeFile = acc.wholeFile := by
  induction ms generalizing acc with
  | nil => rfl
  | cons m ms ih => exact ih (storeMember acc m (arrivedMember files c m))

def arrivedConfig : Config := arriveFields files c configWireFields configCreate

theorem arrivedConfig_member {m : Member} :
    (arrivedConfig files c).member m = arrivedMember files c m :=
  arriveFields_member files c configCreate (.inl member_listed)

def laterFields : List Member := configWireFields.drop 3

def laterStrings : List Bytes := laterFields.flatMap (fieldStrings files c)

end Whole

end FastSync.ConfigArrival
