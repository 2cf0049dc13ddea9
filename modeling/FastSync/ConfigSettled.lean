import FastSync.ConfigArrival

/-!
# The checks on what arrived

The checks read flags, numbers and names that arrive as they were sent, or in a
form that no check refuses more often. Settling the codec's name changes nothing
they read.
-/

set_option autoImplicit false

namespace FastSync.ConfigSettled
open DeletePaths (Bytes)
open ByteReader
open ConfigTable ConfigFrame ConfigFields
open ConfigArrival

section Whole
variable (files : Bytes → Option Bytes) (c : Config)

section Arrived
variable {files} {c}

theorem flagOf_arrived {m : Member} (h : kindOf m ≠ .derivedDelta) :
    flagOf (arrivedConfig files c) m = flagOf c m := by
  rw [flagOf, flagOf, arrivedConfig_member, arrivedMember]
  generalize c.member m = v
  revert v h
  generalize kindOf m = k
  intro h v
  cases k
  case derivedDelta => exact absurd rfl h
  all_goals rfl

theorem useDelta_arrived :
    flagOf (arrivedConfig files c) .useDelta = (flagOf c .useDelta && !c.wholeFile) := by
  rfl

theorem numberOf_arrived {m : Member} (hmax : kindOf m ≠ .rawMaxAlloc) (hcopy : kindOf m ≠ .copyAsId) :
    numberOf (arrivedConfig files c) m = numberOf c m := by
  rw [numberOf, numberOf, arrivedConfig_member, arrivedMember]
  generalize c.member m = v
  revert v hmax hcopy
  generalize kindOf m = k
  intro hmax hcopy v
  cases k
  case rawMaxAlloc => exact absurd rfl hmax
  case copyAsId => exact absurd rfl hcopy
  all_goals rfl

theorem textOf_orNull {x : Bytes} : textOf (orNull x) = x := by
  unfold orNull
  split_ifs with h
  · exact h.symm
  · rfl

theorem stringOf_arrived (m : Member) :
    textOf (stringOf (arrivedConfig files c) m) = textOf (stringOf c m) := by
  rw [stringOf, stringOf, arrivedConfig_member, arrivedMember]
  generalize c.member m = v
  revert v
  generalize kindOf m = k
  intro v
  cases k <;> first | rfl | exact textOf_orNull

theorem identityWireMapValid_arrived {m : IdentityMap} :
    identityWireMapValid (arrivedIdentity m) = identityWireMapValid m := by
  rw [identityWireMapValid, identityWireMapValid, arrivedIdentity, textOf_orNull]

theorem usermap_arrived : usermapOf (arrivedConfig files c) = (usermapOf c).map arrivedIdentity := by
  rfl

theorem groupmap_arrived :
    groupmapOf (arrivedConfig files c) = (groupmapOf c).map arrivedIdentity := by
  rfl

theorem mapsValid_arrived (entries : List IdentityMap) (count : ℕ) :
    ((entries.map arrivedIdentity).take count).all identityWireMapValid =
      (entries.take count).all identityWireMapValid := by
  rw [← List.map_take, List.all_map]
  congr 1
  funext m
  exact identityWireMapValid_arrived

theorem copyAs_arrived {m : Member} (hm : kindOf m = .copyAsId) :
    flagOf c .copyAsSet = true → numberOf (arrivedConfig files c) m = numberOf c m := by
  intro hset
  rw [numberOf, numberOf, arrivedConfig_member, arrivedMember]
  generalize c.member m = v
  revert v
  rw [hm]
  intro v
  exact congrArg Int32.toInt (if_pos hset)

theorem iconv_arrived :
    stringOf (arrivedConfig files c) .iconvSpec = orNull (textOf (stringOf c .iconvSpec)) := by
  rfl

theorem iconvAccepted_arrived {platform : Platform} {spec : Option Bytes}
    (h : iconvAccepted platform spec = true) : iconvAccepted platform (orNull (textOf spec)) = true := by
  cases spec with
  | none => rfl
  | some spec =>
    by_cases hempty : spec = []
    · rw [hempty]
      rfl
    · have hsome : orNull (textOf (some spec)) = some spec := if_neg hempty
      rwa [hsome]

/-- What the sender's checks accept is accepted as it arrives. -/
theorem configInvariants_arrived {platform : Platform} (h : configInvariants platform c = true) :
    configInvariants platform (arrivedConfig files c) = true := by
  have hwhole : (arrivedConfig files c).wholeFile = false :=
    arriveFields_wholeFile files c configCreate
  have hiconv : iconvAccepted platform (stringOf c .iconvSpec) = true →
      iconvAccepted platform (orNull (textOf (stringOf c .iconvSpec))) = true :=
    iconvAccepted_arrived
  unfold configInvariants at h ⊢
  simp (disch := decide) only [flagOf_arrived, numberOf_arrived, useDelta_arrived, stringOf_arrived,
    iconv_arrived, configHasValidDeleteTiming, hwhole, Bool.and_eq_true, Bool.not_false,
    Bool.and_true, Bool.and_false] at h ⊢
  tauto

theorem copyAsIds_arrived :
    (flagOf c .copyAsSet && decide (numberOf (arrivedConfig files c) .copyAsUid < 0 ∨
      numberOf (arrivedConfig files c) .copyAsGid < 0)) =
    (flagOf c .copyAsSet && decide (numberOf c .copyAsUid < 0 ∨ numberOf c .copyAsGid < 0)) := by
  cases hset : flagOf c .copyAsSet with
  | false => rw [Bool.false_and, Bool.false_and]
  | true => rw [copyAs_arrived (by decide) hset, copyAs_arrived (by decide) hset]

theorem identityWireValid_arrived :
    identityWireValid (arrivedConfig files c) = identityWireValid c := by
  have husers : countOf (arrivedConfig files c) .usermapCount = countOf c .usermapCount :=
    countOf_arrived (by decide) (arrivedConfig_member files c)
  have hgroups : countOf (arrivedConfig files c) .groupmapCount = countOf c .groupmapCount :=
    countOf_arrived (by decide) (arrivedConfig_member files c)
  unfold identityWireValid
  rw [usermap_arrived, groupmap_arrived, mapsValid_arrived, mapsValid_arrived, husers, hgroups]
  simp (disch := decide) only [flagOf_arrived, numberOf_arrived, copyAsIds_arrived]

theorem effectiveMaxAlloc_bounds (v : UInt64) :
    0 < (effectiveMaxAlloc v).toNat ∧ (effectiveMaxAlloc v).toNat ≤ maxServerAlloc.toNat := by
  unfold effectiveMaxAlloc
  split_ifs with h
  · exact ⟨by decide,le_refl _⟩
  · rw [not_or] at h
    have hpos : v.toNat ≠ 0 := fun hzero => h.1 (UInt64.toNat_inj.mp hzero)
    have hle : v ≤ maxServerAlloc := UInt64.not_lt.mp h.2
    exact ⟨Nat.pos_of_ne_zero hpos,UInt64.le_iff_toNat_le.mp hle⟩

theorem maxAlloc_arrived : numberOf (arrivedConfig files c) .maxAlloc ≤ maxServerAlloc.toNat := by
  rw [numberOf, arrivedConfig_member]
  exact Int.ofNat_le.mpr (effectiveMaxAlloc_bounds (c.member .maxAlloc)).2

theorem validate_arrived {platform : Platform} (h : validateReceivedConfig platform c = true) :
    validateReceivedConfig platform (arrivedConfig files c) = true := by
  unfold validateReceivedConfig at h ⊢
  simp (disch := decide) only [flagOf_arrived, numberOf_arrived, identityWireValid_arrived,
    copyAsIds_arrived, stringOf_arrived, Bool.and_eq_true, decide_eq_true_eq] at h ⊢
  obtain ⟨⟨⟨⟨⟨⟨⟨hinvariants,hsum⟩,hcodec⟩,hid⟩,hcopy⟩,hlevel⟩,hchunk,hchunk',hblock,hblock',hdelta,
    hwindow,hdelete,_,hskip⟩,hchmod⟩ := h
  exact ⟨⟨⟨⟨⟨⟨⟨configInvariants_arrived hinvariants,hsum⟩,hcodec⟩,hid⟩,hcopy⟩,hlevel⟩,hchunk,hchunk',
    hblock,hblock',hdelta,hwindow,hdelete,maxAlloc_arrived,hskip⟩,hchmod⟩

theorem codecsAgree_arrived : codecsAgree (arrivedConfig files c) = codecsAgree c := by
  unfold codecsAgree
  simp (disch := decide) only [flagOf_arrived, numberOf_arrived]

end Arrived

section Settled
variable {a : Config} {platform : Platform} {v : Option Bytes} {m : Member}

section
variable (h : m ≠ .compressChoice)
include h

theorem flagOf_renamed : flagOf (storeMember a .compressChoice v) m = flagOf a m := by
  exact congrArg (flagValue (kindOf m)) (storeMember_of_ne h)

theorem numberOf_renamed : numberOf (storeMember a .compressChoice v) m = numberOf a m := by
  exact congrArg (numberValue (kindOf m)) (storeMember_of_ne h)

theorem stringOf_renamed : stringOf (storeMember a .compressChoice v) m = stringOf a m := by
  have hmember : (storeMember a .compressChoice v).member m = a.member m :=
    storeMember_of_ne h
  unfold stringOf
  rw [hmember]

end

theorem codecsAgree_renamed : codecsAgree (storeMember a .compressChoice v) = codecsAgree a := by
  unfold codecsAgree
  simp (disch := decide) only [flagOf_renamed, numberOf_renamed]

theorem identityWireValid_renamed :
    identityWireValid (storeMember a .compressChoice v) = identityWireValid a := by
  have hmember : ∀ m, m ≠ .compressChoice →
      (storeMember a .compressChoice v).member m = a.member m := fun m h => storeMember_of_ne h
  unfold identityWireValid usermapOf groupmapOf countOf
  simp (disch := decide) only [flagOf_renamed, numberOf_renamed, hmember]

theorem validate_renamed :
    validateReceivedConfig platform (storeMember a .compressChoice v) =
      validateReceivedConfig platform a := by
  unfold validateReceivedConfig configInvariants configHasValidDeleteTiming
  simp (disch := decide) only [flagOf_renamed, numberOf_renamed, stringOf_renamed,
    identityWireValid_renamed]
  rfl

theorem settleConfig_some {r : Config} :
    settleConfig platform a = some r ↔ ∃ choice,
      settledChoice platform (textOf (stringOf a .compressChoice))
        (numberOf a .compressionAlgo) = some choice ∧
      codecsAgree a = true ∧ validateReceivedConfig platform a = true ∧
      r = storeMember a .compressChoice (some choice) := by
  unfold settleConfig
  split
  · rename_i hnone
    simp [hnone]
  · rename_i choice hsome
    simp only [codecsAgree_renamed, validate_renamed, hsome, Bool.and_eq_true,
      Option.ite_none_right_eq_some, Option.some.injEq, exists_eq_left', and_assoc]
    rw [eq_comm (a := r)]

end Settled

end Whole

end FastSync.ConfigSettled
