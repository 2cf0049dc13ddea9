import FastSync.ConfigSettled

/-!
# The round trip of a configuration

A frame is taken exactly when the sender's configuration is receivable: besides
the checks of the whole, every string must fit one allocation under the sender's
own ceiling, and names and numbers must be ones the receiver's codecs publish.
What arrives is the sender's configuration up to a few fixed maps.
-/

set_option autoImplicit false

namespace FastSync.ConfigRoundtrip
open DeletePaths (Bytes)
open ByteReader WireValues
open FilterSyntax ProtectBlock
open ConfigTable ConfigFrame ConfigFields ConfigValues
open ConfigArrival ConfigSettled

section Frame
variable (platform : Platform) (files : Bytes → Option Bytes) (c : Config)

def startSession : Session := ⟨defaultMaxAlloc.toNat,0⟩

/-- The sender's configuration is one that the receiver takes. -/
structure Receivable : Prop where
  version : textOf (stringOf c .version) = protocolVersion
  accepted : ∀ m, Accepted files c (kindOf m) (c.member m)
  size : ∀ x ∈ laterStrings files c, x.length ≤ maxStringSize
  ceiling : ∀ x ∈ laterStrings files c, x.length+1 ≤ (effectiveMaxAlloc (c.member .maxAlloc)).toNat
  total : charge (protocolVersion::laterStrings files c) ≤ maxConfigStringBytes
  choice : (settledChoice platform (textOf (stringOf c .compressChoice))
    (numberOf c .compressionAlgo)).isSome = true
  codecs : codecsAgree c = true
  valid : validateReceivedConfig platform (arrivedConfig files c) = true

def basisOf (c : Config) : List BasisDest := c.member .basisDirs

structure ArrivesAs (r : Config) : Prop where
  member : ∀ m, m ≠ .compressChoice → r.member m = arrivedMember files c m
  choice : ∃ choice, settledChoice platform (textOf (stringOf c .compressChoice))
    (numberOf c .compressionAlgo) = some choice ∧ stringOf r .compressChoice = some choice
  basis : (∀ b ∈ basisOf c, basisPathNormalize b.path = some b.path) → basisOf r = basisOf c

/-- Strings without a NUL and as many entries as the counts say. -/
structure Represented : Prop where
  strings : ∀ m, kindOf m ≠ .blockProtectRules →
    ∀ x ∈ stringsOf files c (kindOf m) (c.member m), CString x
  filters : ∀ t ∈ c.filters, 0 ∉ t
  counted : Counted c

variable {platform} {files} {c}

theorem accepted_later :
    (∀ m ∈ laterFields, Accepted files c (kindOf m) (c.member m)) ↔
      ∀ m, Accepted files c (kindOf m) (c.member m) := by
  constructor
  · intro h m
    have hm : m ∈ .version::.eightBitOutput::.maxAlloc::laterFields := member_listed
    rw [List.mem_cons, List.mem_cons, List.mem_cons] at hm
    rcases hm with rfl | rfl | rfl | hm
    · trivial
    · trivial
    · trivial
    · exact h m hm
  · exact fun h m _ => h m

theorem takenTail_iff {s : Session} (hused : s.used ≤ maxConfigStringBytes) :
    TakenAll files c s configWireFields.tail ↔
      (∀ m, Accepted files c (kindOf m) (c.member m)) ∧
        (∀ x ∈ laterStrings files c, x.length ≤ maxStringSize ∧
          x.length+1 ≤ (effectiveMaxAlloc (c.member .maxAlloc)).toNat) ∧
        s.used+charge (laterStrings files c) ≤ maxConfigStringBytes := by
  have hpos := (effectiveMaxAlloc_bounds (c.member .maxAlloc)).1
  have hlater := takenAll_iff files c laterFields (by decide)
    ⟨(effectiveMaxAlloc (c.member .maxAlloc)).toNat,s.used⟩
  have hfit := fitAll_iff (laterStrings files c)
    ⟨(effectiveMaxAlloc (c.member .maxAlloc)).toNat,s.used⟩ hused
  have hceiling : ∀ n, ((effectiveMaxAlloc (c.member .maxAlloc)).toNat = 0 ∨
      n ≤ (effectiveMaxAlloc (c.member .maxAlloc)).toNat) ↔
      n ≤ (effectiveMaxAlloc (c.member .maxAlloc)).toNat := by
    intro n
    omega
  have htaken : TakenAll files c s configWireFields.tail ↔ TakenAll files c
      ⟨(effectiveMaxAlloc (c.member .maxAlloc)).toNat,s.used⟩ laterFields := by
    constructor
    · exact fun h => h.2.2
    · exact fun h => ⟨⟨trivial,trivial⟩,⟨trivial,trivial⟩,h⟩
  simp only [hceiling] at hfit
  rw [← hfit, ← accepted_later]
  exact htaken.trans hlater

theorem settles_iff :
    (settleConfig platform (arrivedConfig files c)).isSome = true ↔
      (settledChoice platform (textOf (stringOf c .compressChoice))
        (numberOf c .compressionAlgo)).isSome = true ∧ codecsAgree c = true ∧
      validateReceivedConfig platform (arrivedConfig files c) = true := by
  have hnumber : numberOf (arrivedConfig files c) .compressionAlgo = numberOf c .compressionAlgo :=
    numberOf_arrived (by decide) (by decide)
  simp only [Option.isSome_iff_exists, settleConfig_some, stringOf_arrived, codecsAgree_arrived,
    hnumber]
  constructor
  · rintro ⟨r,choice,hchoice,hcodecs,hvalid,_⟩
    exact ⟨⟨choice,hchoice⟩,hcodecs,hvalid⟩
  · rintro ⟨⟨choice,hchoice⟩,hcodecs,hvalid⟩
    exact ⟨_,choice,hchoice,hcodecs,hvalid,rfl⟩

theorem receivable_iff {x : Bytes} (hx : stringOf c .version = some x) :
    Receivable platform files c ↔
      FitAll startSession [x] ∧ x = protocolVersion ∧
        TakenAll files c (chargeAll startSession [x]) configWireFields.tail ∧
        (settleConfig platform (arrivedConfig files c)).isSome = true ∧ True := by
  have htext : textOf (stringOf c .version) = x := by
    rw [hx]
    rfl
  have hfit : FitAll startSession [protocolVersion] := ⟨by unfold Fits; decide,trivial⟩
  have hused : (chargeAll startSession [protocolVersion]).used ≤ maxConfigStringBytes := by decide
  have htotal : charge (protocolVersion::laterStrings files c) =
      (chargeAll startSession [protocolVersion]).used+charge (laterStrings files c) := by
    rw [charge, List.map_cons, List.sum_cons]
    rfl
  constructor
  · rintro ⟨hversion,haccepted,hsize,hceiling,hroom,hchoice,hcodecs,hvalid⟩
    obtain rfl : x = protocolVersion := htext.symm.trans hversion
    refine ⟨hfit,rfl,?_,settles_iff.mpr ⟨hchoice,hcodecs,hvalid⟩,trivial⟩
    rw [takenTail_iff hused, ← htotal]
    exact ⟨haccepted,fun y hy => ⟨hsize y hy,hceiling y hy⟩,hroom⟩
  · rintro ⟨_,rfl,htaken,hsettles,_⟩
    rw [takenTail_iff hused, ← htotal] at htaken
    obtain ⟨haccepted,hstrings,hroom⟩ := htaken
    obtain ⟨hchoice,hcodecs,hvalid⟩ := settles_iff.mp hsettles
    exact ⟨htext,haccepted,fun y hy => (hstrings y hy).1,fun y hy => (hstrings y hy).2,hroom,
      hchoice,hcodecs,hvalid⟩

theorem ready_fresh (h : Counted c) {x : Bytes} (hx : stringOf c .version = some x) :
    ReadyAll files c (storeMember configCreate .version (some x)) configWireFields.tail := by
  have hversion : arrivedMember files c .version = some x := by
    have htext : textOf (stringOf c .version) = x := by
      rw [hx]
      rfl
    exact congrArg some htext
  apply readyAll_of_ordered h [.version] table_ordered
  · intro m hm
    rw [List.mem_singleton] at hm
    subst hm
    exact hversion.symm
  · intro m hm
    exact storeMember_of_ne (fun heq => hm (List.mem_singleton.mpr heq))

/-- The frame is taken exactly when the configuration is receivable. -/
theorem decides_config {bytes : Bytes} (hsend : configSendWireBlock files c = some bytes)
    (h : Represented files c) :
    ∃ after, Decides (configReceive platform) startSession bytes (Receivable platform files c)
      ((settleConfig platform (arrivedConfig files c)).getD (arrivedConfig files c)) after := by
  obtain ⟨first,rest,hfirst,hrest,rfl⟩ := sendFields_cons hsend
  obtain ⟨x,hx,rfl⟩ := Option.map_eq_some_iff.mp (show Option.map sendStr _ = some first from hfirst)
  have hversion : stringOf c .version = some x := hx
  have htext : textOf (stringOf c .version) = x := by
    rw [hversion]
    rfl
  have hclean : CString x := h.strings .version (by decide) x (List.mem_singleton.mpr htext.symm)
  have harrived : arriveFields files c configWireFields.tail
      (storeMember configCreate .version (some x)) = arrivedConfig files c := by
    rw [← htext]
    rfl
  have hfields := decides_fields configWireFields.tail h.strings h.filters hrest _
    (ready_fresh h.counted hversion) (chargeAll startSession [x])
  rw [harrived] at hfields
  refine ⟨afterFields files c configWireFields.tail (chargeAll startSession [x]),
    decides_congr (receivable_iff hversion).symm ?_⟩
  rw [← List.append_nil rest]
  exact decides_bind (decides_one hclean startSession) fun _ =>
    decides_check (p := x = protocolVersion) fun _ => decides_bind hfields fun _ =>
      decides_check (p := (settleConfig platform (arrivedConfig files c)).isSome = true) fun _ =>
        decides_pure _ _

theorem arrives_settled {r : Config}
    (h : settleConfig platform (arrivedConfig files c) = some r) : ArrivesAs platform files c r := by
  obtain ⟨choice,hchoice,_,_,rfl⟩ := settleConfig_some.mp h
  have hmember : ∀ m, m ≠ .compressChoice →
      (storeMember (arrivedConfig files c) .compressChoice (some choice)).member m =
        arrivedMember files c m := by
    intro m hm
    rw [← arrivedConfig_member]
    exact storeMember_of_ne hm
  refine ⟨hmember,⟨choice,hchoice,?_⟩,fun hcanonical => ?_⟩
  · exact storeMember_self
  · have hbasis : basisOf (storeMember (arrivedConfig files c) .compressChoice (some choice)) =
        (basisOf c).map arrivedBasis := hmember .basisDirs (by decide)
    have hkept : (basisOf c).map arrivedBasis = (basisOf c).map id := by
      apply List.map_congr_left
      intro b hb
      rw [arrivedBasis, hcanonical b hb]
      rfl
    rw [hbasis, hkept, List.map_id]

/-- A frame is taken exactly when the sender's configuration is receivable. It is
then read to its last byte and the configuration that is returned holds in every
member what the maps of the codecs make of the sender's. The checks of the whole
accept what they accept at the sender's. -/
theorem config_roundtrip_iff (platform : Platform) (files : Bytes → Option Bytes) (c : Config)
    (bytes : Bytes) (hsend : configSendWireBlock files c = some bytes) (h : Represented files c) :
    (Receivable platform files c → ∃ r after,
      Reads (configReceive platform) startSession bytes r after ∧ ArrivesAs platform files c r) ∧
    (¬Receivable platform files c → Refuses (configReceive platform) startSession bytes) ∧
    (validateReceivedConfig platform c = true →
      validateReceivedConfig platform (arrivedConfig files c) = true) := by
  obtain ⟨after,hframe⟩ := decides_config hsend h
  refine ⟨fun hreceivable => ?_,hframe.refuses,validate_arrived⟩
  have hsettles := settles_iff.mpr ⟨hreceivable.choice,hreceivable.codecs,hreceivable.valid⟩
  obtain ⟨r,hr⟩ := Option.isSome_iff_exists.mp hsettles
  have hreads := hframe.reads hreceivable
  rw [hr] at hreads
  exact ⟨r,after,hreads,arrives_settled hr⟩

end Frame

section Sample

def plainPlatform : Platform := ⟨1,fun _ => true,fun _ => true⟩

def noFiles : Bytes → Option Bytes := fun _ => none

def sampleConfig : Config :=
  storeMember (storeMember configCreate .sendDirectory (some (ascii "a"))) .receiveRootDirectory
    (some (ascii "b"))

theorem sample_represented : Represented noFiles sampleConfig where
  strings := by
    have hall : ∀ m ∈ configWireFields,
        ∀ x ∈ stringsOf noFiles sampleConfig (kindOf m) (sampleConfig.member m),
          0 ∉ x ∧ x.length < 2^64 := by decide +kernel
    exact fun m _ => hall m member_listed
  filters := by simp [sampleConfig, storeMember, configCreate]
  counted := ⟨rfl,rfl,rfl,rfl⟩

/-- The default configuration with both directories set. -/
theorem config_roundtrip_sample :
    ∃ bytes r after, configSendWireBlock noFiles sampleConfig = some bytes ∧
      Reads (configReceive plainPlatform) startSession bytes r after ∧
      ArrivesAs plainPlatform noFiles sampleConfig r := by
  have hsend : configSendWireBlock noFiles sampleConfig =
      some ((configSendWireBlock noFiles sampleConfig).getD []) := by decide +kernel
  have h := config_roundtrip_iff plainPlatform noFiles sampleConfig _ hsend sample_represented
  have htaken : (configReceive plainPlatform ((configSendWireBlock noFiles sampleConfig).getD []++[])
      startSession).isSome = true := by decide +kernel
  have hreceivable : Receivable plainPlatform noFiles sampleConfig := by
    by_contra hnot
    rw [h.2.1 hnot []] at htaken
    cases htaken
  obtain ⟨r,after,hreads,harrives⟩ := h.1 hreceivable
  exact ⟨_,r,after,hsend,hreads,harrives⟩

def smallCeiling : Config := storeMember sampleConfig .maxAlloc (1:UInt64)

def namedNone : Config :=
  storeMember (storeMember sampleConfig .compressChoice (some (ascii "NONE"))) .compressionAlgo
    (0:Int32)

/-- A ceiling of one byte passes every check of the whole and its frame is
refused; a codec named in capitals arrives in small letters. -/
theorem ceiling_refused_and_name_changed :
    (validateReceivedConfig plainPlatform smallCeiling = true ∧
      codecsAgree smallCeiling = true ∧
      (settledChoice plainPlatform (textOf (stringOf smallCeiling .compressChoice))
        (numberOf smallCeiling .compressionAlgo)).isSome = true ∧
      stringOf smallCeiling .version = some protocolVersion ∧
      (∀ x ∈ protocolVersion::laterStrings noFiles smallCeiling, x.length ≤ maxStringSize) ∧
      charge (protocolVersion::laterStrings noFiles smallCeiling) ≤ maxConfigStringBytes ∧
      patternTotal (compiledRules noFiles smallCeiling) ≤ maxFilterBytes ∧
      basisOf smallCeiling = [] ∧
      (configSendWireBlock noFiles smallCeiling).isSome = true ∧
      (configReceive plainPlatform ((configSendWireBlock noFiles smallCeiling).getD [])
        startSession).isNone = true) ∧
    (configReceive plainPlatform ((configSendWireBlock noFiles namedNone).getD [])
      startSession).map (fun out => stringOf out.1 .compressChoice) =
        some (some (ascii "none")) := by
  decide +kernel

end Sample

end FastSync.ConfigRoundtrip
