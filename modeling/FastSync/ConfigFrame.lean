import FastSync.ConfigTable
import Mathlib.Data.List.DropRight

/-!
# Sending and receiving a configuration

Every kind of field has its codec. The sender emits the fields in the order of
the table; the receiver reads the version, then the other fields into a fresh
configuration, settles the codec's name and checks the result. What a count or a
presence flag has said steers the fields after it.
-/

set_option autoImplicit false

namespace FastSync.ConfigFrame
open DeletePaths (Bytes slash dot components hasPathTraversal)
open scoped DeletePaths
open LittleEndian ByteReader WireValues
open FilterSyntax ProtectBlock ConfigTable

def maxServerAlloc : UInt64 := 256*1024*1024
def maxSkipCompressSuffixes : ℤ := 256
def maxBasisDirs : ℤ := 64
def maxIdentityMap : ℤ := 128
def identityMatchAny : ℤ := -1
def identityMatchUnnamed : ℤ := -2
def identityCurrent : ℤ := -1

/-- The text of a string, where NULL counts as empty. -/
def textOf (v : Option Bytes) : Bytes := v.getD []

section Primitives

def sendInt32 (v : Int32) : Bytes := sendInt v.toInt

def receiveInt32 : Reader Session Int32 := do
  let v ← receiveInt
  pure (Int32.ofInt v)

/-- An integer that is published only when it passes its check. -/
def receiveChecked (p : Int32 → Prop) [DecidablePred p] : Reader Session Int32 := do
  let v ← receiveInt32
  check (p v)
  pure v

def sendU64 (v : UInt64) : Bytes := encode 8 v.toNat

def receiveU64 : Reader Session UInt64 := do
  let v ← word 8
  pure (UInt64.ofNat v)

def sendU32 (v : UInt32) : Bytes := encode 4 v.toNat

def receiveU32 : Reader Session UInt32 := do
  let v ← word 4
  pure (UInt32.ofNat v)

end Primitives

section Names

def daemonMaxModuleName : ℕ := 200

def daemonModuleNameValid (name : Bytes) : Bool :=
  decide (name ≠ [] ∧ name.length ≤ daemonMaxModuleName) && name.all fun c => decide
    (97 ≤ c ∧ c ≤ 122 ∨ 65 ≤ c ∧ c ≤ 90 ∨ 48 ≤ c ∧ c ≤ 57 ∨ c = 46 ∨ c = 95 ∨ c = 45)

def credentialMaxUserLen : ℕ := 256

def credentialsUsernameValid (user : Bytes) : Bool :=
  decide (user ≠ [] ∧ user.length ≤ credentialMaxUserLen) &&
    user.all fun c => decide (¬(c ≤ 32 ∨ c = 127))

def basisPathNormalize (path : Bytes) : Option Bytes :=
  if path = [] ∨ hasPathTraversal path ∨ path = [dot] ∨ path = [slash] then none
  else
    let absolute := decide (path.head? = some slash)
    let parts := (components path).filter fun part => decide (part ≠ [])
    if [dot,dot] ∈ parts then none
    else
      let out := (parts.filter fun part => decide (part ≠ [dot])).foldl
        (fun out part =>
          if out ≠ [] ∧ out.getLast? ≠ some slash then out++slash::part else out++part)
        (if absolute then [slash] else [])
      if out = [] ∨ absolute = true ∧ out.length = 1 then none else some out

def lower (c : UInt8) : UInt8 := if 65 ≤ c ∧ c ≤ 90 then c+32 else c

def sameIgnoringCase (a b : Bytes) : Bool := decide (a.map lower = b.map lower)

def compressionAlgoFromName (name : Bytes) : ℤ :=
  if sameIgnoringCase name (ascii "zstd") then 1
  else if sameIgnoringCase name (ascii "lz4") then 2
  else if sameIgnoringCase name (ascii "zlib") then 3
  else if sameIgnoringCase name (ascii "zlibx") then 4
  else if sameIgnoringCase name (ascii "none") then 0
  else -1

def compressionAlgoName (algo : ℤ) : Bytes :=
  if algo = 0 then ascii "none"
  else if algo = 1 then ascii "zstd"
  else if algo = 2 then ascii "lz4"
  else if algo = 3 then ascii "zlib"
  else if algo = 4 then ascii "zlibx"
  else ascii "<unknown>"

def checksumAlgoValid (algo : Int32) : Prop := 0 ≤ algo.toInt ∧ algo.toInt ≤ 6

def compressionAlgoValid (algo : Int32) : Prop := 0 ≤ algo.toInt ∧ algo.toInt ≤ 4

instance : DecidablePred checksumAlgoValid := fun _ => inferInstanceAs (Decidable (_ ∧ _))

instance : DecidablePred compressionAlgoValid := fun _ => inferInstanceAs (Decidable (_ ∧ _))

end Names

section Codes

def superModeCode : SuperMode → ℤ
  | .auto => 0
  | .on => 1
  | .off => 2

def basisCode : BasisDestType → ℤ
  | .none => 0
  | .compare => 1
  | .copy => 2
  | .link => 3

end Codes

section Receive

/-- A ceiling of 0 or above the server's is the server's; it holds from here on. -/
def effectiveMaxAlloc (v : UInt64) : UInt64 :=
  if v = 0 ∨ v > maxServerAlloc then maxServerAlloc else v

def configReceiveMaxAlloc : Reader Session UInt64 := do
  let v ← receiveU64
  update fun s => some {s with maxAlloc := (effectiveMaxAlloc v).toNat}
  pure (effectiveMaxAlloc v)

def orNull (text : Bytes) : Option Bytes := if text = [] then none else some text

def configReceiveOptionalStr : Reader Session (Option Bytes) := do
  let value ← configReceiveStr
  pure (orNull value)

def configReceiveKeptStr : Reader Session (Option Bytes) := do
  let value ← configReceiveStr
  pure (some value)

def configReceiveModule : Reader Session (Option Bytes) := do
  let module_ ← configReceiveStr
  check (module_ = [] ∨ daemonModuleNameValid module_ = true)
  pure (orNull module_)

def configSendAuthUser (user : Option Bytes) : Bytes :=
  if textOf user = [] then sendInt 0 else sendInt 1++sendStr (textOf user)

def configReceiveAuthUser : Reader Session (Option Bytes) := do
  let present ← receiveWireBool
  if present then do
    let user ← configReceiveStr
    check (credentialsUsernameValid user = true)
    pure (some user)
  else pure none

def configReceiveSuperMode : Reader Session SuperMode := do
  let mode ← receiveInt
  check (0 ≤ mode ∧ mode ≤ 2)
  pure (if mode = 0 then .auto else if mode = 1 then .on else .off)

def receiveStrs : ℕ → Reader Session (List Bytes)
  | 0 => pure []
  | count+1 => do
    let text ← configReceiveStr
    let texts ← receiveStrs count
    pure (text::texts)

def basisType (code : ℤ) : BasisDestType :=
  if code = 1 then .compare else if code = 2 then .copy else .link

def sendBasis (b : BasisDest) : Bytes := sendInt (basisCode b.type)++sendStr b.path

/-- One entry, with `index` entries appended before it. -/
def receiveBasis (index : ℕ) : Reader Session BasisDest := do
  let type ← receiveInt
  check (0 < type ∧ type ≤ 3)
  let path ← configReceiveStr
  check ((index:ℤ) < maxBasisDirs ∧ (basisPathNormalize path).isSome = true)
  pure ⟨basisType type,(basisPathNormalize path).getD []⟩

def receiveBasisEntries : ℕ → ℕ → Reader Session (List BasisDest)
  | 0, _ => pure []
  | count+1, index => do
    let entry ← receiveBasis index
    let entries ← receiveBasisEntries count (index+1)
    pure (entry::entries)

def sendIdentity (m : IdentityMap) : Bytes :=
  sendInt32 m.fromId++sendInt32 m.fromHi++sendInt32 m.toId++sendStr (textOf m.toName)

def receiveIdentity : Reader Session IdentityMap := do
  let fromId ← receiveInt32
  let fromHi ← receiveInt32
  let toId ← receiveInt32
  let name ← configReceiveStr
  pure ⟨fromId,fromHi,toId,orNull name⟩

def receiveIdentityEntries : ℕ → Reader Session (List IdentityMap)
  | 0 => pure []
  | count+1 => do
    let entry ← receiveIdentity
    let entries ← receiveIdentityEntries count
    pure (entry::entries)

end Receive

section Dispatch

/-- The number a count field holds; a block of at most 0 entries is empty. -/
def countValue : (k : Kind) → Value k → ℕ
  | .intSkipCount, v => (Int32.toInt v).toNat
  | .intBasisCount, v => (Int32.toInt v).toNat
  | .intIdmapCount, v => (Int32.toInt v).toNat
  | _, _ => 0

def countOf (c : Config) (m : Member) : ℕ := countValue (kindOf m) (c.member m)

def copyAsSet (c : Config) : Bool := c.member .copyAsSet

variable (files : Bytes → Option Bytes)

def sendValue (c : Config) : (k : Kind) → Value k → Option Bytes
  | .bool, v => some (sendBool v)
  | .bool8Bit, v => some (sendBool v)
  | .boolXattrDerive, v => some (sendBool v)
  | .derivedDelta, v => some (sendBool (Bool.and v (!c.wholeFile)))
  | .copyAsPresence, v => some (sendBool v)
  | .int, v => some (sendInt32 v)
  | .rawInt, v => some (sendInt32 v)
  | .rawU32, v => some (sendU32 v)
  | .rawU64, v => some (sendU64 v)
  | .rawMaxAlloc, v => some (sendU64 v)
  | .intChecksumAlgo, v => some (sendInt32 v)
  | .intCompressionAlgo, v => some (sendInt32 v)
  | .superMode, v => some (sendInt (superModeCode v))
  | .intIdentity, v => some (sendInt32 v)
  | .intSkipCount, v => some (sendInt32 v)
  | .intBasisCount, v => some (sendInt32 v)
  | .intIdmapCount, v => some (sendInt32 v)
  | .copyAsId, v => some (if copyAsSet c then sendInt32 v else [])
  | .str, v => Option.map sendStr v
  | .strOpt, v => some (sendStr (textOf v))
  | .strKeep, v => some (sendStr (textOf v))
  | .strModule, v => some (sendStr (textOf v))
  | .strRedactedAuth, v => some (configSendAuthUser v)
  | .blockSkipSuffixes, v => some ((List.take (countOf c .skipCompressCount) v).flatMap sendStr)
  | .blockBasis, v => some ((List.take (countOf c .basisCount) v).flatMap sendBasis)
  | .blockIdmap count, v => some ((List.take (countOf c count) v).flatMap sendIdentity)
  | .blockProtectRules, _ =>
    sendProtectEntries files c.filters c.cvsExclude (c.member .deleteExcluded)

/-- The value of a field, where `c` is what has been received and `v` the field
as it is there. -/
def receiveValue (c : Config) : (k : Kind) → Value k → Reader Session (Value k)
  | .bool, _ => receiveWireBool
  | .bool8Bit, _ => receiveWireBool
  | .boolXattrDerive, _ => receiveWireBool
  | .derivedDelta, _ => receiveWireBool
  | .copyAsPresence, _ => receiveWireBool
  | .int, _ => receiveInt32
  | .rawInt, _ => receiveInt32
  | .rawU32, _ => receiveU32
  | .rawU64, _ => receiveU64
  | .rawMaxAlloc, _ => configReceiveMaxAlloc
  | .intChecksumAlgo, _ => receiveChecked checksumAlgoValid
  | .intCompressionAlgo, _ => receiveChecked compressionAlgoValid
  | .superMode, _ => configReceiveSuperMode
  | .intIdentity, _ => receiveChecked fun v => identityMatchAny ≤ v.toInt
  | .intSkipCount, _ => receiveChecked fun v => 0 ≤ v.toInt ∧ v.toInt ≤ maxSkipCompressSuffixes
  | .intBasisCount, _ => receiveChecked fun v => 0 ≤ v.toInt ∧ v.toInt ≤ maxBasisDirs
  | .intIdmapCount, _ => receiveChecked fun v => 0 ≤ v.toInt ∧ v.toInt ≤ maxIdentityMap
  | .copyAsId, v => if copyAsSet c then receiveChecked fun v => 0 ≤ v.toInt else pure v
  | .str, _ => configReceiveKeptStr
  | .strOpt, _ => configReceiveOptionalStr
  | .strKeep, _ => configReceiveKeptStr
  | .strModule, _ => configReceiveModule
  | .strRedactedAuth, _ => configReceiveAuthUser
  | .blockSkipSuffixes, _ => receiveStrs (countOf c .skipCompressCount)
  | .blockBasis, _ => receiveBasisEntries (countOf c .basisCount) 0
  | .blockIdmap count, _ => receiveIdentityEntries (countOf c count)
  | .blockProtectRules, _ => receiveProtectEntries

def sendFields (c : Config) : List Member → Option Bytes
  | [] => some []
  | m::ms =>
    match sendValue files c (kindOf m) (c.member m), sendFields c ms with
    | some bytes, some rest => some (bytes++rest)
    | _, _ => none

def configSendWireBlock (c : Config) : Option Bytes := sendFields files c configWireFields

/-- With the last field of its segment the use of extended attributes is derived. -/
def storeMember (c : Config) (m : Member) (v : Value (kindOf m)) : Config :=
  {c with
    member := Function.update c.member m v
    useXattrs := if kindOf m = .boolXattrDerive
      then Bool.or (c.member .preserveAcls) (c.member .preserveXattrs) else c.useXattrs}

def receiveFields : List Member → Config → Reader Session Config
  | [], c => pure c
  | m::ms, c => do
    let v ← receiveValue c (kindOf m) (c.member m)
    receiveFields ms (storeMember c m v)

end Dispatch

section Access

def flagValue : (k : Kind) → Value k → Bool
  | .bool, v => v
  | .bool8Bit, v => v
  | .boolXattrDerive, v => v
  | .derivedDelta, v => v
  | .copyAsPresence, v => v
  | _, _ => false

def flagOf (c : Config) (m : Member) : Bool := flagValue (kindOf m) (c.member m)

def numberValue : (k : Kind) → Value k → ℤ
  | .int, v => Int32.toInt v
  | .rawInt, v => Int32.toInt v
  | .rawU32, v => (UInt32.toNat v:ℕ)
  | .rawU64, v => (UInt64.toNat v:ℕ)
  | .rawMaxAlloc, v => (UInt64.toNat v:ℕ)
  | .intChecksumAlgo, v => Int32.toInt v
  | .intCompressionAlgo, v => Int32.toInt v
  | .intIdentity, v => Int32.toInt v
  | .intSkipCount, v => Int32.toInt v
  | .intBasisCount, v => Int32.toInt v
  | .intIdmapCount, v => Int32.toInt v
  | .copyAsId, v => Int32.toInt v
  | _, _ => 0

def numberOf (c : Config) (m : Member) : ℤ := numberValue (kindOf m) (c.member m)

def stringOf (c : Config) (m : Member) : Option Bytes :=
  match kindOf m, c.member m with
  | .str, v => v
  | .strOpt, v => v
  | .strKeep, v => v
  | .strModule, v => v
  | .strRedactedAuth, v => v
  | _, _ => none

def usermapOf (c : Config) : List IdentityMap := c.member .usermap

def groupmapOf (c : Config) : List IdentityMap := c.member .groupmap

end Access

section Validate

/-- What the checks ask of the machine: the codec that is negotiated by default,
and which charset and mode specifications it understands. -/
structure Platform where
  negotiatedCodec : ℤ
  charsetSpecValid : Bytes → Bool
  chmodSpecValid : Bytes → Bool

def configHasValidDeleteTiming (c : Config) : Bool :=
  let timings := [flagOf c .deleteBefore,flagOf c .deleteDuring,flagOf c .deleteDelay,
    flagOf c .deleteAfter]
  if flagOf c .useDelete then decide (timings.count true ≤ 1) else decide (timings.count true = 0)

def delayUpdatesStagingNameConflict (dir : Bytes) : Bool :=
  decide (dir ≠ [] ∧ dir.rdropWhile (fun b => decide (b = slash)) = ascii ".fastsync-stage")

def iconvAccepted (platform : Platform) : Option Bytes → Bool
  | none => true
  | some spec => platform.charsetSpecValid spec

def configInvariants (platform : Platform) (c : Config) : Bool :=
  !(decide (numberOf c .basisCount > 0) && flagOf c .useChunkSerialization) &&
  !(flagOf c .useSendfile && (flagOf c .useChunkSerialization || flagOf c .useCompression)) &&
  !(flagOf c .useIncremental && flagOf c .useChunkSerialization) &&
  !(flagOf c .skipCompressSet && flagOf c .useChunkSerialization) &&
  !(flagOf c .useDelta && !c.wholeFile && !flagOf c .useIncremental) &&
  !(flagOf c .useDelta && !c.wholeFile && flagOf c .useChunkSerialization) &&
  !(flagOf c .useDelta && !c.wholeFile && flagOf c .useSendfile) &&
  !((flagOf c .append || flagOf c .appendVerify) && flagOf c .useChunkSerialization) &&
  !((flagOf c .append || flagOf c .appendVerify) && c.wholeFile) &&
  !(flagOf c .preserveHardLinks && flagOf c .useChunkSerialization) &&
  !((flagOf c .preserveXattrs || flagOf c .preserveAcls) && flagOf c .useChunkSerialization) &&
  !(flagOf c .preserveHardLinks && (flagOf c .append || flagOf c .appendVerify)) &&
  !(flagOf c .delayUpdates && flagOf c .inplace) &&
  !(flagOf c .delayUpdates && delayUpdatesStagingNameConflict (textOf (stringOf c .backupDir))) &&
  configHasValidDeleteTiming c &&
  iconvAccepted platform (stringOf c .iconvSpec) &&
  !((flagOf c .preservePerms || flagOf c .preserveTimes || flagOf c .preserveOwner ||
    flagOf c .preserveGroup || flagOf c .preserveAtimes || flagOf c .preserveCrtimes ||
    flagOf c .useExecutability) && !flagOf c .useMetadata) &&
  !(flagOf c .copyAsSet && !flagOf c .useMetadata)

def identityWireMapValid (m : IdentityMap) : Bool :=
  decide (identityMatchUnnamed ≤ m.fromId.toInt ∧
    (if m.fromId.toInt < 0 then m.fromHi = m.fromId else m.fromId.toInt ≤ m.fromHi.toInt) ∧
    identityCurrent ≤ m.toId.toInt ∧ (textOf m.toName).length ≤ 255)

def identityWireValid (c : Config) : Bool :=
  decide (0 ≤ numberOf c .usermapCount ∧ numberOf c .usermapCount ≤ maxIdentityMap ∧
    0 ≤ numberOf c .groupmapCount ∧ numberOf c .groupmapCount ≤ maxIdentityMap) &&
  !(flagOf c .chownUidSet && decide (numberOf c .chownUid < identityMatchAny)) &&
  !(flagOf c .chownGidSet && decide (numberOf c .chownGid < identityMatchAny)) &&
  ((usermapOf c).take (countOf c .usermapCount)).all identityWireMapValid &&
  ((groupmapOf c).take (countOf c .groupmapCount)).all identityWireMapValid &&
  !(flagOf c .copyAsSet && decide (numberOf c .copyAsUid < 0 ∨ numberOf c .copyAsGid < 0))

def maxChunkSize : ℤ := 64*1024*1024
def deltaBlockSizeMin : ℤ := 1024
def deltaBlockSizeMax : ℤ := 65536

/-- A flag of the frame is a `Bool` here, so the tests of its range are left out. -/
def validateReceivedConfig (platform : Platform) (c : Config) : Bool :=
  configInvariants platform c &&
  decide (0 ≤ numberOf c .checksumAlgo ∧ numberOf c .checksumAlgo ≤ 6) &&
  decide (0 ≤ numberOf c .compressionAlgo ∧ numberOf c .compressionAlgo ≤ 4) &&
  identityWireValid c &&
  !(flagOf c .copyAsSet && decide (numberOf c .copyAsUid < 0 ∨ numberOf c .copyAsGid < 0)) &&
  !(flagOf c .useCompression &&
    decide (¬(1 ≤ numberOf c .compressionLevel ∧ numberOf c .compressionLevel ≤ 22))) &&
  decide (0 < numberOf c .chunkSize ∧ numberOf c .chunkSize ≤ maxChunkSize ∧
    deltaBlockSizeMin ≤ numberOf c .deltaBlockSize ∧
    numberOf c .deltaBlockSize ≤ deltaBlockSizeMax ∧
    numberOf c .deltaMaxFileSize ≤ deltaMaxFileSize.toNat ∧ 0 ≤ numberOf c .modifyWindow ∧
    -1 ≤ numberOf c .maxDelete ∧ numberOf c .maxAlloc ≤ maxServerAlloc.toNat ∧
    0 ≤ numberOf c .skipCompressCount ∧
    numberOf c .skipCompressCount ≤ maxSkipCompressSuffixes) &&
  (textOf (stringOf c .chmodSpec) = [] || platform.chmodSpecValid (textOf (stringOf c .chmodSpec)))

/-- The name under which the codec is kept, none if name and codec disagree. -/
def settledChoice (platform : Platform) (choice : Bytes) (algo : ℤ) : Option Bytes :=
  if choice = [] then some choice
  else
    let named := compressionAlgoFromName choice
    let auto := sameIgnoringCase choice (ascii "auto")
    if named < 0 ∧ auto = false then none
    else
      let chosen := if named < 0 then platform.negotiatedCodec else named
      if algo ≠ chosen then none
      else some (if auto = true ∨ chosen = 0 then compressionAlgoName chosen else choice)

def codecsAgree (c : Config) : Bool :=
  !(flagOf c .useCompression && decide (numberOf c .compressionAlgo = 0)) &&
  !(flagOf c .checksum && decide (numberOf c .checksumAlgo = 6))

def settleConfig (platform : Platform) (c : Config) : Option Config :=
  match settledChoice platform (textOf (stringOf c .compressChoice))
      (numberOf c .compressionAlgo) with
  | none => none
  | some choice =>
    let c := storeMember c .compressChoice (some choice)
    if codecsAgree c && validateReceivedConfig platform c then some c else none

def configReceive (platform : Platform) : Reader Session Config := do
  let version ← configReceiveStr
  check (version = protocolVersion)
  let c ← receiveFields configWireFields.tail (storeMember configCreate .version (some version))
  check ((settleConfig platform c).isSome = true)
  pure ((settleConfig platform c).getD c)

end Validate

end FastSync.ConfigFrame
