import FastSync.ProtectBlock

/-!
# The fields of a configuration frame

The members that cross the wire are one table: each has a kind, the kind gives
the type of its values, and the table's order is the order in the frame.
`keepPartial` and `moduleName` stand for the members `partial` and `module`.
-/

set_option autoImplicit false

namespace FastSync.ConfigTable
open DeletePaths (Bytes)
open FilterSyntax (ascii FilterRule)

inductive Member where
  | version | eightBitOutput | maxAlloc | sendDirectory | receiveRootDirectory | saveToDisk
  | useMultithreading | useChunkSerialization | useCompression | useMetadata | useExecutability
  | compressionLevel | chunkSize | useSendfile | dryRun | useDelete | useIncremental | sizeOnly
  | ignoreTimes | useDelta | deltaBlockSize | deltaMaxFileSize | backup | backupDir
  | removeSourceFiles | followSymlinks | copyLinks | safeLinks | copyUnsafeLinks
  | preserveHardLinks | preserveAcls | preserveXattrs | preserveDevices | preserveSparse
  | preserveSpecials | copyDevices | writeDevices | ignoreExisting | existing | update | inplace
  | delayUpdates | append | useFsync | appendVerify | deleteExcluded | forceDelete
  | deleteMissingArgs | deleteAfter | preallocate | maxDelete | relative | pruneEmptyDirs
  | mkpath | deleteDuring | deleteDelay | tempDir | keepPartial | partialDir | suffix
  | deleteBefore | checksum | modifyWindow | compressChoice | chmodSpec | skipCompressSet
  | skipCompressCount | skipCompressSuffixes | basisCount | basisDirs | verifyBasis | fuzzy
  | checksumAlgo | checksumSeed | numericIds | chownUidSet | chownUid | chownGidSet | chownGid
  | usermapCount | usermap | groupmapCount | groupmap | preserveAtimes | preserveCrtimes
  | omitDirTimes | omitLinkTimes | preservePerms | preserveTimes | preserveOwner | preserveGroup
  | mungeLinks | keepDirlinks | fakeSuper | moduleName | authUser | iconvSpec | superMode | copyAsSet
  | copyAsUid | copyAsGid | reportDestInfo | reportStats | reportDeletes | compressionAlgo
  | protectRules
deriving DecidableEq, Repr

inductive Kind where
  | bool | bool8Bit | boolXattrDerive | derivedDelta | copyAsPresence
  | int | rawInt | rawU32 | rawU64 | rawMaxAlloc
  | intChecksumAlgo | intCompressionAlgo | superMode | intIdentity
  | intSkipCount | intBasisCount | intIdmapCount | copyAsId
  | str | strOpt | strKeep | strModule | strRedactedAuth
  | blockSkipSuffixes | blockBasis | blockIdmap (count : Member) | blockProtectRules
deriving DecidableEq, Repr

def kindOf : Member → Kind
  | .version => .str
  | .sendDirectory => .str
  | .receiveRootDirectory => .str
  | .eightBitOutput => .bool8Bit
  | .maxAlloc => .rawMaxAlloc
  | .compressionLevel => .int
  | .chunkSize => .rawU64
  | .deltaMaxFileSize => .rawU64
  | .checksumSeed => .rawU64
  | .useDelta => .derivedDelta
  | .deltaBlockSize => .rawU32
  | .backupDir => .strOpt
  | .tempDir => .strOpt
  | .partialDir => .strOpt
  | .suffix => .strOpt
  | .iconvSpec => .strOpt
  | .maxDelete => .rawInt
  | .modifyWindow => .rawInt
  | .compressChoice => .strKeep
  | .chmodSpec => .strKeep
  | .skipCompressCount => .intSkipCount
  | .skipCompressSuffixes => .blockSkipSuffixes
  | .basisCount => .intBasisCount
  | .basisDirs => .blockBasis
  | .checksumAlgo => .intChecksumAlgo
  | .chownUid => .intIdentity
  | .chownGid => .intIdentity
  | .usermapCount => .intIdmapCount
  | .groupmapCount => .intIdmapCount
  | .usermap => .blockIdmap .usermapCount
  | .groupmap => .blockIdmap .groupmapCount
  | .fakeSuper => .boolXattrDerive
  | .moduleName => .strModule
  | .authUser => .strRedactedAuth
  | .superMode => .superMode
  | .copyAsSet => .copyAsPresence
  | .copyAsUid => .copyAsId
  | .copyAsGid => .copyAsId
  | .compressionAlgo => .intCompressionAlgo
  | .protectRules => .blockProtectRules
  | _ => .bool

inductive SuperMode where
  | auto | on | off
deriving DecidableEq, Repr

inductive BasisDestType where
  | none | compare | copy | link
deriving DecidableEq, Repr

structure BasisDest where
  type : BasisDestType
  path : Bytes
deriving DecidableEq, Repr

structure IdentityMap where
  fromId : Int32
  fromHi : Int32
  toId : Int32
  toName : Option Bytes
deriving DecidableEq

/-- The values of a kind; `none` is a NULL pointer. -/
def Value : Kind → Type
  | .bool => Bool
  | .bool8Bit => Bool
  | .boolXattrDerive => Bool
  | .derivedDelta => Bool
  | .copyAsPresence => Bool
  | .int => Int32
  | .rawInt => Int32
  | .rawU32 => UInt32
  | .rawU64 => UInt64
  | .rawMaxAlloc => UInt64
  | .intChecksumAlgo => Int32
  | .intCompressionAlgo => Int32
  | .superMode => SuperMode
  | .intIdentity => Int32
  | .intSkipCount => Int32
  | .intBasisCount => Int32
  | .intIdmapCount => Int32
  | .copyAsId => Int32
  | .str => Option Bytes
  | .strOpt => Option Bytes
  | .strKeep => Option Bytes
  | .strModule => Option Bytes
  | .strRedactedAuth => Option Bytes
  | .blockSkipSuffixes => List Bytes
  | .blockBasis => List BasisDest
  | .blockIdmap _ => List IdentityMap
  | .blockProtectRules => Option (List FilterRule)

section Fields

def headerFields : List Member := [.version]

def coreFields : List Member :=
  [.eightBitOutput,.maxAlloc,.sendDirectory,.receiveRootDirectory,.saveToDisk,
    .useMultithreading,.useChunkSerialization,.useCompression,.useMetadata,.useExecutability,
    .compressionLevel,.chunkSize,.useSendfile,.dryRun]

def deltaFields : List Member :=
  [.useDelete,.useIncremental,.sizeOnly,.ignoreTimes,.useDelta,.deltaBlockSize,
    .deltaMaxFileSize]

def fileOptionsFields : List Member :=
  [.backup,.backupDir,.removeSourceFiles,.followSymlinks,.copyLinks,.safeLinks,.copyUnsafeLinks,
    .preserveHardLinks,.preserveAcls,.preserveXattrs,.preserveDevices,.preserveSparse,
    .preserveSpecials,.copyDevices,.writeDevices]

def selectionFields : List Member :=
  [.ignoreExisting,.existing,.update,.inplace,.delayUpdates,.append,.useFsync,.appendVerify,
    .deleteExcluded,.forceDelete,.deleteMissingArgs,.deleteAfter,.preallocate,.maxDelete,
    .relative,.pruneEmptyDirs,.mkpath,.deleteDuring,.deleteDelay]

def resumeFields : List Member :=
  [.tempDir,.keepPartial,.partialDir,.suffix,.deleteBefore,.checksum,.modifyWindow,
    .compressChoice,.chmodSpec,.skipCompressSet,.skipCompressCount,.skipCompressSuffixes]

def basisFields : List Member := [.basisCount,.basisDirs,.verifyBasis]

def fuzzyFields : List Member := [.fuzzy]

def checksumFields : List Member := [.checksumAlgo,.checksumSeed]

def identityFields : List Member :=
  [.numericIds,.chownUidSet,.chownUid,.chownGidSet,.chownGid,.usermapCount,.usermap,
    .groupmapCount,.groupmap]

def metadataTimesFields : List Member :=
  [.preserveAtimes,.preserveCrtimes,.omitDirTimes,.omitLinkTimes,.preservePerms,.preserveTimes,
    .preserveOwner,.preserveGroup]

def symlinkTrustFields : List Member := [.mungeLinks,.keepDirlinks]

def xattrFields : List Member := [.fakeSuper]

def moduleFields : List Member := [.moduleName]

def daemonAuthFields : List Member := [.authUser]

def iconvFields : List Member := [.iconvSpec]

def privilegeFields : List Member := [.superMode]

def copyAsFields : List Member := [.copyAsSet,.copyAsUid,.copyAsGid]

def outputFields : List Member := [.reportDestInfo,.reportStats,.reportDeletes]

def codecFields : List Member := [.compressionAlgo]

def protectFields : List Member := [.protectRules]

def configWireFields : List Member :=
  headerFields++coreFields++deltaFields++fileOptionsFields++selectionFields++
    resumeFields++basisFields++fuzzyFields++checksumFields++identityFields++
    metadataTimesFields++symlinkTrustFields++xattrFields++moduleFields++daemonAuthFields++
    iconvFields++privilegeFields++copyAsFields++outputFields++codecFields++protectFields

theorem member_listed {m : Member} : m ∈ configWireFields := by
  cases m <;> decide

end Fields

/-- A configuration: the members of the frame, and what the frame is made from
or what is derived from it. -/
structure Config where
  member : (m : Member) → Value (kindOf m)
  wholeFile : Bool
  useXattrs : Bool
  filters : List Bytes
  cvsExclude : Bool

def protocolVersion : Bytes := ascii "2.29.0"
def defaultMaxAlloc : UInt64 := 1024*1024*1024
def defaultChunkSize : UInt64 := 10*1024*1024
def deltaBlockSizeDefault : UInt32 := 8192
def deltaMaxFileSize : UInt64 := 256*1024*1024
def checksumAlgoDefault : Int32 := 3
def compressionAlgoZstd : Int32 := 1

def zeroValue : (k : Kind) → Value k
  | .bool => false
  | .bool8Bit => false
  | .boolXattrDerive => false
  | .derivedDelta => false
  | .copyAsPresence => false
  | .int => (0:Int32)
  | .rawInt => (0:Int32)
  | .rawU32 => (0:UInt32)
  | .rawU64 => (0:UInt64)
  | .rawMaxAlloc => (0:UInt64)
  | .intChecksumAlgo => (0:Int32)
  | .intCompressionAlgo => (0:Int32)
  | .superMode => SuperMode.auto
  | .intIdentity => (0:Int32)
  | .intSkipCount => (0:Int32)
  | .intBasisCount => (0:Int32)
  | .intIdmapCount => (0:Int32)
  | .copyAsId => (0:Int32)
  | .str => (none:Option Bytes)
  | .strOpt => (none:Option Bytes)
  | .strKeep => (none:Option Bytes)
  | .strModule => (none:Option Bytes)
  | .strRedactedAuth => (none:Option Bytes)
  | .blockSkipSuffixes => ([]:List Bytes)
  | .blockBasis => ([]:List BasisDest)
  | .blockIdmap _ => ([]:List IdentityMap)
  | .blockProtectRules => (none:Option (List FilterRule))

def defaultMember : (m : Member) → Value (kindOf m)
  | .version => some protocolVersion
  | .maxAlloc => defaultMaxAlloc
  | .compressionLevel => (5:Int32)
  | .chunkSize => defaultChunkSize
  | .deltaBlockSize => deltaBlockSizeDefault
  | .deltaMaxFileSize => deltaMaxFileSize
  | .maxDelete => (-1:Int32)
  | .checksumAlgo => checksumAlgoDefault
  | .compressionAlgo => compressionAlgoZstd
  | m => zeroValue (kindOf m)

def configCreate : Config := ⟨defaultMember,false,false,[],false⟩

end FastSync.ConfigTable
