import Mathlib.Data.Rat.Defs
import ZenFs.Model.State

/-!
The zoned block device as the placement of files sees it: its parameters, its zones,
and the two halves of a `ZoneFile`, the body that says where its data is and the
information by which a policy chooses a zone.

Zones are numbered, the IO zones first and then the metadata zones.
-/

namespace ZenFs.Device

inductive EmptyZoneAlloc
  | default | sequential | random | leastWear | hotnessBased | userDefined
  deriving DecidableEq, Repr

inductive Policy
  | lifetimeBased | leveledLifetimeBased | caza | sameLevelNearbyKeys
  | sameLevelNearbyKeysSimple | arrivalTimeBased | tombstoneDensity | tombstoneTTL
  | clusterTogether | overlapChildren | overlapGrandchildren | compensatedSize | oaza
  | userDefined
  deriving DecidableEq, Repr

/-- The parameters of `ZenfsParamContainer` that allocation reads and nothing writes. -/
structure Params where
  nearestNewzoneThreshold : ℚ
  emptyZoneAllocator : EmptyZoneAlloc
  realCaza : Bool
  realOaza : Bool
  minBoundary : ℕ
  maxBoundary : ℕ
  tombstoneDensity : ℚ
  upperLevelPolicy : Policy
  upperLevelPolicyFallback : Policy
  lowerLevelPolicy : Policy
  lowerLevelPolicyFallback : Policy
  middleLevelPolicy : Policy
  middleLevelPolicyFallback : Policy
  fragmentationEnabled : Bool
  reserveZoneCount : ℕ
  deriving DecidableEq

namespace Params

variable (p : Params)

/-- What `LoadParamsFromFile` leaves in the container whatever the file says. -/
structure Accepted : Prop where
  threshold : 0 ≤ p.nearestNewzoneThreshold ∧ p.nearestNewzoneThreshold ≤ 1
  density : 0 ≤ p.tombstoneDensity ∧ p.tombstoneDensity ≤ 1
  minBoundary_lt : p.minBoundary < 100
  boundaries : p.minBoundary < p.maxBoundary ∧ p.maxBoundary ≤ 100
  reserve_lt : p.reserveZoneCount < 100

def getPolicy (level : ℤ) : Policy :=
  if level < 0 then .lifetimeBased
  else if level ≤ p.minBoundary then p.upperLevelPolicy
  else if level ≥ p.maxBoundary then p.lowerLevelPolicy
  else p.middleLevelPolicy

def getSecondaryPolicy (level : ℤ) : Policy :=
  if level < 0 then .lifetimeBased
  else if level ≤ p.minBoundary then p.upperLevelPolicyFallback
  else if level ≥ p.maxBoundary then p.lowerLevelPolicyFallback
  else p.middleLevelPolicyFallback

end Params

/-- `rep_` of an `InternalKey`; a key that was never set is empty. -/
abbrev Key := List UInt8

/-- The answer of the backend to a call: whether it succeeds, how much a write that
fails stored before it failed, and what a reset reports of the zone. -/
structure Answer where
  status : Status
  stored : ℕ
  offline : Bool
  maxCapacity : ℕ
  deriving DecidableEq, Repr

/-- The bytes of the records that a roll of the metadata log writes. -/
structure RollRecords where
  endRecord : List UInt8
  superblock : List UInt8
  snapshot : List UInt8

/-- What a device is opened with, and the answers it takes from outside: comparators, the
backend, the random engine, and of the file system the bytes of its metadata records and
whether a name still leads to a file. -/
structure Setup extends Geometry, Params where
  finishThreshold : ℕ
  maxNrActiveIoZones : ℕ
  maxNrOpenIoZones : ℕ
  /-- `sstableKeyCompare` with the user comparator. -/
  sstableKeyCompare : Key → Key → ℤ
  /-- `icmp->Compare`. -/
  internalCompare : Key → Key → ℤ
  backend : ℕ → Answer
  shuffle : ℕ → List ℕ → List ℕ
  shuffle_perm : ∀ n l, (shuffle n l).Perm l
  record : ℕ → List UInt8
  roll : ℕ → RollRecords
  nameGone : ℕ → Bool

def nrMetaZones : ℕ := 3

namespace Setup

variable (e : Setup)

def ioZones : List ℕ := List.range e.nrZones

def metaZones : List ℕ := List.range' e.nrZones nrMetaZones

/-- The limit `WaitForOpenIOZoneToken` computes in an `unsigned int`. -/
def allocatorOpenLimit (prioritized : Bool) : ℕ :=
  if prioritized then e.maxNrOpenIoZones else (e.maxNrOpenIoZones + (2 ^ 32 - 1)) % 2 ^ 32

end Setup

structure Zone extends ZenFs.Zone where
  maxCapacity : ℕ
  usedCapacity : ℕ
  resetCount : ℕ
  policy : Policy
  deriving DecidableEq, Repr

namespace Zone

variable (z : Zone)

def isUsed : Bool := z.usedCapacity > 0

def isFull : Bool := z.capacity = 0

def isEmpty (start : ℕ) : Bool := z.wp = start

/-- The test all policies make: the zone has data and room for `minCapacity` bytes. -/
def eligible (minCapacity : ℕ) : Bool :=
  z.usedCapacity > 0 && !z.isFull && z.capacity ≥ minCapacity

end Zone

/-- What a `ZoneFile` carries for the placement policies. -/
structure FileInfo where
  level : ℤ
  lifetime : Lifetime
  ioType : IOType
  smallest : Key
  largest : Key
  hasKeys : Bool
  isRecorded : Bool
  isDeleted : Bool
  numEntries : ℕ
  numDeletions : ℕ
  numRangeDeletions : ℕ
  fileSizeMeta : ℕ
  compensatedFileSize : ℕ
  compensatedRangeDeletionSize : ℕ
  rank : ℕ
  allocSize : ℕ
  deriving DecidableEq, Repr

def FileInfo.new : FileInfo where
  level := -1
  lifetime := .notSet
  ioType := .unknown
  smallest := []
  largest := []
  hasKeys := false
  isRecorded := false
  isDeleted := false
  numEntries := 0
  numDeletions := 0
  numRangeDeletions := 0
  fileSizeMeta := 0
  compensatedFileSize := 0
  compensatedRangeDeletionSize := 0
  rank := 100000
  allocSize := 0

/-- What a `ZoneFile` carries of its data. `extentStart` is `none` for `NO_EXTENT`. -/
structure FileBody where
  extents : List ZoneExtent
  activeZone : Option ℕ
  extentStart : Option ℕ
  extentFilepos : ℕ
  fileSize : ℕ
  isSparse : Bool
  deriving DecidableEq, Repr

def FileBody.new : FileBody where
  extents := []
  activeZone := none
  extentStart := none
  extentFilepos := 0
  fileSize := 0
  isSparse := false

structure Placement where
  info : Handle → FileInfo
  /-- `levelwise_file_list_`. -/
  lists : List (List Handle)
  maxLevel : ℕ
  averageValueSize : ℕ

inductive Mutex
  | alloc | levelwiseFiles | migrateZone | metadataSync | files
  deriving DecidableEq, Repr

/-- Who can hold a zone: a thread in the middle of a call, a file, whose active zone it
is, or a log object, which keeps the zone it writes to. -/
inductive Holder
  | thread (i : ℕ)
  | file (h : Handle)
  | log (n : ℕ)
  deriving DecidableEq, Repr

structure MetaLogObject where
  serial : ℕ
  zone : ℕ
  deriving DecidableEq, Repr

/-- `ZonedBlockDevice`, the files on it and the log object in use. The fields `holders` and
`closing` are not part of the source: they note who acquired or was handed each zone and
has not released it, and how many calls of `CloseWR` gave up the writer lock of a file and
have not returned. -/
structure Zbd where
  zones : ℕ → Zone
  dev : ℕ → UInt8
  bodies : Handle → FileBody
  place : Placement
  openIoZones : ℤ
  activeIoZones : ℤ
  migrating : Bool
  deferredStatus : Status
  /-- The static `zone_pos` of `AllocateEmptyZoneSequential`. -/
  zonePos : ℕ
  shuffles : ℕ
  backendCalls : ℕ
  locked : Mutex → Bool
  wrLocked : Handle → Bool
  /-- The object was made by `OpenWritableFile`. -/
  created : Handle → Bool
  /-- The number of names `files_` has for the file. -/
  links : Handle → ℕ
  /-- The threads that have a `shared_ptr` to the file. -/
  pins : Handle → List ℕ
  metaLog : MetaLogObject
  holders : ℕ → List Holder
  closing : Handle → ℕ

end ZenFs.Device
