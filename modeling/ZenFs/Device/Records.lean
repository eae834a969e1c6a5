import ZenFs.Device.Types

/-!
The per-level lists of files and what the placement policies compute from them.

`levelwise_file_list_` is changed by `AddZoneFileRecordNoLock` and
`RemoveZoneFileRecordNoLock` only. Ranks are stored in the files, so ranking a level
changes their information too.
-/

namespace ZenFs.Device

variable {g : Handle} {level : ℤ}

def u64 (n : ℕ) : ℕ := n % 2 ^ 64

def u64Sub (a b : ℕ) : ℕ := (a + (2 ^ 64 - b % 2 ^ 64)) % 2 ^ 64

def u32Sub (a b : ℕ) : ℕ := (a + (2 ^ 32 - b % 2 ^ 32)) % 2 ^ 32

namespace FileInfo

variable (f : FileInfo)

/-- The tests of `AddZoneFileRecordNoLock` and `GetBestOpenZoneMatch`: an SST file whose
level and keys are known. -/
def listed : Bool := f.hasKeys && f.level ≥ 0 && f.ioType = .data

def updateInternalKeys (key : Key) : FileInfo :=
  { f with
    smallest := if f.smallest.isEmpty then key else f.smallest
    largest := key
    hasKeys := true }

def updateInternalKeysRange (e : Setup) (start stop : Key) : FileInfo :=
  { f with
    smallest :=
      if f.smallest.isEmpty || e.internalCompare start f.smallest < 0 then start
      else f.smallest
    largest :=
      if f.largest.isEmpty || e.internalCompare f.largest stop < 0 then stop else f.largest
    hasKeys := true }

/-- `ZoneFile::UpdateMetadata`; the variant with table properties reports no compensated
size. -/
def updateMetadata (numEntries numDeletions numRangeDeletions fileSize
    compensatedRangeDeletionSize : ℕ) : FileInfo :=
  { f with
    numEntries := max f.numEntries numEntries
    numDeletions := max f.numDeletions numDeletions
    numRangeDeletions := max f.numRangeDeletions numRangeDeletions
    fileSizeMeta := max f.fileSizeMeta fileSize
    compensatedRangeDeletionSize :=
      max f.compensatedRangeDeletionSize compensatedRangeDeletionSize }

def computeCompensatedSize (averageValueSize fileSize : ℕ) : FileInfo :=
  let size := max (max f.fileSizeMeta fileSize) f.allocSize
  let deleted := u64 (u64Sub f.numDeletions f.numRangeDeletions * 2)
  let extra :=
    if deleted ≥ f.numEntries then
      u64 (u64Sub deleted f.numEntries * averageValueSize * 2)
    else 0
  { f with
    fileSizeMeta := size
    compensatedFileSize := u64 (size + extra + f.compensatedRangeDeletionSize) }

end FileInfo

namespace Placement

variable (e : Setup) (p : Placement) (h : Handle)

def setInfo (f : FileInfo) : Placement := { p with info := Function.update p.info h f }

@[simp] theorem setInfo_info_self (f : FileInfo) : (p.setInfo h f).info h = f := by
  simp [setInfo]

@[simp] theorem setInfo_lists (f : FileInfo) : (p.setInfo h f).lists = p.lists := rfl

theorem setInfo_info_of_ne (f : FileInfo) (hg : g ≠ h) :
    (p.setInfo h f).info g = p.info g := by
  simp [setInfo, hg]

def listOf (level : ℤ) : List Handle :=
  if level < 0 then [] else (p.lists[level.toNat]?).getD []

def hasLevel (level : ℤ) : Bool := 0 ≤ level && level.toNat < p.lists.length

variable {p} in
theorem listOf_of_not_hasLevel (h : p.hasLevel level = false) :
    p.listOf level = [] := by
  unfold listOf
  split
  · rfl
  · next hlevel =>
    have hlong : p.lists.length ≤ level.toNat := by
      simpa [hasLevel, Int.not_lt.mp hlevel] using h
    rw [List.getElem?_eq_none hlong]
    rfl

/-- The insertion loop of `AddZoneFileRecordNoLock`: before the first file whose smallest
key is larger, else at the end. -/
def insertRecord : List Handle → List Handle
  | [] => [h]
  | x :: rest =>
    if e.sstableKeyCompare (p.info x).smallest (p.info h).smallest ≤ 0 then
      x :: insertRecord rest
    else h :: x :: rest

def resize (lists : List (List Handle)) (n : ℕ) : List (List Handle) :=
  lists ++ List.replicate (n - lists.length) []

def addZoneFileRecord : Placement :=
  if !(p.info h).listed then p
  else
    let level := (p.info h).level.toNat
    { p with lists := (resize p.lists (level + 1)).modify level (p.insertRecord e h) }

def removeZoneFileRecord : Placement :=
  { p with lists := p.lists.map fun l => l.filter (· ≠ h) }

def mark : Placement := p.setInfo h { p.info h with isDeleted := true }

def setDeleted : Placement := (p.mark h).removeZoneFileRecord h

def setLevel (level : ℤ) : Placement := p.setInfo h { p.info h with level := level }

/-- The removal and insertion with a new level that two policies make. -/
def relevel (level : ℤ) : Placement :=
  ((p.removeZoneFileRecord h).setLevel h level).addZoneFileRecord e h

def isOverlapping (a b : Handle) : Bool :=
  !(e.sstableKeyCompare (p.info a).largest (p.info b).smallest < 0) &&
    !(e.sstableKeyCompare (p.info a).smallest (p.info b).largest > 0)

def getOverlappingFiles (level : ℤ) : List Handle :=
  (p.listOf level).filter fun g => h ≠ g && p.isOverlapping e h g

def getSameLevelFiles (level : ℤ) : List Handle := p.listOf level

def getOverlapFileCount (level : ℤ) : ℕ := (p.getOverlappingFiles e h level).length

/-- `GetOverlapByteCount`. Its callers have just computed the compensated sizes, so that
`GetFileSizeMeta` has nothing left to raise. -/
def getOverlapByteCount (level : ℤ) : ℕ :=
  u64 ((p.getOverlappingFiles e h level).map fun g => (p.info g).fileSizeMeta).sum

def getOverlapKeyCount (level : ℤ) : ℕ :=
  u64 ((p.getOverlappingFiles e h level).map fun g => (p.info g).numEntries).sum

def isHighTombstone : Bool :=
  let f := p.info h
  let ratio : ℚ := if f.numEntries ≠ 0 then f.numDeletions / f.numEntries else 0
  ratio ≥ e.tombstoneDensity

def setRank (r : ℕ) : Placement := p.setInfo h { p.info h with rank := r }

def setRanks (rank : Placement → Handle → ℕ) : List Handle → Placement → Placement
  | [], p => p
  | h :: rest, p => setRanks rank rest (p.setRank h (rank p h))

/-- Give the files of a container their positions, counted from one. -/
def setPositions : ℕ → List Handle → Placement → Placement
  | _, [], p => p
  | i, h :: rest, p => setPositions (i + 1) rest (p.setRank h (i + 1))

def sortByRank (container : List Handle) : List Handle :=
  container.insertionSort fun a b => (p.info a).rank ≤ (p.info b).rank

def overlapRankHelperSizeBased (container : List Handle) (own target : ℤ) :
    Placement × List Handle :=
  if !p.hasLevel own || !p.hasLevel target then
    (setRanks (fun _ _ => 0) container p, container)
  else
    let q := setRanks (fun q h =>
      u64 (q.getOverlapByteCount e h target * 1024) / (q.info h).compensatedFileSize) container p
    let sorted := q.sortByRank container
    (setPositions 0 sorted q, sorted)

def overlapRankHelperKeyBased (container : List Handle) (own target : ℤ) :
    Placement × List Handle :=
  if !p.hasLevel own || !p.hasLevel target then
    (setRanks (fun _ _ => 0) container p, container)
  else
    let q := setRanks (fun q h =>
      u64 (q.getOverlapKeyCount e h target * 1024) / (q.info h).numEntries) container p
    (q, q.sortByRank container)

def compensatedRanks (container : List Handle) : Placement × List Handle :=
  let sorted := container.insertionSort fun a b =>
    (p.info b).compensatedFileSize ≤ (p.info a).compensatedFileSize
  (setPositions 0 sorted p, sorted)

/-- Each file of the own level takes on the rank of the first file of the upper level
that overlaps it. -/
def addUpperRanks (own upper : List Handle) : Placement :=
  setRanks (fun q h =>
    match upper.find? (q.isOverlapping e h) with
    | some g => u64 ((q.info h).rank + (q.info g).rank)
    | none => (q.info h).rank) own p

/-- `ComputeCompensatedSize` of the file, then of all recorded files
(`RecomputeCompensatedFileSizes`). -/
def computeCompensatedSizes (bodies : Handle → FileBody) : Placement :=
  (h :: p.lists.flatten).foldl (fun q g =>
    q.setInfo g ((q.info g).computeCompensatedSize q.averageValueSize (bodies g).fileSize)) p

/-- The level a file sinks to through levels without overlap, at most `n` levels down. -/
def trivialMoves : ℕ → ℤ → ℤ
  | 0, level => level
  | n + 1, level =>
    if p.getOverlapFileCount e h (level + 1) ≠ 0 then level else trivialMoves n (level + 1)

def sunkLevel : ℤ :=
  let level := (p.info h).level
  p.trivialMoves e h (p.maxLevel - level).toNat level

/-- Record the file at the level it sinks to, if that is a lower one. -/
def sink : Placement :=
  if p.sunkLevel e h > (p.info h).level then p.relevel e h (p.sunkLevel e h) else p

def ownLevel (level : ℤ) : List Handle := h :: (p.listOf level).filter (· ≠ h)

/-- `max_level` after a file of this level was seen; it is a `uint8_t`. -/
def raiseMaxLevel (level : ℤ) : Placement :=
  if level > p.maxLevel then { p with maxLevel := level.toNat % 256 } else p

end Placement

/-- `GetPerZoneContribution` of one file: the bytes of each extent, weighted and rounded
down, are added to those of its zone. -/
def getPerZoneContribution (extents : List ZoneExtent) (factor : ℚ) (result : ℕ → ℕ) : ℕ → ℕ :=
  extents.foldl (fun m x =>
    Function.update m x.zone (m x.zone + (factor * x.length).floor.toNat)) result

def weightedContributions (bodies : Handle → FileBody) (w : ℕ → ℚ) :
    ℕ → List Handle → (ℕ → ℕ) → ℕ → ℕ
  | _, [], result => result
  | k, h :: rest, result =>
    weightedContributions bodies w (k + 1) rest
      (getPerZoneContribution (bodies h).extents (w k) result)

/-- The weights of the nearest-keys policies: four fifths per file, at least one fifth. -/
def nearWeight : ℕ → ℚ
  | 0 => 1
  | k + 1 => max (nearWeight k * (4 / 5)) (1 / 5)

/-- The weights of the rank policies that halve with every file. -/
def halvingWeight : ℕ → ℚ
  | 0 => 1
  | k + 1 => halvingWeight k / 2

def contributionsAround (bodies : Handle → FileBody) (w : ℕ → ℚ) (ranking : List Handle)
    (i : ℕ) : ℕ → ℕ :=
  weightedContributions bodies w 0 (ranking.take i).reverse
    (weightedContributions bodies w 0 (ranking.drop (i + 1)) fun _ => 0)

end ZenFs.Device
