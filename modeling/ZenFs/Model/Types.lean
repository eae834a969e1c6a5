import Mathlib.Data.UInt
import Std.Data.ExtTreeMap

/-!
The data of the file system: the layout of the device, files and their extents as
they are kept in memory, and the records of the metadata log.

Log records are taken after `util/coding` has done its work: a record here is the
data that `EncodeTo` wrote and `DecodeFrom` reads back.
-/

namespace ZenFs

open List

variable {offset y z : ℕ}

inductive Code
  | ok | notFound | corruption | notSupported | invalidArgument | ioError | noSpace | aborted
  deriving DecidableEq, Repr

/-- `Status` and `IOStatus`: a code and the message given with it. -/
structure Status where
  code : Code
  msg : String
  deriving DecidableEq, Repr

namespace Status

def OK : Status := ⟨.ok, ""⟩
def NotFound (msg : String) : Status := ⟨.notFound, msg⟩
def Corruption (msg : String) : Status := ⟨.corruption, msg⟩
def InvalidArgument (msg : String) : Status := ⟨.invalidArgument, msg⟩
def IOError (msg : String) : Status := ⟨.ioError, msg⟩
def NoSpace (msg : String) : Status := ⟨.noSpace, msg⟩

def ok (s : Status) : Bool := s.code = .ok

/-- `s == IOStatus::NoSpace()`. The comparison is of the codes, and `NoSpace` is a subcode of
`IOError`. -/
def isNoSpace (s : Status) : Bool := s.code = .noSpace || s.code = .ioError

@[simp] theorem ok_OK : OK.ok = true := rfl
@[simp] theorem ok_NotFound (m : String) : (NotFound m).ok = false := rfl
@[simp] theorem ok_Corruption (m : String) : (Corruption m).ok = false := rfl
@[simp] theorem ok_InvalidArgument (m : String) : (InvalidArgument m).ok = false := rfl
@[simp] theorem ok_IOError (m : String) : (IOError m).ok = false := rfl
@[simp] theorem ok_NoSpace (m : String) : (NoSpace m).ok = false := rfl

end Status

def sparseHeaderSize : ℕ := 8

/-- The layout of the IO zones. Zone capacities are positive multiples of the block
size, a block holds more than a sparse header, and the zones do not overlap. -/
structure Geometry where
  blockSize : ℕ
  zoneSize : ℕ
  nrZones : ℕ
  start : ℕ → ℕ
  maxCapacity : ℕ → ℕ
  header_lt_block : sparseHeaderSize < blockSize
  block_dvd_start : ∀ z, blockSize ∣ start z
  block_dvd_capacity : ∀ z, blockSize ∣ maxCapacity z
  capacity_pos : ∀ z, 0 < maxCapacity z
  capacity_le : ∀ z, maxCapacity z ≤ zoneSize
  disjoint : ∀ y z, y < nrZones → z < nrZones → y < z → start y + zoneSize ≤ start z
  addressable : ∀ z, z < nrZones → start z + zoneSize < 2 ^ 63

def Geometry.small : Geometry where
  blockSize := 16
  zoneSize := 64
  nrZones := 2
  start z := z * 64
  maxCapacity _ := 64
  header_lt_block := by decide
  block_dvd_start z := ⟨z * 4, by omega⟩
  block_dvd_capacity _ := by decide
  capacity_pos _ := by decide
  capacity_le _ := by decide
  disjoint y z _ _ h := by omega
  addressable z h := by omega

namespace Geometry

variable (g : Geometry)

def Within (z offset : ℕ) : Prop := g.start z ≤ offset ∧ offset < g.start z + g.zoneSize

instance (z offset : ℕ) : Decidable (g.Within z offset) :=
  inferInstanceAs (Decidable (_ ∧ _))

def getIOZone (offset : ℕ) : Option ℕ :=
  (List.range g.nrZones).find? fun z => g.Within z offset

theorem blockSize_pos : 0 < g.blockSize := by
  have := g.header_lt_block
  omega

theorem within_unique (hy : y < g.nrZones) (hz : z < g.nrZones)
    (h : g.Within y offset) (k : g.Within z offset) : y = z := by
  obtain ⟨h₁, h₂⟩ := h
  obtain ⟨k₁, k₂⟩ := k
  rcases Nat.lt_trichotomy y z with hlt | rfl | hlt
  · have := g.disjoint y z hy hz hlt
    omega
  · rfl
  · have := g.disjoint z y hz hy hlt
    omega

theorem getIOZone_eq_some :
    g.getIOZone offset = some z ↔ z < g.nrZones ∧ g.Within z offset := by
  constructor
  · intro h
    have hm := mem_of_find?_eq_some h
    have hp := find?_some h
    exact ⟨by simpa using hm, by simpa using hp⟩
  · rintro ⟨hz, hw⟩
    cases h : g.getIOZone offset with
    | none =>
      have := find?_eq_none.mp h z (by simpa using hz)
      simp [hw] at this
    | some y =>
      have hm := mem_of_find?_eq_some h
      have hp := find?_some h
      have hyz : y = z := g.within_unique (by simpa using hm) hz (by simpa using hp) hw
      rw [hyz]

end Geometry

/-- A path in the form `FormatPathLexically` gives it, as its bytes. -/
abbrev Name := List UInt8

inductive Lifetime
  | notSet | none | short | medium | long | extreme
  deriving DecidableEq, Repr

def Lifetime.toNat : Lifetime → ℕ
  | notSet => 0
  | none => 1
  | short => 2
  | medium => 3
  | long => 4
  | extreme => 5

inductive IOType
  | unknown | data | wal
  deriving DecidableEq, Repr

/-- `ZoneExtent`: a span of the device that belongs to a file, and its zone. -/
structure ZoneExtent where
  start : ℕ
  length : ℕ
  zone : ℕ
  deriving DecidableEq, Repr

def heldIn (l : List ZoneExtent) (z : ℕ) : ℕ :=
  ((l.filter (·.zone = z)).map (·.length)).sum

@[simp] theorem heldIn_nil (z : ℕ) : heldIn [] z = 0 := rfl

theorem heldIn_cons (e : ZoneExtent) (l : List ZoneExtent) (z : ℕ) :
    heldIn (e :: l) z = (if e.zone = z then e.length else 0) + heldIn l z := by
  by_cases h : e.zone = z <;> simp [heldIn, h]

@[simp] theorem heldIn_append (l m : List ZoneExtent) (z : ℕ) :
    heldIn (l ++ m) z = heldIn l z + heldIn m z := by
  simp [heldIn]

/-- `ZoneFile`. `extentStart` is `none` where the source stores `NO_EXTENT`. -/
structure ZoneFile where
  fileId : ℕ
  extents : List ZoneExtent
  linkfiles : List Name
  activeZone : Option ℕ
  extentStart : Option ℕ
  extentFilepos : ℕ
  lifetime : Lifetime
  ioType : IOType
  fileSize : ℕ
  nrSyncedExtents : ℕ
  openForWr : Bool
  mTime : ℕ
  isSparse : Bool
  isDeleted : Bool
  level : ℤ
  hasKeys : Bool
  allocSize : ℕ
  deriving DecidableEq, Repr

/-- What `ZoneFile::EncodeTo` puts into a record. -/
structure FileImage where
  fileId : ℕ
  fileSize : ℕ
  lifetime : Lifetime
  extents : List (ℕ × ℕ)
  mTime : ℕ
  extentStart : Option ℕ
  isSparse : Bool
  linkfiles : List Name
  deriving DecidableEq, Repr

/-- The records of a metadata zone after its superblock. -/
inductive Record
  | snapshot (files : List FileImage)
  | update (file : FileImage)
  | replace (file : FileImage)
  | deletion (fileId : ℕ) (name : Name)
  | endRecord
  deriving DecidableEq, Repr

namespace ZoneFile

def new (fileId : ℕ) : ZoneFile where
  fileId := fileId
  extents := []
  linkfiles := []
  activeZone := none
  extentStart := none
  extentFilepos := 0
  lifetime := .notSet
  ioType := .unknown
  fileSize := 0
  nrSyncedExtents := 0
  openForWr := false
  mTime := 0
  isSparse := false
  isDeleted := false
  level := -1
  hasKeys := false
  allocSize := 0

/-- `EncodeTo`: the record of the file with its extents from index `extentStart` on. -/
def encodeTo (f : ZoneFile) (extentStart : ℕ) : FileImage where
  fileId := f.fileId
  fileSize := f.fileSize
  lifetime := f.lifetime
  extents := (f.extents.drop extentStart).map fun e => (e.start, e.length)
  mTime := f.mTime
  extentStart := f.extentStart
  isSparse := f.isSparse
  linkfiles := f.linkfiles

def encodeUpdateTo (f : ZoneFile) : FileImage := f.encodeTo f.nrSyncedExtents

def encodeSnapshotTo (f : ZoneFile) : FileImage := f.encodeTo 0

def metadataSynced (f : ZoneFile) : ZoneFile := { f with nrSyncedExtents := f.extents.length }

def metadataUnsynced (f : ZoneFile) : ZoneFile := { f with nrSyncedExtents := 0 }

def addLinkName (f : ZoneFile) (linkf : Name) : ZoneFile :=
  { f with linkfiles := f.linkfiles ++ [linkf] }

/-- `RenameLink`: the new name goes to the end of the list. -/
def renameLink (f : ZoneFile) (src dest : Name) : Status × ZoneFile :=
  if src ∈ f.linkfiles then
    (.OK, { f with linkfiles := f.linkfiles.erase src ++ [dest] })
  else (.IOError "RenameLink: Failed to find the linked file", f)

def removeLinkName (f : ZoneFile) (linkf : Name) : Status × ZoneFile :=
  if linkf ∈ f.linkfiles then (.OK, { f with linkfiles := f.linkfiles.erase linkf })
  else (.IOError "RemoveLinkInfo: Failed to find the link file", f)

def markDeleted (f : ZoneFile) : ZoneFile :=
  if f.linkfiles.length > 0 then f else { f with isDeleted := true }

end ZoneFile

end ZenFs
