import ZenFs.Library.Coding
import ZenFs.Library.Medium
import ZenFs.Model.Types

/-!
Recovery of a file whose writer was interrupted: `ZoneFile::Recover` and
`ZoneFile::RecoverSparseExtents`.

The scan of a sparse file trusts the lengths it reads off the device, in 64-bit arithmetic, so
that the loop need not end: it is given a number of rounds, and `none` is a run that is not over.
-/

namespace ZenFs.Recover

open Library.Coding Library.Medium Function

/-- The device at the time of the recovery: the write pointers of the zones, the bytes, and at
which positions a block can be read. -/
structure Disk extends Geometry where
  wp : ℕ → ℕ
  content : ℕ → UInt8
  readable : ℕ → Bool
  wp_le : ∀ z, z < nrZones → wp z ≤ start z + zoneSize

namespace Disk

variable (d : Disk)

/-- `DecodeFixed64` of the first bytes of the block at `p`. -/
def header (p : ℕ) : ℕ := fixedValue (span d.content p 8)

def segmentSize (length : ℕ) : ℕ :=
  let size := (length + sparseHeaderSize) % 2 ^ 64
  (size / d.blockSize + if size % d.blockSize ≠ 0 then 1 else 0) * d.blockSize

/-- Where the next segment is taken to start. -/
def follow (p : ℕ) : ℕ := (p + d.segmentSize (d.header p)) % 2 ^ 64

def extentAt (z p : ℕ) : ZoneExtent := ⟨(p + sparseHeaderSize) % 2 ^ 64, d.header p, z⟩

/-- `ZoneFile::RecoverSparseExtents` in zone `z` up to `stop`, from `p` on: the extents, and what
they add to `used_capacity_`. -/
def recoverSparseExtents (z stop : ℕ) : ℕ → ℕ → List ZoneExtent → ℤ →
    Option (Status × List ZoneExtent × ℤ)
  | 0, _, _, _ => none
  | k + 1, p, extents, used =>
    if p < stop then
      if d.readable p = false then
        some (.IOError "Unexpected read error while recovering", extents, used)
      else if d.header p = 0 then
        some (.IOError "Unexpected extent length while recovering", extents, used)
      else
        recoverSparseExtents z stop k (d.follow p) (extents ++ [d.extentAt z p])
          (used + d.header p)
    else some (.OK, extents, used)

end Disk

/-- The end of `Recover`: no extent is missing, and the size is that of the extents. -/
def completed (f : ZoneFile) (extents : List ZoneExtent) : ZoneFile :=
  { f with
    extents := extents
    extentStart := none
    fileSize := (extents.map (·.length)).sum % 2 ^ 64 }

/-- `ZoneFile::Recover`, with at most `rounds` rounds of the scan. `used` holds the
`used_capacity_` of the zones. -/
def recover (d : Disk) (rounds : ℕ) (f : ZoneFile) (used : ℕ → ℤ) :
    Option (Status × ZoneFile × (ℕ → ℤ)) :=
  match f.extentStart with
  | none => some (.OK, f, used)
  | some start =>
    match d.getIOZone start with
    | none => some (.IOError "Could not find zone for extent start while recovering", f, used)
    | some z =>
      if d.wp z < start then
        some (.IOError "Zone wp is smaller than active extent start", f, used)
      else if d.wp z - start = 0 then some (.OK, { f with extentStart := none }, used)
      else if f.isSparse then
        (d.recoverSparseExtents z (d.wp z) rounds start f.extents (used z)).map
          fun (s, extents, u) =>
            if s.ok then (s, completed f extents, Function.update used z u)
            else (s, { f with extents := extents }, Function.update used z u)
      else
        some (.OK, completed f (f.extents ++ [⟨start, d.wp z - start, z⟩]),
          Function.update used z (used z + (d.wp z - start : ℕ)))

end ZenFs.Recover
