import ZenFs.Library.Coding
import ZenFs.Library.Medium
import ZenFs.Model.Types

/-!
The metadata log as bytes of a zone: `ZenMetaLog` over `Zone::Append` and the read and write
calls of the backend.

A record is stored behind a header with its checksum and its length, and takes whole blocks.
-/

namespace ZenFs.MetaLog

open Library.Coding Library.Medium

/-- What one call of the backend does: the number of bytes it moved, or `none` if it failed. The
size of a read is an `int`, and `pread` refuses one that has become negative. -/
structure Backend where
  write : ℕ → ℕ → Option ℕ
  read : ℕ → ℕ → Option ℕ
  write_some : ∀ {pos left r}, write pos left = some r → 0 < r ∧ r ≤ left
  read_some : ∀ {pos left r}, read pos left = some r → 0 < r ∧ r ≤ left
  read_succeeds : ∀ pos left, 0 < left → left < 2 ^ 31 → read pos left ≠ none
  read_negative : ∀ pos left, 2 ^ 31 ≤ left → read pos left = none

structure LogZone where
  start : ℕ
  maxCapacity : ℕ
  capacity : ℕ
  wp : ℕ
  content : ℕ → UInt8

/-- The loop of `Zone::Append`; every call writes at least one byte. -/
def appendLoop (b : Backend) : ℕ → LogZone → Bytes → Status × LogZone
  | 0, z, _ => (.OK, z)
  | k + 1, z, data =>
    if data.length = 0 then (.OK, z)
    else
      match b.write z.wp data.length with
      | none => (.IOError "Write failed", z)
      | some r =>
        appendLoop b k
          { z with
            content := put z.content z.wp (data.take r)
            wp := z.wp + r
            capacity := z.capacity - r }
          (data.drop r)

def LogZone.append (b : Backend) (z : LogZone) (data : Bytes) (size : ℕ) : Status × LogZone :=
  if z.capacity < size then (.NoSpace "Not enough capacity for append", z)
  else appendLoop b size z (data.take size)

def mask (crc : UInt32) : UInt32 := ((crc >>> 15) ||| (crc <<< 17)) + 0xa282ead8

def unmask (masked : UInt32) : UInt32 :=
  let rot := masked - 0xa282ead8
  (rot >>> 17) ||| (rot <<< 15)

/-- What the log is set up with: the block size and the checksum. -/
structure Media where
  blockSize : ℕ
  /-- `crc32c::Extend`. -/
  extend : UInt32 → Bytes → UInt32
  blockSize_pos : 0 < blockSize
  blockSize_le : blockSize ≤ 2 ^ 30

namespace Media

variable (m : Media)

def headerSize : ℕ := 8

def padded (n : ℕ) : ℕ :=
  if n % m.blockSize = 0 then n else n + (m.blockSize - n % m.blockSize)

def checksum (data : Bytes) (size : ℕ) : UInt32 := m.extend (m.extend 0 (putFixed 4 size)) data

/-- The buffer that `AddRecord` fills for a record of `size` bytes. -/
def frame (data : Bytes) (size : ℕ) : Bytes :=
  putFixed 4 (mask (m.checksum data size)).toNat ++ (putFixed 4 size ++
    (data ++ List.replicate (m.padded (size + headerSize) - (size + headerSize)) 0))

/-- `ZenMetaLog::AddRecord`. The length of the record is kept in a `uint32_t`, and so is the size
that `Append` is called with. -/
def addRecord (b : Backend) (z : LogZone) (slice : Bytes) : Status × LogZone :=
  let recordSz := slice.length % 2 ^ 32
  z.append b (m.frame (slice.take recordSz) recordSz)
    (m.padded (recordSz + headerSize) % 2 ^ 32)

def addRecords (b : Backend) : LogZone → List Bytes → Option LogZone
  | z, [] => some z
  | z, r :: rest =>
    let (s, z) := m.addRecord b z r
    if s.ok then addRecords b z rest else none

end Media

structure Log where
  zone : LogZone
  readPos : ℕ

def Log.new (z : LogZone) : Log := ⟨z, z.start⟩

def readLoop (b : Backend) (content : ℕ → UInt8) : ℕ → ℕ → ℕ → Status × Bytes × ℕ
  | 0, pos, _ => (.OK, [], pos)
  | k + 1, pos, left =>
    if left = 0 then (.OK, [], pos)
    else
      match b.read pos left with
      | none => (.IOError "Read failed", [], pos)
      | some r =>
        let (s, data, pos') := readLoop b content k (pos + r) (left - r)
        (s, span content pos r ++ data, pos')

def Log.read (b : Backend) (l : Log) (n : ℕ) : Status × Bytes × Log :=
  -- EOF
  if l.readPos ≥ l.zone.wp then (.OK, [], l)
  else if l.readPos + n > l.zone.start + l.zone.maxCapacity then
    (.IOError "Read across zone", [], l)
  else
    let (s, data, pos) := readLoop b l.zone.content n l.readPos n
    (s, data, { l with readPos := pos })

def Log.readRecord (m : Media) (b : Backend) (l : Log) : Status × Bytes × Log :=
  let (s, header, l) := l.read b Media.headerSize
  if !s.ok then (s, [], l)
  else if header.length = 0 then (.OK, [], l)
  else
    let recordCrc := fixedValue (header.take 4)
    let recordSz := fixedValue (header.drop 4)
    let (s, record, l) := l.read b recordSz
    if !s.ok then (s, record, l)
    else if m.checksum record recordSz ≠ unmask (UInt32.ofNat recordCrc) then
      (.IOError "Not a valid record", record, l)
    else (.OK, record, { l with readPos := m.padded l.readPos })

def Log.readRecords (m : Media) (b : Backend) : ℕ → Log → List (Status × Bytes)
  | 0, _ => []
  | k + 1, l =>
    let (s, record, l) := l.readRecord m b
    (s, record) :: readRecords m b k l

end ZenFs.MetaLog
