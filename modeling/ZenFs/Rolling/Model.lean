import ZenFs.Library.Steps
import ZenFs.Model.Namespace

/-!
The metadata zones: appending records, rolling to another zone, and mounting.

Every program publishes the state after each step of the device, so that the published
states are those a crash can leave. How the steps of a roll end is given with the roll.
-/

namespace ZenFs.Rolling

open Library Function

/-- The bytes of a number written by `PutVarint32`. -/
def varintLength (n : ℕ) : ℕ :=
  if n < 2 ^ 7 then 1 else if n < 2 ^ 14 then 2 else if n < 2 ^ 21 then 3
  else if n < 2 ^ 28 then 4 else 5

/-- The bytes that `PutLengthPrefixedSlice` puts for a slice of `n` bytes. -/
def prefixedLength (n : ℕ) : ℕ := varintLength n + n

/-- The length of what `ZoneFile::EncodeTo` puts: a tag of four bytes in front of each
field. -/
def fileLength (img : FileImage) : ℕ :=
  (4 + 8) + (4 + 8) + (4 + 4) + img.extents.length * (4 + prefixedLength 16) +
    (4 + 8) + (4 + 8) + (if img.isSparse then 4 else 0) +
    (img.linkfiles.map fun name => 4 + prefixedLength name.length).sum

def recordLength : Record → ℕ
  | .snapshot files =>
    4 + prefixedLength (files.map fun img => prefixedLength (fileLength img)).sum
  | .update img => 4 + prefixedLength (fileLength img)
  | .replace img => 4 + prefixedLength (fileLength img)
  | .deletion _ name => 4 + prefixedLength (8 + prefixedLength name.length)
  | .endRecord => 4

/-- The metadata zones of a device. `fullWp` is what the device reports as the write
pointer of a full zone, from the start of the zone: some devices report the end of its
capacity, others the end of its address range. -/
structure Layout extends Geometry where
  metaZones : ℕ
  metaCapacity : ℕ → ℕ
  fullWp : ℕ → ℕ
  two_le_metaZones : 2 ≤ metaZones
  block_dvd_metaCapacity : ∀ z, blockSize ∣ metaCapacity z
  capacity_le_fullWp : ∀ z, metaCapacity z ≤ fullWp z
  twelve_le_block : 12 ≤ blockSize

/-- A record on the device: a superblock with its sequence number, another record, or
blocks of a record whose write failed. -/
inductive Entry
  | superblock (seq : ℕ)
  | record (r : Record)
  | torn (blocks : ℕ)
  deriving DecidableEq

/-- A metadata zone: its records in order, and whether it was finished. -/
structure MetaZone where
  content : List Entry
  finished : Bool
  deriving DecidableEq

def MetaZone.empty : MetaZone := ⟨[], false⟩

namespace Layout

variable (L : Layout)

/-- What `AddRecord` writes for a record of `n` bytes: a header, and whole blocks. It keeps
the length in a `uint32_t`, so this is for records of less than `2 ^ 32` bytes. -/
def physSize (n : ℕ) : ℕ :=
  let size := n + 8
  if size % L.blockSize = 0 then size else size + (L.blockSize - size % L.blockSize)

def superblockLength : ℕ := 512

def size : Entry → ℕ
  | .superblock _ => L.physSize superblockLength
  | .record r => L.physSize (recordLength r)
  | .torn blocks => blocks * L.blockSize

def used (zone : MetaZone) : ℕ := (zone.content.map L.size).sum

/-- `wp_ - start_`, as a new process gets it from the device. -/
def wp (z : ℕ) (zone : MetaZone) : ℕ :=
  if zone.finished ∨ L.used zone = L.metaCapacity z then L.fullWp z else L.used zone

def capacityLeft (z : ℕ) (zone : MetaZone) : ℕ :=
  if zone.finished then 0 else L.metaCapacity z - L.used zone

end Layout

/-- The records behind the first one, as far as `ReadRecord` gets. -/
def recordsOf : List Entry → List Record
  | .record r :: rest => r :: recordsOf rest
  | _ => []

def MetaZone.records (zone : MetaZone) : List Record := recordsOf zone.content.tail

/-- `ReadRecord` fails behind the records: a write was torn there, or the write pointer is
further on. After an end record it is not called any more. -/
def MetaZone.broken (L : Layout) (z : ℕ) (zone : MetaZone) : Prop :=
  .endRecord ∉ zone.records ∧
    (zone.records.length < zone.content.tail.length ∨ L.used zone < L.wp z zone)

instance (L : Layout) (z : ℕ) (zone : MetaZone) : Decidable (zone.broken L z) :=
  inferInstanceAs (Decidable (_ ∧ _))

def recoverFrom (L : Layout) (z : ℕ) (zone : MetaZone) (c : Catalog) : Status × Catalog :=
  match Catalog.replay L.toGeometry zone.records false c with
  | .error s => (s, c)
  | .ok (seen, d) =>
    if zone.broken L z then (.Corruption "ZenFS: Metadata corruption", d)
    else if seen then (.OK, d)
    else (.NotFound "ZenFS: No snapshot found", d)

/-- The metadata part of a mounted file system. `latest` is not part of the source: it is
the zone whose snapshot was the last to be written. -/
structure MetaState where
  zones : ℕ → MetaZone
  busy : ℕ → Bool
  /-- The zone of `meta_log_`. -/
  current : ℕ
  /-- `sequence_` of the superblock. -/
  seq : ℕ
  cat : Catalog
  latest : ℕ

/-- How the device steps of a roll end. A write that fails stores the given number of
blocks. -/
structure Faults where
  resetNew : ℕ → Bool
  endRecord : Option ℕ
  finish : Bool
  superblock : Option ℕ
  snapshot : Option ℕ
  resetOld : Bool

def Faults.none : Faults := ⟨fun _ => false, .none, false, .none, .none, false⟩

abbrev MetaProg := Prog MetaState

namespace MetaState

variable (s : MetaState)

def setZone (z : ℕ) (zone : MetaZone) : MetaState :=
  { s with zones := Function.update s.zones z zone }

def setBusy (z : ℕ) (b : Bool) : MetaState := { s with busy := Function.update s.busy z b }

def setSeq (n : ℕ) : MetaState := { s with seq := n }

def setCat (c : Catalog) : MetaState := { s with cat := c }

def setCurrent (z : ℕ) : MetaState := { s with current := z }

def setLatest (z : ℕ) : MetaState := { s with latest := z }

def push (z : ℕ) (x : Entry) : MetaState :=
  s.setZone z ⟨(s.zones z).content ++ [x], (s.zones z).finished⟩

end MetaState

variable (L : Layout)

def acquire (z : ℕ) : MetaProg Bool :=
  .act fun s => if s.busy z then (false, s) else (true, s.setBusy z true)

def release (z : ℕ) : MetaProg Unit := .modify (·.setBusy z false)

def deviceStep (f : MetaState → MetaState) : MetaProg Unit := do
  Prog.modify f
  Prog.emit

def addRecord (z : ℕ) (x : Entry) (fault : Option ℕ) (mark : MetaState → MetaState) :
    MetaProg Status := do
  if L.capacityLeft z ((← Prog.read id).zones z) < L.size x then
    return .NoSpace "Not enough capacity for append"
  else
    match fault with
    | none =>
      deviceStep fun s => mark (s.push z x)
      return .OK
    | some 0 => return .IOError "Write failed"
    | some (n + 1) =>
      deviceStep (·.push z (.torn (n + 1)))
      return .IOError "Write failed"

def resetZone (z : ℕ) (fails : Bool) : MetaProg Status := do
  if fails then return .IOError "Zone reset failed\n"
  else
    deviceStep (·.setZone z .empty)
    return .OK

def finishZone (z : ℕ) (fails : Bool) : MetaProg Status := do
  if fails then return .IOError "Zone finish failed\n"
  else
    deviceStep fun s => s.setZone z ⟨(s.zones z).content, true⟩
    return .OK

def allocateMetaZone (f : Faults) : List ℕ → MetaProg (Status × Option ℕ)
  | [] => return (.NoSpace "Out of metadata zones", none)
  | z :: rest => do
    if !(← acquire z) then allocateMetaZone f rest
    else if (← Prog.read id).zones z = .empty then return (.OK, some z)
    else
      let s ← resetZone z (f.resetNew z)
      if s.ok then return (.OK, some z)
      else
        release z
        allocateMetaZone f rest

def ifCapacityLeft (z : ℕ) (m : MetaProg Status) : MetaProg Unit := do
  if 0 < L.capacityLeft z ((← Prog.read id).zones z) then
    let _ ← m
  else return ()

/-- `EncodeTo` of the superblock takes the next sequence number, in a `uint32_t`. -/
def nextSeq : MetaProg ℕ :=
  .act fun s => ((s.seq + 1) % 2 ^ 32, s.setSeq ((s.seq + 1) % 2 ^ 32))

def writeSnapshotLocked (z : ℕ) (fault : Option ℕ) : MetaProg Status := do
  let c := (← Prog.read id).cat
  let s ← addRecord L z (.record c.encodeSnapshotTo) fault (·.setLatest z)
  if s.ok then
    Prog.modify fun s => s.setCat s.cat.metadataSynced
    return s
  else return s

def closeZone (f : Faults) (old : ℕ) : MetaProg Unit := do
  ifCapacityLeft L old (addRecord L old (.record .endRecord) f.endRecord id)
  ifCapacityLeft L old (finishZone old f.finish)

def writeRoll (f : Faults) (old z : ℕ) : MetaProg Status := do
  closeZone L f old
  let seq ← nextSeq
  let s ← addRecord L z (.superblock seq) f.superblock id
  if !s.ok then return .IOError "Failed writing a new superblock"
  else
    let s ← writeSnapshotLocked L z f.snapshot
    if s.ok then
      let _ ← resetZone old f.resetOld
      return s
    else return s

/-- `RollMetaZoneLocked`. The old log object releases its zone at the end. -/
def rollMetaZoneLocked (f : Faults) : MetaProg Status := do
  let (s, zone) ← allocateMetaZone f (List.range L.metaZones)
  if !s.ok then return s
  else
    match zone with
    | none => return .NoSpace "Out of metadata zones"
    | some z =>
      let old := (← Prog.read id).current
      Prog.modify (·.setCurrent z)
      let s ← writeRoll L f old z
      release old
      return s

def persistRecord (f : Faults) (r : Record) : MetaProg Status := do
  let z := (← Prog.read id).current
  let s ← addRecord L z (.record r) none id
  if s.isNoSpace then rollMetaZoneLocked L f else return s

def rollSteps (f : Faults) : RollSteps MetaProg ℕ (ℕ × ℕ) where
  allocateMetaZone := allocateMetaZone f (List.range L.metaZones)
  swap z := do
    let old := (← Prog.read id).current
    Prog.modify (·.setCurrent z)
    return (old, z)
  writeEndRecord k := ifCapacityLeft L k.1 (addRecord L k.1 (.record .endRecord) f.endRecord id)
  finish k := ifCapacityLeft L k.1 (finishZone k.1 f.finish)
  addSuperblock k := do
    let seq ← nextSeq
    addRecord L k.2 (.superblock seq) f.superblock id
  writeSnapshotLocked k := writeSnapshotLocked L k.2 f.snapshot
  reset k := resetZone k.1 f.resetOld
  release k := release k.1

theorem rollMetaZoneLocked_eq (f : Faults) :
    rollMetaZoneLocked L f = (rollSteps L f).rollMetaZoneLocked := by
  rw [rollMetaZoneLocked, RollSteps.rollMetaZoneLocked]
  congr 1
  funext r
  obtain ⟨s, zone⟩ := r
  cases zone with
  | none => rfl
  | some z => simp only [writeRoll, closeZone, RollSteps.writeRoll, rollSteps, bind_assoc, pure_bind]

/-- `PersistRecord` on the metadata zones follows the order of the steps. -/
theorem persistRecord_eq (f : Faults) (r : Record) : persistRecord L f r =
    (rollSteps L f).persistRecord (do
      let z := (← Prog.read id).current
      addRecord L z (.record r) none id) := by
  simp only [persistRecord, RollSteps.persistRecord, rollMetaZoneLocked_eq, bind_assoc]

/-- The first loop of `Mount`: the valid superblocks with their zones. -/
def readSuperblocks : List ℕ → MetaProg (Except Status (List (ℕ × ℕ)))
  | [] => return .ok []
  | z :: rest => do
    let _ ← acquire z
    match ((← Prog.read id).zones z).content with
    | .superblock seq :: _ =>
      let found ← readSuperblocks rest
      return found.map ((seq, z) :: ·)
    | .record r :: _ =>
      return .error (.Corruption (if recordLength r = Layout.superblockLength then
        "ZenFS Superblock: Error: Magic missmatch"
        else "ZenFS Superblock: Error: Superblock size missmatch"))
    | _ =>
      release z
      readSuperblocks rest

/-- The order of `std::greater` on pairs. -/
def Later (a b : ℕ × ℕ) : Prop := b.1 < a.1 ∨ b.1 = a.1 ∧ b.2 ≤ a.2

instance : DecidableRel Later := fun _ _ => inferInstanceAs (Decidable (_ ∨ _))

/-- The second loop of `Mount`: recover from the first zone that has a snapshot. -/
def recoverLatest : List (ℕ × ℕ) → MetaProg Status
  | [] => return .IOError "Failed to mount filesystem"
  | (seq, z) :: rest => do
    let s ← Prog.act fun s =>
      let (st, c) := recoverFrom L z (s.zones z) s.cat
      (st, s.setCat c)
    if s.ok then
      Prog.modify fun s => (s.setCurrent z).setSeq seq
      return .OK
    else if s.code = .notFound then
      release z
      recoverLatest rest
    else return s

/-- `Mount` in a new process; `repair` is what `Repair` does to the files. -/
def mount (readonly : Bool) (repair : Catalog → Status × Catalog) (f : Faults) :
    MetaProg Status := do
  Prog.modify fun s => { s with busy := fun _ => false, cat := .empty }
  match ← readSuperblocks (List.range L.metaZones) with
  | .error s => return s
  | .ok [] => return .NotFound "No valid superblock found"
  | .ok found =>
    let s ← recoverLatest L (found.insertionSort Later)
    if !s.ok then return s
    else
      Prog.modify fun s => { s with busy := Function.update (fun _ => false) s.current true }
      if readonly then return .OK
      else
        let s ← Prog.act fun s => ((repair s.cat).1, s.setCat (repair s.cat).2)
        if !s.ok then return s else rollMetaZoneLocked L f

def mkfs : MetaState where
  zones z := if z = 0 then
    ⟨[.superblock 1, .record Catalog.empty.encodeSnapshotTo], false⟩ else .empty
  busy _ := false
  current := 0
  seq := 1
  cat := .empty
  latest := 0

/-- The file system, and what its operations have persisted since the last mount for writing: the
snapshot that the mount wrote, and then the record of each operation. -/
structure System where
  up : Bool
  disk : MetaState
  /-- The operations that returned OK. -/
  acked : List Record
  /-- All operations. -/
  tried : List Record

/-- What can happen next. A crash is given by the number of device steps before it. -/
inductive Action
  /-- An operation persists `r`, with the catalog `c` in memory. -/
  | persist (c : Catalog) (r : Record) (f : Faults) (crash : Option ℕ)
  | mount (readonly : Bool) (repair : Catalog → Status × Catalog) (f : Faults)
      (crash : Option ℕ)
  /-- The process ends. -/
  | stop

def MetaState.Fits (s : MetaState) (r : Record) : Prop :=
  L.size (.record r) ≤ L.capacityLeft s.current (s.zones s.current)

instance (s : MetaState) (r : Record) : Decidable (s.Fits L r) :=
  inferInstanceAs (Decidable (_ ≤ _))

def System.ackPersist (s : System) (r : Record) (st : Status) (d : MetaState) : System where
  up := true
  disk := d
  acked := if st.ok then s.acked ++ [r] else s.acked
  tried := s.tried ++ [r]

def step (s : System) : Action → Option System
  | .persist c r f crash =>
    if s.up then
      let out := persistRecord L f r (s.disk.setCat c)
      match crash with
      | some n => out.trail[n]?.map fun d => ⟨false, d, s.acked, s.tried ++ [r]⟩
      | none => out.result.map fun p => s.ackPersist r p.1 p.2
    else none
  | .mount readonly repair f crash =>
    if s.up then none
    else
      let out := mount L readonly repair f s.disk
      match crash with
      | some n => out.trail[n]?.map fun d => ⟨false, d, s.acked, s.tried⟩
      | none => out.result.map fun p =>
        if p.1.ok && !readonly then
          ⟨true, p.2, [p.2.cat.encodeSnapshotTo], [p.2.cat.encodeSnapshotTo]⟩
        else ⟨false, p.2, s.acked, s.tried⟩
  | .stop => if s.up then some { s with up := false } else none

def newSystem : System :=
  ⟨false, mkfs, [Catalog.empty.encodeSnapshotTo], [Catalog.empty.encodeSnapshotTo]⟩

end ZenFs.Rolling
