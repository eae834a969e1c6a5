import ZenFs.Device.Allocate

/-!
What files do with their zones: the append routines, the life of the active zone, closing
a writer, and the migration of extents.

`active_zone_` is read anew at every use, as in the source; following it when it is null
never returns.
-/

namespace ZenFs.Device

open Library

variable (e : Setup) (me : Holder) (h : Handle)

def activeZone : DevTask ℕ := do
  match ((← look).bodies h).activeZone with
  | some z => return z
  | none => hang

def lookActiveZone : DevTask Zone := do
  let z ← activeZone h
  return (← look).zones z

/-- `SyncFileMetadata`. A file that was deleted is not persisted any more. -/
def syncFileMetadata : DevTask Status := do
  call (.lock .files)
  let s ← (if ((← look).place.info h).isDeleted then pure .OK else persistRecord e me)
  call (.unlock .files)
  return s

def closeActiveZone : DevTask Status := do
  if ((← look).bodies h).activeZone.isNone then return .OK
  else
    let full := (← lookActiveZone h).isFull
    let s ← closeZone (.file h) (← activeZone h)
    let _ ← release (.file h) (← activeZone h)
    call (.clearActiveZone h)
    if !s.ok then return s
    else
      putOpenIOZoneToken
      if full then putActiveIOZoneToken
      return .OK

def pushExtent : DevTask Unit := do
  let b := (← look).bodies h
  if b.activeZone.isNone then return ()
  else
    let length := b.fileSize - b.extentFilepos
    if length = 0 then return ()
    else
      let z ← activeZone h
      call (.body h fun b => { b with
        extents := b.extents ++ [⟨b.extentStart.getD (2 ^ 64 - 1), length, z⟩] })
      call (.use z (· + length))
      let wp := (← lookActiveZone h).wp
      call (.body h fun b => { b with extentStart := some wp, extentFilepos := b.fileSize })

def setAllocSize (n : ℕ) : DevTask Unit :=
  place fun d => d.place.setInfo h { d.place.info h with allocSize := n }

def allocateNewZone (spins : ℕ) : DevTask Status := do
  let f := (← look).place.info h
  let (s, zone) ← allocateIOZone e me h spins f.lifetime f.ioType
  if !s.ok then return s
  else
    match zone with
    | none => return .NoSpace "Zone allocation failure\n"
    | some z =>
      call (.setActiveZone me h z)
      let wp := (← lookActiveZone h).wp
      call (.body h fun b => { b with extentStart := some wp, extentFilepos := b.fileSize })
      syncFileMetadata e me h

def ensureActiveZone (spins : ℕ) : DevTask Status := do
  if ((← look).bodies h).activeZone.isNone then allocateNewZone e me h spins
  else return .OK

def nextZoneIfFull (spins left : ℕ) : DevTask Status := do
  if !(← lookActiveZone h).isFull then return .OK
  else
    let s ← closeActiveZone h
    if !s.ok then return s
    else
      setAllocSize h left
      allocateNewZone e me h spins

/-- Bytes that bring a write of `n` bytes to the next block boundary. -/
def padSize (n : ℕ) : ℕ := (e.blockSize - n % e.blockSize) % e.blockSize

/-- Record an extent of `length` bytes that was just written, `header` bytes behind the
start of the write. -/
def addExtent (header length : ℕ) : DevTask Unit := do
  let z ← activeZone h
  let wp := (← lookActiveZone h).wp
  call (.body h fun b => { b with
    extents := b.extents ++ [⟨b.extentStart.getD (2 ^ 64 - 1) + header, length, z⟩]
    extentStart := some wp })
  call (.use z (· + length))
  call (.body h fun b => { b with fileSize := b.fileSize + length })

/-- The rounds of `BufferedAppend` and `SparseAppend` on the data that is left: a write
begins with a header for the length of the segment. -/
def segmentRounds (headerSize : ℕ) (header : ℕ → List UInt8) (spins : ℕ) :
    ℕ → List UInt8 → DevTask Status
  | 0, _ => hang
  | n + 1, left => do
    if left.isEmpty then return .OK
    else
      let wrSize := min (left.length + headerSize) (← lookActiveZone h).capacity
      let length := u32Sub wrSize headerSize
      let s ← appendZone (.file h) (← activeZone h)
        ((header length ++ left).take wrSize ++ List.replicate (padSize e wrSize) 0)
      if !s.ok then return s
      else
        addExtent h headerSize length
        let s ← nextZoneIfFull e me h spins (left.length - length)
        if !s.ok then return s
        else segmentRounds headerSize header spins n (left.drop length)

def segmentAppend (headerSize : ℕ) (header : ℕ → List UInt8) (spins : ℕ) (data : List UInt8) :
    DevTask Status := do
  setAllocSize h data.length
  let s ← ensureActiveZone e me h spins
  if !s.ok then return s else segmentRounds e me h headerSize header spins spins data

def bufferedAppend (spins : ℕ) (data : List UInt8) : DevTask Status :=
  segmentAppend e me h 0 (fun _ => []) spins data

def encodeFixed64 (n : ℕ) : List UInt8 :=
  (List.range sparseHeaderSize).map fun i => UInt8.ofNat (n / 256 ^ i)

def sparseAppend (spins : ℕ) (data : List UInt8) : DevTask Status :=
  segmentAppend e me h sparseHeaderSize encodeFixed64 spins data

def pushIfFull : DevTask Unit := do
  if (← lookActiveZone h).isFull then pushExtent h else return ()

def directRounds (spins : ℕ) : ℕ → List UInt8 → DevTask Status
  | 0, _ => hang
  | n + 1, left => do
    if left.isEmpty then return .OK
    else
      pushIfFull h
      let s ← nextZoneIfFull e me h spins left.length
      if !s.ok then return s
      else
        let wrSize := min left.length (← lookActiveZone h).capacity
        let s ← appendZone (.file h) (← activeZone h) (left.take wrSize)
        if !s.ok then return s
        else
          call (.body h fun b => { b with fileSize := b.fileSize + wrSize })
          directRounds spins n (left.drop wrSize)

def append (spins : ℕ) (data : List UInt8) : DevTask Status := do
  setAllocSize h data.length
  let s ← ensureActiveZone e me h spins
  if !s.ok then return s else directRounds e me h spins spins data

def addZoneFileRecord : DevTask Unit :=
  withLevelwiseFiles (place fun d => d.place.addZoneFileRecord e h)

def removeZoneFileRecord : DevTask Unit :=
  withLevelwiseFiles (place fun d => d.place.removeZoneFileRecord h)

def createOrUpdateRecord : DevTask Unit := do
  let f := (← look).place.info h
  if f.level < 0 then return ()
  else
    if f.isRecorded then removeZoneFileRecord h
    addZoneFileRecord e h
    place fun d => d.place.setInfo h { d.place.info h with isRecorded := true }

def closeWR : DevTask Status := do
  createOrUpdateRecord e h
  call (.body h fun b => { b with extentStart := none })
  let s ← syncFileMetadata e me h
  if !s.ok then return s
  else
    call (.startClosing h)
    let s ← closeActiveZone h
    call (.endClosing h)
    return s

def moveFileToNewLevel (level : ℤ) : DevTask Unit := do
  removeZoneFileRecord h
  place fun d => d.place.setLevel h level
  addZoneFileRecord e h

/-- `SetDeleted`. Until the mutex of the lists is taken, they hold a file that is marked. -/
def setDeleted : DevTask Unit := do
  call (.setDeleted h)
  removeZoneFileRecord h

def Zbd.readBytes (d : Zbd) (a n : ℕ) : List UInt8 := (List.range n).map fun i => d.dev (a + i)

def migrateRounds (target : ℕ) : ℕ → ℕ → ℕ → DevTask Unit
  | 0, _, _ => return ()
  | n + 1, offset, length => do
    if length = 0 then return ()
    else
      let readSize := min length (128 * 1024)
      let data := (← look).readBytes offset (readSize + padSize e readSize)
      let _ ← appendZone me target data
      migrateRounds target n (offset + data.length) (length - readSize)

def migrateData (offset length target : ℕ) : DevTask Status := do
  if offset % e.blockSize ≠ 0 then return .IOError "MigrateData offset is not aligned!\n"
  else
    migrateRounds e me target length offset length
    return .OK

def migrateExtents (selected : List (ℕ × ℕ)) : List ZoneExtent → DevTask (List ZoneExtent)
  | [] => return []
  | x :: rest => do
    if (x.start, x.length) ∉ selected then return x :: (← migrateExtents selected rest)
    else
      let d ← look
      let (s, target, _) ← takeMigrateZone e me h (d.place.info h).lifetime x.length
      if !s.ok then return x :: (← migrateExtents selected rest)
      else
        match target with
        | none =>
          let _ ← releaseMigrateZone e me none
          return x :: (← migrateExtents selected rest)
        | some z =>
          let wp := ((← look).zones z).wp
          let header := if (d.bodies h).isSparse then sparseHeaderSize else 0
          let _ ← migrateData e me (x.start - header) ((x.length + header) % 2 ^ 32) z
          if e.nameGone (← look).backendCalls then
            let _ ← releaseMigrateZone e me (some z)
            return x :: rest
          else
            call (.use z (· + x.length))
            let _ ← releaseMigrateZone e me (some z)
            return ⟨wp + header, x.length, z⟩ :: (← migrateExtents selected rest)

def dropMoved : List ZoneExtent → List ZoneExtent → DevTask Unit
  | x :: old, y :: new => do
    if x.start ≠ y.start then call (.use x.zone (· - x.length))
    dropMoved old new
  | _, _ => return ()

def syncFileExtents (old new : List ZoneExtent) : DevTask Status := do
  call (.body h fun b => { b with extents := new })
  let s ← syncFileMetadata e me h
  if !s.ok then return s
  else
    dropMoved old new
    return .OK

def migrateFileExtents (selected : List (ℕ × ℕ)) : DevTask Status := do
  if !(← tryAcquireWRLock h) then return .OK
  else
    let old := ((← look).bodies h).extents
    let new ← migrateExtents e me h selected old
    let _ ← syncFileExtents e me h old new
    call (.releaseWRLock h)
    return .OK

end ZenFs.Device
