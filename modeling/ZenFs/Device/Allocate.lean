import ZenFs.Device.Policies

/-!
Allocation of zones: for a file that is being written, for an extent that is being
migrated, and for the metadata log.
-/

namespace ZenFs.Device

open Library

variable (e : Setup) (me : Holder) (h : Handle)

def raiseIf (c : Bool) (n best : ℕ) : ℕ := if c then max n best else best

/-- How `GetBestOpenZoneMatch` raises the score after the fallback policy: some primary
policies ask for a new zone when they found none. `level` is the file's level before and
`now` its level after the policies ran. -/
def raiseBest (primary : Policy) (highTombstone : Bool) (maxLevel : ℕ) (level now : ℤ)
    (best : ℕ) : ℕ :=
  let worse := lifetimeDiffCouldBeWorse
  let best := raiseIf (primary = .arrivalTimeBased || primary = .clusterTogether) worse best
  let best := raiseIf (primary = .tombstoneDensity && highTombstone) worse best
  let best := raiseIf (primary = .caza && e.realCaza) worse best
  let best := raiseIf (primary = .oaza && e.realOaza && level < maxLevel && now > level)
    lifetimeDiffNotGood best
  raiseIf (primary = .oaza && !e.realOaza && now < maxLevel) worse best

def getBestOpenZoneMatch (lifetime : Lifetime) (best minCapacity : ℕ) : DevTask Match := do
  let d ← look
  let f := d.place.info h
  if !f.listed then matchLifetimeBased e me lifetime best none 0
  else
    let primary := e.getPolicy f.level
    let fallback := e.getSecondaryPolicy f.level
    let (s, best, zone) ← matchBy e me h primary lifetime best none minCapacity
    if zone.isSome then return (s, best, zone)
    else
      let (s, best, zone) ← matchBy e me h fallback lifetime best none minCapacity
      let now := (← look).place
      let best := raiseBest e primary (now.isHighTombstone e h) d.place.maxLevel f.level
        (now.info h).level best
      if zone.isSome then return (s, best, zone)
      else
        let (s, best, zone) ← matchLifetimeBased e me lifetime best none minCapacity
        return (s, max lifetimeDiffCouldBeWorse best, zone)

/-- Finish zones until a token for an active zone is free. The number of rounds has no
bound in the source. -/
def waitForActiveToken : ℕ → DevTask Status
  | 0 => hang
  | n + 1 => do
    if ← getActiveIOZoneTokenIfAvailable then return .OK
    else
      let s ← finishCheapestIOZone e me
      if !s.ok then return s else waitForActiveToken n

def openNewZone (spins : ℕ) (lifetime : Lifetime) (gotToken : Bool) :
    DevTask (Status × Option ℕ) := do
  let s ← (if gotToken then pure .OK else waitForActiveToken e me spins)
  if !s.ok then
    putOpenIOZoneToken
    return (s, none)
  else
    let (s, zone) ← allocateEmptyZone e me ((← look).place.info h).level
    if !s.ok then
      putActiveIOZoneToken
      putOpenIOZoneToken
      return (s, none)
    else
      match zone with
      | none =>
        putActiveIOZoneToken
        putOpenIOZoneToken
        return (.OK, none)
      | some z =>
        let level := ((← look).place.info h).level
        call (.tag z lifetime (e.getPolicy level) level)
        return (.OK, some z)

/-- The part of `AllocateIOZone` after a zone was matched with a score that is not good. -/
def reconsider (spins : ℕ) (lifetime : Lifetime) (best : ℕ) (zone : Option ℕ) :
    DevTask (Status × Option ℕ) := do
  let gotToken ← getActiveIOZoneTokenIfAvailable
  match zone with
  | none => openNewZone e me h spins lifetime gotToken
  | some z =>
    if !gotToken && best = lifetimeDiffCouldBeWorse then return (.OK, some z)
    else if (← look).getEmptyZoneCount e > e.reserveZoneCount then
      let s ← checkRelease e me z
      if !s.ok then
        putOpenIOZoneToken
        if gotToken then putActiveIOZoneToken
        return (s, none)
      else openNewZone e me h spins lifetime gotToken
    else
      if gotToken then putActiveIOZoneToken
      return (.OK, some z)

def allocateIOZoneLocked (spins : ℕ) (lifetime : Lifetime) (ioType : IOType) :
    DevTask (Status × Option ℕ) := do
  place fun d => d.place.raiseMaxLevel (d.place.info h).level
  let deferred := (← look).deferredStatus
  if !deferred.ok then return (deferred, none)
  else
    let s ← (if ioType ≠ .wal then applyFinishThreshold e me else pure .OK)
    if !s.ok then return (s, none)
    else
      call (.waitForOpenIOZoneToken (ioType = .wal))
      let allocSize := ((← look).place.info h).allocSize % 2 ^ 32
      let (s, best, zone) ← getBestOpenZoneMatch e me h lifetime lifetimeDiffNotGood
        (if e.fragmentationEnabled then 0 else allocSize)
      if !s.ok then
        putOpenIOZoneToken
        return (s, none)
      else if best ≥ lifetimeDiffCouldBeWorse then reconsider e me h spins lifetime best zone
      else
        if zone.isNone then putOpenIOZoneToken
        return (.OK, zone)

def allocateIOZone (spins : ℕ) (lifetime : Lifetime) (ioType : IOType) :
    DevTask (Status × Option ℕ) := do
  call (.lock .alloc)
  let r ← allocateIOZoneLocked e me h spins lifetime ioType
  call (.unlock .alloc)
  return r

def takeMigrateZone (lifetime : Lifetime) (minCapacity : ℕ) :
    DevTask (Status × Option ℕ × Bool) := do
  call .startMigrating
  let (s, _, zone) ← getBestOpenZoneMatch e me h lifetime lifetimeDiffNotGood
    (minCapacity % 2 ^ 32)
  if s.ok && zone.isSome then
    call (.unlock .migrateZone)
    return (s, zone, false)
  else
    let enough := (← look).getEmptyZoneCount e > 0
    let token ← (if enough then getActiveIOZoneTokenIfAvailable else pure false)
    if token then
      let (t, new) ← allocateEmptyZone e me ((← look).place.info h).level
      match if t.ok then new else zone with
      | none => hang
      | some z =>
        call (.unlock .migrateZone)
        return (s, some z, true)
    else
      call .stopMigrating
      call (.unlock .migrateZone)
      return (s, zone, false)

def releaseMigrateZone (zone : Option ℕ) : DevTask Status := do
  call (.lock .migrateZone)
  call .stopMigrating
  let s ← (match zone with
    | none => pure .OK
    | some z => checkRelease e me z)
  call (.unlock .migrateZone)
  return s

def unlessFull (z : ℕ) (m : DevTask Status) : DevTask Unit := do
  if ((← look).zones z).isFull then return ()
  else
    let _ ← m

def writeRoll (old new : MetaLogObject) (r : RollRecords) : DevTask Status := do
  unlessFull old.zone (appendZone (.log old.serial) old.zone r.endRecord)
  unlessFull old.zone (finishZone (.log old.serial) old.zone)
  let s ← appendZone (.log new.serial) new.zone r.superblock
  if !s.ok then return .IOError "Failed writing a new superblock"
  else
    let s ← appendZone (.log new.serial) new.zone r.snapshot
    if s.ok then
      let _ ← resetZone (.log old.serial) old.zone
    return s

/-- `RollMetaZoneLocked`. The old log object is destroyed on return, which releases its
zone. -/
def rollMetaZoneLocked : DevTask Status := do
  let (s, zone) ← allocateMetaZone e me
  if !s.ok then return s
  else
    match zone with
    | none => return .NoSpace "Out of metadata zones"
    | some z =>
      let d ← look
      let old := d.metaLog
      let new : MetaLogObject := ⟨old.serial + 1, z⟩
      call (.newMetaLog me new)
      call (.setMetaLog new)
      let s ← writeRoll old new (e.roll d.backendCalls)
      let _ ← release (.log old.serial) old.zone
      return s

structure Roll where
  old : MetaLogObject
  new : MetaLogObject
  records : RollRecords

def rollSteps : RollSteps DevTask ℕ Roll where
  allocateMetaZone := allocateMetaZone e me
  swap z := do
    let d ← look
    let new : MetaLogObject := ⟨d.metaLog.serial + 1, z⟩
    call (.newMetaLog me new)
    call (.setMetaLog new)
    return ⟨d.metaLog, new, e.roll d.backendCalls⟩
  writeEndRecord k :=
    unlessFull k.old.zone (appendZone (.log k.old.serial) k.old.zone k.records.endRecord)
  finish k := unlessFull k.old.zone (finishZone (.log k.old.serial) k.old.zone)
  addSuperblock k := appendZone (.log k.new.serial) k.new.zone k.records.superblock
  writeSnapshotLocked k := appendZone (.log k.new.serial) k.new.zone k.records.snapshot
  reset k := resetZone (.log k.old.serial) k.old.zone
  release k := do
    let _ ← release (.log k.old.serial) k.old.zone

def persistRecord : DevTask Status := do
  call (.lock .metadataSync)
  let d ← look
  let s ← appendZone (.log d.metaLog.serial) d.metaLog.zone (e.record d.backendCalls)
  let s ← (if s.isNoSpace then rollMetaZoneLocked e me else pure s)
  call (.unlock .metadataSync)
  return s

theorem rollMetaZoneLocked_eq :
    rollMetaZoneLocked e me = (rollSteps e me).rollMetaZoneLocked := by
  rw [rollMetaZoneLocked, RollSteps.rollMetaZoneLocked]
  congr 1
  funext r
  obtain ⟨s, zone⟩ := r
  cases zone with
  | none => rfl
  | some z =>
    simp only [writeRoll, RollSteps.writeRoll, rollSteps, bind_assoc]
    rfl

/-- `PersistRecord` on the zones of the device follows the order of the steps, under its mutex. -/
theorem persistRecord_eq : persistRecord e me = (do
    call (.lock .metadataSync)
    let s ← (rollSteps e me).persistRecord (do
      let d ← look
      appendZone (.log d.metaLog.serial) d.metaLog.zone (e.record d.backendCalls))
    call (.unlock .metadataSync)
    return s) := by
  simp only [persistRecord, RollSteps.persistRecord, ← rollMetaZoneLocked_eq, bind_assoc]

end ZenFs.Device
