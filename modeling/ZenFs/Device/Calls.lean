import ZenFs.Device.Records
import ZenFs.Library.Tasks

/-!
The calls the code makes on the device, each of them one atomic step.

`Acquire` and `Release` are compare-and-swap operations on the busy flag. What a
function does to the placement data under `levelwise_files_mtx_` is one call. Reading the
device is one too, so that other threads may come in between a test and what follows.
-/

namespace ZenFs.Device

open Library Function

/-- The calls. Those that concern a zone say for whom they are made. -/
inductive Call
  /-- Read the device. -/
  | look
  | acquire (a : Holder) (z : ℕ)
  /-- `Release` and `CheckRelease`. -/
  | release (a : Holder) (z : ℕ)
  /-- `SetActiveZone`: the zone passes from its holder to the file. -/
  | setActiveZone (a : Holder) (h : Handle) (z : ℕ)
  /-- Clear `active_zone_`. -/
  | clearActiveZone (h : Handle)
  /-- Make a `ZenMetaLog`: the zone passes from its holder to the log object. -/
  | newMetaLog (a : Holder) (log : MetaLogObject)
  | reset (a : Holder) (z : ℕ)
  | finish (a : Holder) (z : ℕ)
  | close (a : Holder) (z : ℕ)
  | append (a : Holder) (z : ℕ) (data : List UInt8)
  /-- Set `lifetime_`, `policy_` and `level_`. -/
  | tag (z : ℕ) (lifetime : Lifetime) (policy : Policy) (level : ℤ)
  /-- Add to or take from `used_capacity_`. -/
  | use (z : ℕ) (f : ℕ → ℕ)
  /-- Change the placement data and pass on some files in order. -/
  | place (f : Zbd → Placement × List Handle)
  /-- Change the body of a file other than its active zone. -/
  | body (h : Handle) (f : FileBody → FileBody)
  | lock (m : Mutex)
  | unlock (m : Mutex)
  | acquireWRLock (h : Handle)
  | tryAcquireWRLock (h : Handle)
  | releaseWRLock (h : Handle)
  /-- `ReleaseWRLock` in `CloseWR`. -/
  | startClosing (h : Handle)
  /-- `CloseWR` returns. -/
  | endClosing (h : Handle)
  | waitForOpenIOZoneToken (prioritized : Bool)
  | getActiveIOZoneTokenIfAvailable
  | putOpenIOZoneToken
  | putActiveIOZoneToken
  /-- Take `migrate_zone_mtx_`, wait until no migration is under way and set `migrating_`. -/
  | startMigrating
  | stopMigrating
  | setZonePos (n : ℕ)
  | shuffle
  | setMetaLog (log : MetaLogObject)
  /-- Make the object of a new file, with a `shared_ptr` for thread `i`. -/
  | newFile (i : ℕ) (h : Handle)
  /-- `GetFileNoLock`: whether the file has a name, and a `shared_ptr` if so. -/
  | getFile (i : ℕ) (h : Handle)
  /-- Let go of the `shared_ptr`; whether it was the last one. -/
  | dropFile (i : ℕ) (h : Handle)
  | addLink (h : Handle)
  | removeLink (h : Handle)
  /-- Set `is_deleted_`, which `SetDeleted` does without a lock of its own. -/
  | setDeleted (h : Handle)
  | setDeferredStatus (s : Status)
  /-- Never returns: a call through a null pointer, or a loop that has not ended. -/
  | hang

def Call.Res : Call → Type
  | look => Zbd
  | acquire _ _ => Bool
  | release _ _ => Bool
  | reset _ _ => Status
  | finish _ _ => Status
  | close _ _ => Status
  | append _ _ _ => Status
  | place _ => Zbd × List Handle
  | tryAcquireWRLock _ => Bool
  | getActiveIOZoneTokenIfAvailable => Bool
  | shuffle => ℕ
  | getFile _ _ => Bool
  | dropFile _ _ => Bool
  | hang => Empty
  | _ => Unit

abbrev DevTask := Task Call.Res

namespace Zbd

variable (e : Setup) (d : Zbd)

def setZone (z : ℕ) (zone : Zone) : Zbd := { d with zones := Function.update d.zones z zone }

def setPlace (p : Placement) : Zbd := { d with place := p }

def acquire (a : Holder) (z : ℕ) : Bool × Zbd :=
  if (d.zones z).busy then (false, d)
  else (true, { d.setZone z { d.zones z with busy := true } with
    holders := Function.update d.holders z (a :: d.holders z) })

def release (a : Holder) (z : ℕ) : Bool × Zbd :=
  if (d.zones z).busy then
    (true, { d.setZone z { d.zones z with busy := false } with
      holders := Function.update d.holders z ((d.holders z).erase a) })
  else (false, d)

def handOver (a b : Holder) (z : ℕ) : Zbd :=
  { d with holders := Function.update d.holders z (b :: (d.holders z).erase a) }

def answer : Answer := e.backend d.backendCalls

def calledBackend : Zbd := { d with backendCalls := d.backendCalls + 1 }

def reset (z : ℕ) : Status × Zbd :=
  let a := d.answer e
  if !a.status.ok then (a.status, d.calledBackend)
  else
    let zone := d.zones z
    let zone :=
      if a.offline then { zone with capacity := 0 }
      else { zone with capacity := a.maxCapacity, maxCapacity := a.maxCapacity }
    (.OK, { d.calledBackend.setZone z { zone with
        wp := e.start z, lifetime := .notSet, resetCount := zone.resetCount + 1 } with
      dev := fun x => if e.Within z x then 0 else d.dev x })

def finish (z : ℕ) : Status × Zbd :=
  let a := d.answer e
  if !a.status.ok then (a.status, d.calledBackend)
  else (.OK, d.calledBackend.setZone z { d.zones z with
    capacity := 0, wp := e.start z + e.zoneSize })

def close (z : ℕ) : Status × Zbd :=
  if (d.zones z).isEmpty (e.start z) || (d.zones z).isFull then (.OK, d)
  else ((d.answer e).status, d.calledBackend)

def writeBytes (dev : ℕ → UInt8) (a : ℕ) (data : List UInt8) : ℕ → UInt8 :=
  fun x => if a ≤ x then (data[x - a]?).getD (dev x) else dev x

/-- `Zone::Append`. A write that fails may have stored a first part of the data. -/
def append (z : ℕ) (data : List UInt8) : Status × Zbd :=
  let zone := d.zones z
  if zone.capacity < data.length then (.NoSpace "Not enough capacity for append", d)
  else if data.isEmpty then (.OK, d)
  else
    let a := d.answer e
    let stored := if a.status.ok then data else data.take (min a.stored (data.length - 1))
    (if a.status.ok then .OK else a.status,
      { d.calledBackend.setZone z { zone with
          wp := zone.wp + stored.length, capacity := zone.capacity - stored.length } with
        dev := writeBytes d.dev zone.wp stored })

def tag (z : ℕ) (lifetime : Lifetime) (policy : Policy) (level : ℤ) : Zbd :=
  d.setZone z { d.zones z with lifetime := lifetime, policy := policy, level := level }

def use (z : ℕ) (f : ℕ → ℕ) : Zbd :=
  d.setZone z { d.zones z with usedCapacity := f (d.zones z).usedCapacity }

def setBody (h : Handle) (b : FileBody) : Zbd :=
  { d with bodies := Function.update d.bodies h b }

def putActiveZone (h : Handle) (z : Option ℕ) : Zbd :=
  d.setBody h { d.bodies h with activeZone := z }

def onBody (h : Handle) (f : FileBody → FileBody) : Zbd :=
  d.setBody h { f (d.bodies h) with activeZone := (d.bodies h).activeZone }

def setLocked (m : Mutex) (b : Bool) : Zbd := { d with locked := Function.update d.locked m b }

def setWrLocked (h : Handle) (b : Bool) : Zbd :=
  { d with wrLocked := Function.update d.wrLocked h b }

def setClosing (h : Handle) (n : ℕ) : Zbd :=
  { d with closing := Function.update d.closing h n }

def setPins (h : Handle) (l : List ℕ) : Zbd := { d with pins := Function.update d.pins h l }

def setLinks (h : Handle) (n : ℕ) : Zbd := { d with links := Function.update d.links h n }

/-- The object of the file exists: it has a name, or a thread has a `shared_ptr`. -/
def Exists (h : Handle) : Prop := 0 < d.links h ∨ d.pins h ≠ []

instance (h : Handle) : Decidable (d.Exists h) := inferInstanceAs (Decidable (_ ∨ _))

def setDeferredStatus (s : Status) : Zbd :=
  if !d.deferredStatus.ok then { d with deferredStatus := s } else d

end Zbd

/-- Execute a call. There is no answer when the call has to wait. -/
def exec (e : Setup) : (o : Call) → Zbd → Option (o.Res × Zbd)
  | .look, d => some (d, d)
  | .acquire a z, d => some (d.acquire a z)
  | .release a z, d => some (d.release a z)
  | .setActiveZone a h z, d =>
    some ((), (d.handOver a (.file h) z).putActiveZone h (some z))
  | .clearActiveZone h, d => some ((), d.putActiveZone h none)
  | .newMetaLog a l, d => some ((), d.handOver a (.log l.serial) l.zone)
  | .reset _ z, d => some (d.reset e z)
  | .finish _ z, d => some (d.finish e z)
  | .close _ z, d => some (d.close e z)
  | .append _ z data, d => some (d.append e z data)
  | .tag z lifetime policy level, d => some ((), d.tag z lifetime policy level)
  | .use z f, d => some ((), d.use z f)
  | .place f, d => some ((d.setPlace (f d).1, (f d).2), d.setPlace (f d).1)
  | .body h f, d => some ((), d.onBody h f)
  | .lock m, d => if d.locked m then none else some ((), d.setLocked m true)
  | .unlock m, d => some ((), d.setLocked m false)
  | .acquireWRLock h, d => if d.wrLocked h then none else some ((), d.setWrLocked h true)
  | .tryAcquireWRLock h, d =>
    if d.wrLocked h then some (false, d) else some (true, d.setWrLocked h true)
  | .releaseWRLock h, d => some ((), d.setWrLocked h false)
  | .startClosing h, d =>
    some ((), (d.setWrLocked h false).setClosing h (d.closing h + 1))
  | .endClosing h, d => some ((), d.setClosing h (d.closing h - 1))
  | .waitForOpenIOZoneToken prioritized, d =>
    if d.openIoZones < e.allocatorOpenLimit prioritized then
      some ((), { d with openIoZones := d.openIoZones + 1 })
    else none
  | .getActiveIOZoneTokenIfAvailable, d =>
    if d.activeIoZones < e.maxNrActiveIoZones then
      some (true, { d with activeIoZones := d.activeIoZones + 1 })
    else some (false, d)
  | .putOpenIOZoneToken, d => some ((), { d with openIoZones := d.openIoZones - 1 })
  | .putActiveIOZoneToken, d => some ((), { d with activeIoZones := d.activeIoZones - 1 })
  | .startMigrating, d =>
    if d.migrating || d.locked .migrateZone then none
    else some ((), { d.setLocked .migrateZone true with migrating := true })
  | .stopMigrating, d => some ((), { d with migrating := false })
  | .setZonePos n, d => some ((), { d with zonePos := n })
  | .shuffle, d => some (d.shuffles, { d with shuffles := d.shuffles + 1 })
  | .setMetaLog l, d => some ((), { d with metaLog := l })
  | .newFile i h, d =>
    if d.created h then none
    else some ((), { d.setPins h [i] with created := Function.update d.created h true })
  | .getFile i h, d =>
    if d.links h = 0 then some (false, d) else some (true, d.setPins h (i :: d.pins h))
  | .dropFile i h, d =>
    let t := d.setPins h ((d.pins h).erase i)
    some (!decide (t.Exists h), t)
  | .addLink h, d => some ((), d.setLinks h (d.links h + 1))
  | .removeLink h, d => some ((), d.setLinks h (d.links h - 1))
  | .setDeleted h, d => some ((), d.setPlace (d.place.mark h))
  | .setDeferredStatus s, d => some ((), d.setDeferredStatus s)
  | .hang, _ => none

def call (o : Call) : DevTask o.Res := Task.op o

def look : DevTask Zbd := call .look

def acquire (a : Holder) (z : ℕ) : DevTask Bool := call (.acquire a z)

def release (a : Holder) (z : ℕ) : DevTask Bool := call (.release a z)

def resetZone (a : Holder) (z : ℕ) : DevTask Status := call (.reset a z)

def finishZone (a : Holder) (z : ℕ) : DevTask Status := call (.finish a z)

def closeZone (a : Holder) (z : ℕ) : DevTask Status := call (.close a z)

def appendZone (a : Holder) (z : ℕ) (data : List UInt8) : DevTask Status :=
  call (.append a z data)

/-- Change the placement data, and get the device that results and the files passed on. -/
def rank (f : Zbd → Placement × List Handle) : DevTask (Zbd × List Handle) := call (.place f)

def place (f : Zbd → Placement) : DevTask Unit := do
  let _ ← rank fun d => (f d, [])

def tryAcquireWRLock (h : Handle) : DevTask Bool := call (.tryAcquireWRLock h)

def getActiveIOZoneTokenIfAvailable : DevTask Bool := call .getActiveIOZoneTokenIfAvailable

def putOpenIOZoneToken : DevTask Unit := call .putOpenIOZoneToken

def putActiveIOZoneToken : DevTask Unit := call .putActiveIOZoneToken

def nextShuffle : DevTask ℕ := call .shuffle

def getFile (i : ℕ) (h : Handle) : DevTask Bool := call (.getFile i h)

def dropFile (i : ℕ) (h : Handle) : DevTask Bool := call (.dropFile i h)

def hang {α : Type} : DevTask α := .call .hang nofun

def callStep (e : Setup) (d : Zbd) (o : Call) : Option Zbd := (exec e o d).map (·.2)

end ZenFs.Device
