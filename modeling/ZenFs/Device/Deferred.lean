import ZenFs.Device.Runs
import ZenFs.Device.Search
import ZenFs.Device.Zones

/-!
The error slot of the device.

The destructor of a writable file cannot return the error of its last flush. It leaves the
error in a slot of the device that every allocation looks at first.
-/

namespace ZenFs.Device

open Library Task

variable {a : Holder} {ioType : IOType} {lifetime : Lifetime} {o : Call}

section Destructor

variable (e : Setup) (me : Holder) (h : Handle) (spins : ℕ)

def flushBuffer (buffer : List UInt8) : DevTask Status := do
  if buffer.isEmpty then return .OK
  else if ((← look).bodies h).isSparse then sparseAppend e me h spins buffer
  else bufferedAppend e me h spins buffer

/-- `DataSync`; a file that writes directly has no buffer. -/
def dataSync : Option (List UInt8) → DevTask Status
  | some buffer => do
    let s ← flushBuffer e me h spins buffer
    if !s.ok then return s
    else if !((← look).bodies h).isSparse then syncFileMetadata e me h
    else return .OK
  | none => do
    pushExtent h
    return .OK

def closeInternal (isOpen : Bool) (buffer : Option (List UInt8)) : DevTask Status := do
  if !isOpen then return .OK
  else
    let s ← dataSync e me h spins buffer
    if !s.ok then return s else closeWR e me h

def destroyWritableFile (isOpen : Bool) (buffer : Option (List UInt8)) : DevTask Status := do
  let s ← closeInternal e me h spins isOpen buffer
  if !s.ok then call (.setDeferredStatus s)
  return s

end Destructor

variable {e : Setup} {d t : Zbd}

/-- The slot is only ever given an error: the destructor is the one place that writes it. -/
def reportsErrors (_ : Zbd) : Call → Prop
  | .setDeferredStatus s => s.ok = false
  | _ => True

theorem callStep_deferred (hd : d.deferredStatus.ok = false) (ho : reportsErrors d o)
    (h : callStep e d o = some t) : t.deferredStatus.ok = false := by
  obtain ⟨⟨r, t⟩, hr, rfl⟩ := Option.map_eq_some_iff.mp h
  cases o with
  | setDeferredStatus s =>
    cases hr
    rw [Zbd.setDeferredStatus, if_pos (by rw [hd]; rfl)]
    exact ho
  | _ =>
    rw [exec_writes hr]
    exact hd

theorem allocateIOZone_deferred {h : Handle} {spins : ℕ}
    (hlock : d.locked .alloc = false) (hd : d.deferredStatus.ok = false) :
    (allocateIOZone e a h spins lifetime ioType).Returns (exec e) d
      fun r _ => r.1.ok = false := by
  have hlocked : (allocateIOZoneLocked e a h spins lifetime ioType).Returns (exec e)
      (d.setLocked .alloc true) fun r _ => r.1.ok = false := by
    apply returns_call rfl
    apply returns_look
    rw [if_pos (by exact congrArg not hd)]
    exact .ret hd
  apply returns_call (o := .lock .alloc) (t := d.setLocked .alloc true) (by rw [exec, hlock]; rfl)
  apply hlocked.seq
  intro r t hr
  exact returns_call rfl (.ret hr)

/-- Whatever happens after an error was reported to a device whose slot is `ok` or not, no
later allocation succeeds. -/
def ErrorsStick (ok : Bool) : Prop :=
  ∀ (e : Setup) (d t : Zbd) (s : Status), d.deferredStatus.ok = ok → s.ok = false →
    Reaches (callStep e) reportsErrors (d.setDeferredStatus s) t → t.locked .alloc = false →
    ∀ (a : Holder) (h : Handle) (spins : ℕ) (lifetime : Lifetime) (ioType : IOType),
      (allocateIOZone e a h spins lifetime ioType).Returns (exec e) t fun r _ => r.1.ok = false

/-- The second write fails. The first one of a flush into a new zone is the record that the
allocation persists, and the second one writes the data. -/
def dataWriteFails : Setup :=
  { smallSetup .caza with
    backend := fun n => ⟨if n = 1 then .IOError "Input/output error" else .OK, 0, false, 64⟩ }

end ZenFs.Device
