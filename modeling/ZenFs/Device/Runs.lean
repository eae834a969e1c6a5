import ZenFs.Device.Files

/-!
The device under a sequence of operations, one after the other.

Handles stand for file objects. Each object starts with the values its members are
initialised to; `create` gives it what `OpenWritableFile` sets on a new file.
-/

namespace ZenFs.Device

open Library

variable {y z : ℕ}

inductive Operation
  | create (h : Handle) (ioType : IOType) (sparse : Bool)
  /-- Take the writer lock, on a new file or on reopening one. -/
  | openForWrite (h : Handle)
  | setWriteLifeTimeHint (h : Handle) (lifetime : Lifetime)
  | setLevel (h : Handle) (level : ℤ)
  | updateInternalKeys (h : Handle) (key : Key)
  | updateInternalKeysRange (h : Handle) (start stop : Key)
  | updateMetadata (h : Handle) (numEntries numDeletions numRangeDeletions fileSize
      compensatedRangeDeletionSize averageValueSize : ℕ)
  | bufferedAppend (h : Handle) (data : List UInt8)
  | sparseAppend (h : Handle) (data : List UInt8)
  | append (h : Handle) (data : List UInt8)
  | pushExtent (h : Handle)
  | persistMetadata (h : Handle)
  | closeWR (h : Handle)
  | moveFileToNewLevel (h : Handle) (level : ℤ)
  | migrateFileExtents (h : Handle) (selected : List (ℕ × ℕ))
  | setDeleted (h : Handle)
  /-- The destruction of the object. -/
  | clearExtents (h : Handle)
  | resetUnusedIOZones

def onInfo (h : Handle) (f : FileInfo → FileInfo) : DevTask Unit :=
  place fun d => d.place.setInfo h (f (d.place.info h))

def clearExtents (h : Handle) : DevTask Unit := do
  let rec drop : List ZoneExtent → DevTask Unit
    | [] => return ()
    | x :: rest => do
      call (.use x.zone (· - x.length))
      drop rest
  drop ((← look).bodies h).extents
  call (.body h fun b => { b with extents := [] })

def ignore {α : Type} (m : DevTask α) : DevTask Unit := do
  let _ ← m

/-- The thread that takes the operations one after the other. -/
def me : Holder := .thread 0

/-- The program of an operation; `spins` bounds the rounds of the loops that the source
leaves unbounded. -/
def programOf (e : Setup) (a : Holder) (spins : ℕ) : Operation → DevTask Unit
  | .create h ioType sparse => do
    onInfo h ({ · with ioType := ioType })
    call (.body h ({ · with isSparse := sparse }))
  | .openForWrite h => call (.acquireWRLock h)
  | .setWriteLifeTimeHint h lifetime => onInfo h ({ · with lifetime := lifetime })
  | .setLevel h level => onInfo h ({ · with level := level })
  | .updateInternalKeys h key => onInfo h (·.updateInternalKeys key)
  | .updateInternalKeysRange h start stop => onInfo h (·.updateInternalKeysRange e start stop)
  | .updateMetadata h entries deletions ranges size compensated average => do
    onInfo h (·.updateMetadata entries deletions ranges size compensated)
    if average ≠ 0 then place fun d => { d.place with averageValueSize := average }
  | .bufferedAppend h data => ignore <| bufferedAppend e a h spins data
  | .sparseAppend h data => ignore <| sparseAppend e a h spins data
  | .append h data => ignore <| append e a h spins data
  | .pushExtent h => pushExtent h
  | .persistMetadata h => ignore <| syncFileMetadata e a h
  | .closeWR h => ignore <| closeWR e a h
  | .moveFileToNewLevel h level => moveFileToNewLevel e h level
  | .migrateFileExtents h selected => ignore <| migrateFileExtents e a h selected
  | .setDeleted h => setDeleted h
  | .clearExtents h => clearExtents h
  | .resetUnusedIOZones => ignore <| resetUnusedIOZones e a

def step (e : Setup) (d : Zbd) (a : Operation × ℕ) : Option Zbd :=
  ((programOf e me a.2 a.1).run (exec e) d).map (·.2)

theorem ends_ignore {e : Setup} {d : Zbd} {α : Type} {m : DevTask α} {Q : Zbd → Prop}
    (hm : m.Ends (exec e) d fun _ t => Q t) : (ignore m).Ends (exec e) d fun _ t => Q t :=
  .bind (hm.mono fun _ _ ht => .ret ht)

theorem step_ends {e : Setup} {d t : Zbd} {a : Operation × ℕ} {Q : Zbd → Prop}
    (h : step e d a = some t) (hq : (programOf e me a.2 a.1).Ends (exec e) d fun _ t => Q t) :
    Q t := by
  obtain ⟨p, hp, rfl⟩ := Option.map_eq_some_iff.mp h
  exact hq p.1 p.2 hp

def compareKeys (a b : Key) : ℤ := if a < b then -1 else if a = b then 0 else 1

def smallSetup (policy : Policy) : Setup where
  toGeometry := .small
  nearestNewzoneThreshold := 0
  emptyZoneAllocator := .default
  realCaza := true
  realOaza := true
  minBoundary := 2
  maxBoundary := 6
  tombstoneDensity := 1 / 2
  upperLevelPolicy := policy
  upperLevelPolicyFallback := .lifetimeBased
  lowerLevelPolicy := .lifetimeBased
  lowerLevelPolicyFallback := .lifetimeBased
  middleLevelPolicy := .lifetimeBased
  middleLevelPolicyFallback := .lifetimeBased
  fragmentationEnabled := true
  reserveZoneCount := 0
  finishThreshold := 0
  maxNrActiveIoZones := 2
  maxNrOpenIoZones := 2
  sstableKeyCompare := compareKeys
  internalCompare := compareKeys
  backend _ := ⟨.OK, 0, false, 64⟩
  shuffle _ l := l
  shuffle_perm _ l := .refl l
  record _ := List.replicate 16 0
  roll _ := ⟨List.replicate 16 0, List.replicate 16 0, List.replicate 16 0⟩
  nameGone _ := false

theorem smallSetup_accepted (policy : Policy) : (smallSetup policy).Accepted := by
  have hhalf : (0 : ℚ) ≤ 1 / 2 ∧ (1 / 2 : ℚ) ≤ 1 := by decide +kernel
  have hzero : (0 : ℚ) ≤ 0 ∧ (0 : ℚ) ≤ 1 := by decide +kernel
  have hbounds : 2 < 6 ∧ 6 ≤ 100 := by decide
  have hsmall : 2 < 100 ∧ 0 < 100 := by decide
  exact ⟨hzero, hhalf, hsmall.1, hbounds, hsmall.2⟩

/-- The small device after a mount: all zones are empty, the first metadata zone has the
log, and there are no files. -/
def smallDevice : Zbd where
  zones z :=
    { capacity := 64, wp := z * 64, busy := z = 2, lifetime := .notSet, level := -1,
      maxCapacity := 64, usedCapacity := 0, resetCount := 0, policy := .lifetimeBased }
  dev _ := 0
  bodies _ := .new
  place := ⟨fun _ => .new, [], 1, 4080⟩
  openIoZones := 0
  activeIoZones := 0
  migrating := false
  deferredStatus := .OK
  zonePos := 0
  shuffles := 0
  backendCalls := 0
  locked _ := false
  wrLocked _ := false
  created _ := false
  links _ := 0
  pins _ := []
  metaLog := ⟨0, 2⟩
  holders z := if z = 2 then [.log 0] else []
  closing _ := 0

theorem fourZones_disjoint (h : y < z) : y * 64 + 64 ≤ z * 64 := by omega

theorem fourZones_addressable (z : ℕ) (h : z < 4) : z * 64 + 64 < 2 ^ 63 := by omega

def fourZones (policy : Policy) : Setup :=
  { smallSetup policy with
    nrZones := 4
    disjoint := fun _ _ _ _ => fourZones_disjoint
    addressable := fourZones_addressable }

/-- Four zones in use. The files 2 and 3 of level 0 and the file 4 of level 1 have data in the
first two, another thread holds the third, and the fourth is empty. The file 1 is to be written,
with keys between those of 2 and 3. -/
def busyDevice : Zbd :=
  { smallDevice with
    zones := fun z =>
      if z = 0 then { smallDevice.zones 0 with capacity := 16, wp := 48, usedCapacity := 48 }
      else if z = 1 then { smallDevice.zones 1 with capacity := 32, wp := 96, usedCapacity := 32 }
      else { smallDevice.zones z with busy := z = 2 ∨ z = 4 }
    bodies := fun g =>
      if g = 2 then { FileBody.new with extents := [⟨64, 16, 1⟩], fileSize := 16 }
      else if g = 3 then { FileBody.new with extents := [⟨0, 32, 0⟩, ⟨32, 16, 0⟩], fileSize := 48 }
      else if g = 4 then { FileBody.new with extents := [⟨80, 16, 1⟩], fileSize := 16 }
      else .new
    place :=
      { info := fun g =>
          { FileInfo.new with
            level := if g = 4 then 1 else 0
            hasKeys := true
            ioType := .data
            smallest := if g = 1 then [25] else [UInt8.ofNat (10 * g)]
            largest := if g = 1 then [28] else [UInt8.ofNat (10 * g + 2)] }
        lists := [[2, 1, 3], [4]]
        maxLevel := 1
        averageValueSize := 4080 }
    metaLog := ⟨0, 4⟩
    holders := fun z => if z = 2 then [.thread 7] else if z = 4 then [.log 0] else [] }

def openSst (h : Handle) (key : Key) : List (Operation × ℕ) :=
  [(.create h .data false, 9), (.openForWrite h, 9), (.setLevel h 0, 9),
    (.updateInternalKeys h key, 9)]

end ZenFs.Device
