import ZenFs.Device.Calls

/-!
The loops that look for a zone.

Each of them tries to acquire one zone after another, keeps at most one and releases the
others. They differ in what they look for and in when a later zone replaces the one they
keep.
-/

namespace ZenFs.Device

open Library

variable (e : Setup) (me : Holder)

def checkRelease (z : ℕ) : DevTask Status := do
  if ← release me z then return .OK
  else return .Corruption s!"Failed to unset busy flag of zone {e.start z / e.zoneSize}"

/-- The loop of the policies. An item names a zone; `accept` says whether the zone takes
the place of the one kept so far, and the new score. -/
def bestZone {τ β : Type} (zoneOf : τ → ℕ) (accept : Zbd → τ → β → Option β) :
    List τ → Option ℕ → β → DevTask (Status × Option ℕ × β)
  | [], kept, best => return (.OK, kept, best)
  | x :: rest, kept, best => do
    let z := zoneOf x
    if !(← acquire me z) then bestZone zoneOf accept rest kept best
    else
      match accept (← look) x best, kept with
      | some best', none => bestZone zoneOf accept rest (some z) best'
      | some best', some y =>
        let s ← checkRelease e me y
        if !s.ok then
          let s' ← checkRelease e me z
          return (if !s'.ok then s' else s, kept, best)
        else bestZone zoneOf accept rest (some z) best'
      | none, _ =>
        let s ← checkRelease e me z
        if !s.ok then return (s, kept, best)
        else bestZone zoneOf accept rest kept best

/-- The loop that keeps the cheapest of the zones that pass a test: `better y z` says that
`z` replaces `y`. -/
def cheapestZone (test : ℕ → Zone → Bool) (better : Zone → Zone → Bool) :
    List ℕ → Option ℕ → DevTask (Status × Option ℕ)
  | [], kept => return (.OK, kept)
  | z :: rest, kept => do
    if !(← acquire me z) then cheapestZone test better rest kept
    else
      let d ← look
      if !test z (d.zones z) then
        let s ← checkRelease e me z
        if !s.ok then return (s, kept) else cheapestZone test better rest kept
      else
        match kept with
        | none => cheapestZone test better rest (some z)
        | some y =>
          if better (d.zones y) (d.zones z) then
            let s ← checkRelease e me y
            if !s.ok then return (s, kept) else cheapestZone test better rest (some z)
          else
            let s ← checkRelease e me z
            if !s.ok then return (s, kept) else cheapestZone test better rest kept

/-- The loop that stops at the first empty zone and tells how many items it passed. -/
def firstEmptyZone : List ℕ → ℕ → DevTask (Status × Option (ℕ × ℕ))
  | [], _ => return (.OK, none)
  | z :: rest, passed => do
    if !(← acquire me z) then firstEmptyZone rest (passed + 1)
    else
      let d ← look
      if (d.zones z).isEmpty (e.start z) then return (.OK, some (z, passed))
      else
        let s ← checkRelease e me z
        if !s.ok then return (s, none) else firstEmptyZone rest (passed + 1)

def Zbd.getEmptyZoneCount (d : Zbd) : ℕ :=
  e.ioZones.countP fun z => (d.zones z).isEmpty (e.start z)

def allocateEmptyZoneDefault : DevTask (Status × Option ℕ) := do
  let (s, found) ← firstEmptyZone e me e.ioZones 0
  return (s, found.map (·.1))

def sequentialRounds : ℕ → DevTask (Status × Option ℕ)
  | 0 => return (.OK, none)
  | n + 1 => do
    let z := (← look).zonePos
    call (.setZonePos (if z + 1 ≥ e.nrZones then 0 else z + 1))
    if !(← acquire me z) then sequentialRounds n
    else
      let d ← look
      if (d.zones z).isEmpty (e.start z) then return (.OK, some z)
      else
        let s ← checkRelease e me z
        if !s.ok then return (s, none) else sequentialRounds n

def allocateEmptyZoneSequential : DevTask (Status × Option ℕ) := sequentialRounds e me e.nrZones

def allocateEmptyZoneLeastWear : DevTask (Status × Option ℕ) :=
  cheapestZone e me (fun z zone => zone.isEmpty (e.start z))
    (fun y z => !(y.resetCount < z.resetCount)) e.ioZones none

def allocateEmptyZoneRandom : DevTask (Status × Option ℕ) := do
  let n ← nextShuffle
  let (s, found) ← firstEmptyZone e me (e.shuffle n e.ioZones) 0
  return (s, found.map (·.1))

def Zbd.sortedIoZones (d : Zbd) : List ℕ :=
  e.ioZones.insertionSort fun y z => (d.zones y).resetCount ≤ (d.zones z).resetCount

/-- The two searches of `AllocateEmptyZoneHotnessBased` outside the interval of the level,
away from it in both directions. -/
def allocateAroundInterval (below above : List ℕ) : DevTask (Status × Option ℕ) := do
  let (s, upper) ← firstEmptyZone e me above 0
  if !s.ok then return (s, none)
  else
    let (s, lower) ← firstEmptyZone e me below 0
    if !s.ok then return (s, none)
    else
      match lower, upper with
      | none, none => allocateEmptyZoneDefault e me
      | none, some (z, _) => return (.OK, some z)
      | some (z, _), none => return (.OK, some z)
      | some (y, i), some (z, j) =>
        -- `below` starts one position before the interval, `above` right behind it
        if i + 1 < j then
          let _ ← checkRelease e me z
          return (.OK, some y)
        else
          let _ ← checkRelease e me y
          return (.OK, some z)

/-- `AllocateEmptyZoneHotnessBased` for the positions from `lower` to `upper` of a list. -/
def allocateNearInterval (sorted : List ℕ) (lower upper : ℕ) : DevTask (Status × Option ℕ) := do
  let (s, found) ← firstEmptyZone e me ((sorted.take upper).drop lower) 0
  if !s.ok then return (s, none)
  else
    match found with
    | some (z, _) => return (.OK, some z)
    | none => allocateAroundInterval e me (sorted.take lower).reverse (sorted.drop upper)

def allocateEmptyZoneHotnessBased (level : ℤ) : DevTask (Status × Option ℕ) := do
  if level ≤ 0 then allocateEmptyZoneLeastWear e me
  else
    let d ← look
    let sorted := d.sortedIoZones e
    let lower := sorted.length * (level.toNat - 1) / d.place.maxLevel
    let upper := min sorted.length
      ((sorted.length * level.toNat + (d.place.maxLevel - 1)) / d.place.maxLevel)
    allocateNearInterval e me sorted lower upper

def allocateEmptyZone (level : ℤ) : DevTask (Status × Option ℕ) := do
  place fun d => if level > 0 then d.place.raiseMaxLevel level else d.place
  match e.emptyZoneAllocator with
  | .default => allocateEmptyZoneDefault e me
  | .sequential => allocateEmptyZoneSequential e me
  | .random => allocateEmptyZoneRandom e me
  | .leastWear => allocateEmptyZoneLeastWear e me
  | .hotnessBased => allocateEmptyZoneHotnessBased e me level
  | .userDefined => allocateEmptyZoneSequential e me

def resetUnused : List ℕ → DevTask Status
  | [] => return .OK
  | z :: rest => do
    if !(← acquire me z) then resetUnused rest
    else
      let zone := (← look).zones z
      if !zone.isEmpty (e.start z) && !zone.isUsed then
        let full := zone.isFull
        let resetStatus ← resetZone me z
        let releaseStatus ← checkRelease e me z
        if !resetStatus.ok then return resetStatus
        else if !releaseStatus.ok then return releaseStatus
        else
          if !full then putActiveIOZoneToken
          resetUnused rest
      else
        let s ← checkRelease e me z
        if !s.ok then return s else resetUnused rest

def resetUnusedIOZones : DevTask Status := resetUnused e me e.ioZones

def finishBelowThreshold : List ℕ → DevTask Status
  | [] => return .OK
  | z :: rest => do
    if !(← acquire me z) then finishBelowThreshold rest
    else
      let zone := (← look).zones z
      let within := zone.capacity < zone.maxCapacity * e.finishThreshold / 100
      if !(zone.isEmpty (e.start z) || zone.isFull) && within then
        let s ← finishZone me z
        if !s.ok then
          let _ ← release me z
          return s
        else
          let s ← checkRelease e me z
          if !s.ok then return s
          else
            putActiveIOZoneToken
            finishBelowThreshold rest
      else
        let s ← checkRelease e me z
        if !s.ok then return s else finishBelowThreshold rest

def applyFinishThreshold : DevTask Status :=
  if e.finishThreshold = 0 then return .OK else finishBelowThreshold e me e.ioZones

def finishCheapestIOZone : DevTask Status := do
  let (s, victim) ← cheapestZone e me
    (fun z zone => !(zone.isEmpty (e.start z) || zone.isFull))
    (fun y z => y.capacity > z.capacity) e.ioZones none
  if !s.ok then return s
  else
    match victim with
    | none => return .OK
    | some z =>
      let s ← finishZone me z
      let releaseStatus ← checkRelease e me z
      if s.ok then putActiveIOZoneToken
      return if !releaseStatus.ok then releaseStatus else s

/-- The loop of `AllocateMetaZone`. A zone that is in use stays acquired. -/
def allocateMeta : List ℕ → DevTask (Status × Option ℕ)
  | [] => return (.NoSpace "Out of metadata zones", none)
  | z :: rest => do
    if !(← acquire me z) then allocateMeta rest
    else
      let zone := (← look).zones z
      if zone.isUsed then allocateMeta rest
      else if zone.isEmpty (e.start z) then return (.OK, some z)
      else
        let s ← resetZone me z
        if s.ok then return (.OK, some z)
        else
          let status ← checkRelease e me z
          if !status.ok then return (status, none) else allocateMeta rest

def allocateMetaZone : DevTask (Status × Option ℕ) := allocateMeta e me e.metaZones

end ZenFs.Device
