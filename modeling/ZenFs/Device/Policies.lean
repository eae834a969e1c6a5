import ZenFs.Device.Scans

/-!
The placement policies: which open zone a file goes to.

A policy gets the current score and zone and returns new ones with its status. The
policies that use the per-level lists hold `levelwise_files_mtx_` throughout.
-/

namespace ZenFs.Device

open Library

def lifetimeDiffNotGood : ℕ := 100

def lifetimeDiffCouldBeWorse : ℕ := 50

def getLifeTimeDiff (zone file : Lifetime) : ℕ :=
  if file = .notSet ∨ file = .none then
    if file = zone then 0 else lifetimeDiffNotGood
  else if zone.toNat > file.toNat then zone.toNat - file.toNat
  else if zone = file then lifetimeDiffCouldBeWorse
  else lifetimeDiffNotGood

/-- Status, score and zone, as `best_diff_out` and `zone_out` have them. -/
abbrev Match := Status × ℕ × Option ℕ

variable (e : Setup) (me : Holder) (h : Handle)

/-- The policies that look for a zone with a property and take the last one that has it. -/
def matchTagged (fits : Zbd → Zone → Bool) (best : ℕ) (zone : Option ℕ) (minCapacity : ℕ) :
    DevTask Match := do
  let (s, kept, diff) ← bestZone e me id (fun d z (_ : ℕ) =>
    if (d.zones z).eligible minCapacity && fits d (d.zones z) then some 0 else none)
    e.ioZones none lifetimeDiffNotGood
  return if !s.ok then (s, best, zone) else (.OK, diff, kept)

def matchLifetimeBased (lifetime : Lifetime) (best : ℕ) (zone : Option ℕ) (minCapacity : ℕ) :
    DevTask Match := do
  let (s, kept, diff) ← bestZone e me id (fun d z diff =>
    let new := getLifeTimeDiff (d.zones z).lifetime lifetime
    if (d.zones z).eligible minCapacity && new ≤ diff then some new else none)
    e.ioZones none lifetimeDiffNotGood
  return if !s.ok then (s, best, zone) else (.OK, diff, kept)

def matchArrivalTimeBased (best : ℕ) (zone : Option ℕ) (minCapacity : ℕ) : DevTask Match :=
  matchTagged e me (fun d z => max 1 z.level = max 1 (d.place.info h).level) best zone minCapacity

def matchTombstoneDensity (best : ℕ) (zone : Option ℕ) (minCapacity : ℕ) : DevTask Match := do
  let d ← look
  if !d.place.isHighTombstone e h then return (.OK, lifetimeDiffNotGood, none)
  else matchTagged e me (fun _ z => z.policy = .tombstoneDensity) best zone minCapacity

def matchTombstoneTTL (lifetime : Lifetime) (best : ℕ) (zone : Option ℕ) (minCapacity : ℕ) :
    DevTask Match := matchLifetimeBased e me lifetime best zone minCapacity

def matchClusterTogether (best : ℕ) (zone : Option ℕ) (minCapacity : ℕ) : DevTask Match :=
  matchTagged e me (fun _ z => z.policy = .clusterTogether) best zone minCapacity

def chooseZoneWithHighestContrib (contribution : ℕ → ℕ) (minCapacity : ℕ) :
    DevTask (Status × Option ℕ × ℕ) :=
  bestZone e me id (fun d z highest =>
    if (d.zones z).eligible minCapacity && contribution z > highest then some (contribution z)
    else none) e.ioZones none 0

/-- The loop over the extents of one or two files: the longest one in a zone that can
take the data. -/
def longestExtent (extents : List ZoneExtent) (minCapacity : ℕ) :
    DevTask (Status × Option ℕ × ℕ) :=
  bestZone e me ZoneExtent.zone (fun d x highest =>
    if (d.zones x.zone).eligible minCapacity && x.length > highest then some x.length
    else none) extents none 0

def closestFileRounds (minCapacity : ℕ) : List (List Handle) → DevTask (Status × Option ℕ)
  | [] => return (.OK, none)
  | files :: rest => do
    let d ← look
    let (s, kept, _) ← longestExtent e me (files.flatMap fun g => (d.bodies g).extents) minCapacity
    if !s.ok then return (s, kept)
    else if kept.isSome then return (.OK, kept)
    else closestFileRounds minCapacity rest

def byDistance (files : List Handle) (i : ℕ) : List (List Handle) :=
  (List.range files.length).map fun k =>
    ((files.take i).reverse[k]?).toList ++ ((files.drop (i + 1))[k]?).toList

def chooseZoneWithClosestFile (i : ℕ) (files : List Handle) (minCapacity : ℕ) :
    DevTask (Status × Option ℕ) :=
  closestFileRounds e me minCapacity (byDistance files i)

def rankDiff (p : Placement) (a b : Handle) : ℕ :=
  ((p.info a).rank - (p.info b).rank : ℤ).natAbs

/-- The rounds of `ChooseZoneWithClosestRank`; the positions run away from the file until
one of them is used up. -/
def closestRankRounds (ranking : List Handle) (minCapacity : ℕ) :
    ℕ → ℤ → ℕ → DevTask (Status × Option ℕ)
  | 0, _, _ => return (.OK, none)
  | n + 1, prev, next => do
    if !(prev > 0 && next < ranking.length) then return (.OK, none)
    else
      let d ← look
      let before := ranking.getD prev.toNat 0
      let after := ranking.getD next 0
      let back := rankDiff d.place h before < rankDiff d.place after h
      let (s, kept, _) ← longestExtent e me
        (d.bodies (if back then before else after)).extents minCapacity
      if !s.ok then return (s, kept)
      else if kept.isSome then return (.OK, kept)
      else if back then closestRankRounds ranking minCapacity n (prev - 1) next
      else closestRankRounds ranking minCapacity n prev (next + 1)

def chooseZoneWithClosestRank (i : ℕ) (ranking : List Handle) (minCapacity : ℕ) :
    DevTask (Status × Option ℕ) :=
  closestRankRounds e me h ranking minCapacity ranking.length (i - 1) (i + 1)

def withLevelwiseFiles {α : Type} (m : DevTask α) : DevTask α := do
  call (.lock .levelwiseFiles)
  let a ← m
  call (.unlock .levelwiseFiles)
  return a

def reportZone (s : Status) (kept zone : Option ℕ) (best : ℕ) : Match :=
  if !s.ok then (s, best, zone)
  else if kept.isSome then (.OK, 0, kept)
  else (.OK, lifetimeDiffNotGood, zone)

def cazaFiles (p : Placement) : List Handle :=
  let level := (p.info h).level
  let overlap (l : ℤ) : List Handle :=
    if e.getPolicy l = .caza ∨ e.getSecondaryPolicy l = .caza then p.getOverlappingFiles e h l
    else []
  overlap (level - 1) ++ overlap (level + 1)

/-- `MatchCAZA`. The second search, for a file of level 0, runs on a map that was never
filled. -/
def matchCAZA (best : ℕ) (zone : Option ℕ) (minCapacity : ℕ) : DevTask Match :=
  withLevelwiseFiles do
    let d ← look
    let level := (d.place.info h).level
    let files := cazaFiles e h d.place
    if files.isEmpty && level > 0 then return (.OK, lifetimeDiffNotGood, zone)
    else
      let (s, kept, _) ← chooseZoneWithHighestContrib e me
        (weightedContributions d.bodies (fun _ => 1) 0 files fun _ => 0) minCapacity
      if s.ok && kept.isNone && level = 0 then
        let (s, kept, _) ← chooseZoneWithHighestContrib e me (fun _ => 0) minCapacity
        return reportZone s kept zone best
      else return reportZone s kept zone best

/-- The contributions `MatchSameLevelNearbyKeys` computes, with the weights as a
parameter. -/
def nearbyContributions (d : Zbd) (w : ℕ → ℚ) : ℕ → ℕ :=
  let files := d.place.getSameLevelFiles (d.place.info h).level
  let smaller := files.takeWhile fun g =>
    e.sstableKeyCompare (d.place.info g).smallest (d.place.info h).smallest < 0
  let after := (files.drop smaller.length).filter (· ≠ h)
  weightedContributions d.bodies w 0 smaller.reverse
    (weightedContributions d.bodies w 0 after fun _ => 0)

def matchNearbyKeys (w : ℕ → ℚ) (zone : Option ℕ) (minCapacity : ℕ) : DevTask Match :=
  withLevelwiseFiles do
    let d ← look
    if !d.place.hasLevel (d.place.info h).level then return (.OK, lifetimeDiffNotGood, zone)
    else
      let (s, kept, highest) ← chooseZoneWithHighestContrib e me
        (nearbyContributions e h d w) minCapacity
      match kept with
      | none => return (s, lifetimeDiffNotGood, zone)
      | some z =>
        if !s.ok then return (s, lifetimeDiffNotGood, zone)
        else
          let used := ((← look).zones z).usedCapacity
          -- `highest / used < threshold` without dividing by zero
          if (highest : ℚ) < e.nearestNewzoneThreshold * used then
            return (.OK, lifetimeDiffCouldBeWorse, some z)
          else return (.OK, 0, some z)

def matchSameLevelNearbyKeys (zone : Option ℕ) (minCapacity : ℕ) : DevTask Match :=
  matchNearbyKeys e me h nearWeight zone minCapacity

/-- What `MatchSameLevelNearbyKeysSimple` does to the placement data: it records the file
anew. -/
def simpleRanking (d : Zbd) : Placement × List Handle :=
  let level := (d.place.info h).level
  if !d.place.hasLevel level then (d.place, [])
  else
    let p := (d.place.removeZoneFileRecord h).addZoneFileRecord e h
    (p, p.listOf level)

def matchSameLevelNearbyKeysSimple (best : ℕ) (zone : Option ℕ) (minCapacity : ℕ) :
    DevTask Match :=
  withLevelwiseFiles do
    let (d, files) ← rank (simpleRanking e h)
    if !d.place.hasLevel (d.place.info h).level then return (.OK, lifetimeDiffNotGood, zone)
    else
      let (s, kept) ← chooseZoneWithClosestFile e me (files.idxOf h) files minCapacity
      return reportZone s kept zone best

/-- Rank the own level and the one above it by overlap with the levels `below` levels
further down, and sort the own level by the sum. -/
def overlapRanking (p : Placement) (level below : ℤ) (upper : List Handle) :
    Placement × List Handle :=
  let (p, own) := p.overlapRankHelperSizeBased e (p.ownLevel h level) level (level + below)
  let (p, upper) := p.overlapRankHelperSizeBased e upper (level - 1) (level - 1 + below)
  let p := p.addUpperRanks e own upper
  (p, p.sortByRank own)

def upperLevel (p : Placement) (level : ℤ) : List Handle := (p.listOf (level - 1)).filter (· ≠ h)

/-- What `MatchOverlapChildren` does to the placement data before it chooses a zone; the
ranking is empty when it does not choose. -/
def childrenRanking (d : Zbd) : Placement × List Handle :=
  let p := d.place.computeCompensatedSizes h d.bodies
  let level := p.sunkLevel e h
  let p := p.sink e h
  if !p.hasLevel level then (p, [])
  else overlapRanking e h p level 1 (if level - 1 ≥ 0 then upperLevel h p level else [])

def grandchildrenRanking (d : Zbd) : Placement × List Handle :=
  let p := d.place.computeCompensatedSizes h d.bodies
  let level := p.sunkLevel e h
  overlapRanking e h p level 2 (if level - 1 > 0 then upperLevel h p level else [])

def compensatedRanking (d : Zbd) : Placement × List Handle :=
  let p := d.place.computeCompensatedSizes h d.bodies
  let level := p.sunkLevel e h
  let (p, own) := p.compensatedRanks (p.ownLevel h level)
  let (p, upper) := p.compensatedRanks (if level - 1 > 0 then upperLevel h p level else [])
  let p := p.addUpperRanks e own upper
  (p, p.sortByRank own)

def matchRanking (ranking : Zbd → Placement × List Handle) (w : ℕ → ℚ) (best : ℕ)
    (zone : Option ℕ) (minCapacity : ℕ) : DevTask Match :=
  withLevelwiseFiles do
    let (d, own) ← rank ranking
    if own.isEmpty then return (.OK, lifetimeDiffNotGood, zone)
    else
      let (s, kept, _) ← chooseZoneWithHighestContrib e me
        (contributionsAround d.bodies w own (own.idxOf h)) minCapacity
      return reportZone s kept zone best

def matchOverlapChildren (best : ℕ) (zone : Option ℕ) (minCapacity : ℕ) : DevTask Match :=
  matchRanking e me h (childrenRanking e h) nearWeight best zone minCapacity

def matchOverlapGrandchildren (best : ℕ) (zone : Option ℕ) (minCapacity : ℕ) :
    DevTask Match :=
  matchRanking e me h (grandchildrenRanking e h) halvingWeight best zone minCapacity

def matchCompensatedSize (best : ℕ) (zone : Option ℕ) (minCapacity : ℕ) : DevTask Match :=
  matchRanking e me h (compensatedRanking e h) halvingWeight best zone minCapacity

/-- What `MatchOAZA` does to the placement data; the ranking is empty when it does not
choose a zone. -/
def oazaRanking (d : Zbd) : Placement × List Handle :=
  let p := d.place.computeCompensatedSizes h d.bodies
  let level := (p.info h).level
  if !p.hasLevel level then (p, [])
  else if level < p.maxLevel ∧ p.getOverlapFileCount e h (level + 1) = 0 then
    (p.relevel e h (level + 1), [])
  else if level = p.maxLevel ∧ p.getOverlapFileCount e h (level - 1) = 0 then (p, [])
  else p.overlapRankHelperKeyBased e (p.ownLevel h level) level
    (if level < p.maxLevel then level + 1 else level - 1)

def matchOAZA (best : ℕ) (zone : Option ℕ) (minCapacity : ℕ) : DevTask Match :=
  withLevelwiseFiles do
    let (_, own) ← rank (oazaRanking e h)
    if own.isEmpty then return (.OK, lifetimeDiffNotGood, zone)
    else
      let (s, kept) ←
        (if e.realOaza then chooseZoneWithClosestRank e me h (own.idxOf h) own minCapacity
        else chooseZoneWithClosestFile e me (own.idxOf h) own minCapacity)
      return reportZone s kept zone best

/-- The call through `function_map`; two policies have no entry. -/
def matchBy (policy : Policy) (lifetime : Lifetime) (best : ℕ) (zone : Option ℕ)
    (minCapacity : ℕ) : DevTask Match :=
  match policy with
  | .lifetimeBased => matchLifetimeBased e me lifetime best zone minCapacity
  | .caza => matchCAZA e me h best zone minCapacity
  | .sameLevelNearbyKeys => matchSameLevelNearbyKeys e me h zone minCapacity
  | .sameLevelNearbyKeysSimple => matchSameLevelNearbyKeysSimple e me h best zone minCapacity
  | .arrivalTimeBased => matchArrivalTimeBased e me h best zone minCapacity
  | .tombstoneDensity => matchTombstoneDensity e me h best zone minCapacity
  | .tombstoneTTL => matchTombstoneTTL e me lifetime best zone minCapacity
  | .clusterTogether => matchClusterTogether e me best zone minCapacity
  | .overlapChildren => matchOverlapChildren e me h best zone minCapacity
  | .overlapGrandchildren => matchOverlapGrandchildren e me h best zone minCapacity
  | .compensatedSize => matchCompensatedSize e me h best zone minCapacity
  | .oaza => matchOAZA e me h best zone minCapacity
  | .leveledLifetimeBased => hang
  | .userDefined => hang

end ZenFs.Device
