import ZenFs.Device.Books

/-!
Which zone `MatchCAZA` chooses.

It counts the bytes of the files that overlap the file in the levels right above and below,
and takes the zone with most of them. For a file of level 0 without such a zone the source
means to count the bytes of level 0, but it searches a map that it never filled.
-/

namespace ZenFs.Device

open Library Task

variable {files : List Handle} {level : ℤ} {t : Zbd} {zone : Option ℕ}

def fileBytes (d : Zbd) (files : List Handle) (z : ℕ) : ℕ := (files.map fun g => d.bytes g z).sum

/-- The files of the levels right above and below that overlap the file. -/
def overlappingAround (e : Setup) (p : Placement) (h : Handle) : List Handle :=
  p.getOverlappingFiles e h ((p.info h).level - 1) ++
    p.getOverlappingFiles e h ((p.info h).level + 1)

def MostOf (e : Setup) (n : ℕ) (d : Zbd) (files : List Handle) (z : ℕ) : Prop :=
  d.Offers e n z ∧ 0 < fileBytes d files z ∧
    ∀ y, d.Offers e n y → fileBytes d files y ≤ fileBytes d files z

def SomeOf (e : Setup) (n : ℕ) (d : Zbd) (files : List Handle) : Prop :=
  ∃ y, d.Offers e n y ∧ 0 < fileBytes d files y

/-- What `MatchCAZA` is for: the zone with most of the overlapping bytes, and for a file of
level 0 without one the zone with most bytes of level 0. -/
def PlacesByOverlap (e : Setup) (a : Holder) (h : Handle) (best n : ℕ) (d : Zbd) : Prop :=
  (matchCAZA e a h best none n).Returns (exec e) d fun r _ => r.1 = .OK ∧
    (SomeOf e n d (overlappingAround e d.place h) →
      ∃ z, r.2.2 = some z ∧ MostOf e n d (overlappingAround e d.place h) z) ∧
    (¬ SomeOf e n d (overlappingAround e d.place h) → (d.place.info h).level = 0 →
      SomeOf e n d (d.place.listOf 0) → ∃ z, r.2.2 = some z ∧ MostOf e n d (d.place.listOf 0) z)

def Setup.CazaAt (e : Setup) (level : ℤ) : Prop :=
  0 ≤ level → e.getPolicy level = .caza ∨ e.getSecondaryPolicy level = .caza

variable {e : Setup} {a : Holder} {h : Handle} {d : Zbd} {n : ℕ} {p : Placement}

theorem zoneBytes_one (extents : List ZoneExtent) (z : ℕ) :
    zoneBytes 1 extents z = bytesIn extents z := by
  have hlength : ∀ x : ZoneExtent, ((x.length : ℚ)).floor.toNat = x.length := fun x => by
    rw [← Rat.intCast_natCast, Rat.floor_intCast, Int.toNat_natCast]
  simp [zoneBytes, bytesIn, hlength]

theorem weightedContributions_one (files : List Handle) (k : ℕ) (result : ℕ → ℕ) (z : ℕ) :
    weightedContributions d.bodies (fun _ => 1) k files result z =
      result z + fileBytes d files z := by
  induction files generalizing k result with
  | nil => rfl
  | cons g rest ih =>
    rw [weightedContributions, ih, getPerZoneContribution_eq, zoneBytes_one, Nat.add_assoc]
    rfl

theorem getOverlappingFiles_of_neg (hneg : level < 0) :
    p.getOverlappingFiles e h level = [] := by
  simp [Placement.getOverlappingFiles, Placement.listOf, hneg]

theorem cazaFiles_eq (habove : e.CazaAt ((p.info h).level - 1))
    (hbelow : e.CazaAt ((p.info h).level + 1)) :
    cazaFiles e h p = overlappingAround e p h := by
  have hoverlap : ∀ l, e.CazaAt l →
      (if e.getPolicy l = .caza ∨ e.getSecondaryPolicy l = .caza then
        p.getOverlappingFiles e h l else []) = p.getOverlappingFiles e h l := by
    intro l hl
    by_cases hneg : l < 0
    · simp [getOverlappingFiles_of_neg hneg]
    · rw [if_pos (hl (not_lt.mp hneg))]
  simp only [cazaFiles, overlappingAround]
  rw [hoverlap _ habove, hoverlap _ hbelow]

theorem fileBytes_nil (z : ℕ) : fileBytes d [] z = 0 := rfl

theorem mostBytes_zero (hmost : MostBytes e n d (fun _ => 0) zone) :
    zone = none := hmost.2.mpr fun _ _ => rfl

/-- The zone has most of the bytes of the overlapping files. -/
theorem matchCAZA_mostBytes (best : ℕ) (hfree : d.locked .levelwiseFiles = false) :
    (matchCAZA e a h best none n).Returns (exec e) d fun r t =>
      (r.1 = .OK ∧ MostBytes e n d (fileBytes d (cazaFiles e h d.place)) r.2.2) ∧
        Found e a n d r.2.2 t := by
  have hcount : weightedContributions d.bodies (fun _ => 1) 0 (cazaFiles e h d.place)
      (fun _ => 0) = fileBytes d (cazaFiles e h d.place) := by
    funext z
    rw [weightedContributions_one, Nat.zero_add]
  apply withLevelwiseFiles_found hfree
  apply returns_look
  dsimp only
  split
  · next hempty =>
    have hnone : cazaFiles e h d.place = [] :=
      List.isEmpty_iff.mp (Bool.and_eq_true_iff.mp hempty).1
    refine .ret ⟨⟨rfl, nofun, iff_of_true rfl fun y _ => ?_⟩, found_none _⟩
    rw [hnone, fileBytes_nil]
  · apply (chooseZoneWithHighestContrib_mostBytes).seq
    rintro ⟨_, kept, _⟩ t ⟨⟨rfl, hmost⟩, hfound⟩
    change MostBytes e n d (weightedContributions d.bodies (fun _ => 1) 0
      (cazaFiles e h d.place) fun _ => 0) kept at hmost
    rw [hcount] at hmost
    split
    · next hsecond =>
      obtain rfl : kept = none := by
        simpa using (Bool.and_eq_true_iff.mp (Bool.and_eq_true_iff.mp hsecond).1).2
      obtain ⟨q, rfl⟩ := hfound.device
      apply (chooseZoneWithHighestContrib_mostBytes).seq
      rintro ⟨_, kept, _⟩ t ⟨⟨rfl, hzero⟩, hfound⟩
      obtain rfl : kept = none := mostBytes_zero hzero
      exact .ret ⟨⟨rfl, hmost⟩, hfound.of_setPlace⟩
    · cases kept with
      | none | some => exact .ret ⟨⟨rfl, hmost⟩, hfound⟩

theorem MostBytes.mostOf
    (hmost : MostBytes e n d (fileBytes d files) zone) (hfound : Found e a n d zone t)
    (hsome : SomeOf e n d files) : ∃ z, zone = some z ∧ MostOf e n d files z := by
  cases zone with
  | some z => exact ⟨z, rfl, hfound.offers z rfl, hmost.1 z rfl⟩
  | none =>
    obtain ⟨y, hy, hpos⟩ := hsome
    rw [hmost.2.mp rfl y hy] at hpos
    cases hpos

/-- `MatchCAZA` does what it is for unless the file is of level 0, no zone that can take it has
overlapping bytes, and some such zone has bytes of level 0. -/
theorem placesByOverlap_iff (best : ℕ) (hfree : d.locked .levelwiseFiles = false)
    (habove : e.CazaAt ((d.place.info h).level - 1))
    (hbelow : e.CazaAt ((d.place.info h).level + 1)) :
    PlacesByOverlap e a h best n d ↔
      ¬ ((d.place.info h).level = 0 ∧ ¬ SomeOf e n d (overlappingAround e d.place h) ∧
        SomeOf e n d (d.place.listOf 0)) := by
  have hrun := matchCAZA_mostBytes (e := e) (a := a) (h := h) (n := n) best hfree
  rw [cazaFiles_eq habove hbelow] at hrun
  constructor
  · rintro ⟨r, t, hr, -, -, hzero⟩ ⟨hlevel, hnone, hdata⟩
    obtain ⟨z, hz, -⟩ := hzero hnone hlevel hdata
    obtain ⟨⟨-, hmost⟩, hfound⟩ := hrun.ends r t hr
    -- A zone that was chosen has overlapping bytes.
    exact hnone ⟨z, hfound.offers z hz, (hmost.1 z hz).1⟩
  · intro hcond
    apply hrun.mono
    rintro r t ⟨⟨hok, hmost⟩, hfound⟩
    refine ⟨hok, hmost.mostOf hfound, fun hnone hlevel hdata => ?_⟩
    exact absurd ⟨hlevel, hnone, hdata⟩ hcond

theorem cazaAt_smallSetup (hlevel : level ≤ 2) : (smallSetup .caza).CazaAt level := by
  intro hpos
  left
  rw [Params.getPolicy, if_neg (not_lt.mpr hpos)]
  exact if_pos hlevel

/-- The device of `usedDevice`, with the data in the first zone from a file of level 1. -/
def childDevice : Zbd :=
  { neighbourDevice with place := { neighbourDevice.place with lists := [[], [2]] } }

theorem placesByOverlap_childDevice :
    PlacesByOverlap (smallSetup .caza) me 1 lifetimeDiffNotGood 16 childDevice := by
  apply (placesByOverlap_iff lifetimeDiffNotGood rfl (cazaAt_smallSetup (by decide))
    (cazaAt_smallSetup (by decide))).mpr
  rintro ⟨-, hnone, -⟩
  exact hnone ⟨0, ⟨by decide, by decide, by decide⟩, by decide +kernel⟩

/-- Level 0 has a block in the first zone, no other level has files, and no zone is chosen. -/
theorem level_zero_not_placed :
    ¬ PlacesByOverlap (smallSetup .caza) me 1 lifetimeDiffNotGood 16 neighbourDevice := by
  rintro ⟨r, t, hr, -, -, hzero⟩
  have hnone : ¬ SomeOf (smallSetup .caza) 16 neighbourDevice
      (overlappingAround (smallSetup .caza) neighbourDevice.place 1) := by
    rintro ⟨y, -, hy⟩
    cases hy
  obtain ⟨z, hz, -⟩ := hzero hnone rfl ⟨0, ⟨by decide, by decide, by decide⟩, by decide +kernel⟩
  have hrun : ((matchCAZA (smallSetup .caza) me 1 lifetimeDiffNotGood none 16).run
      (exec (smallSetup .caza)) neighbourDevice).map (·.1.2.2) = some none := by decide +kernel
  rw [hr, Option.map_some, hz] at hrun
  cases hrun

end ZenFs.Device
