import ZenFs.Device.Records

/-!
Which zones garbage collection empties.

Both selections work on a snapshot of the IO zones and on percentages from the parameter
file. The first compares the garbage of a full zone with a threshold that falls with the
free space, the second takes as many full zones as it wants to see free.
-/

namespace ZenFs.Device

open List

variable {f g nrZones : ℕ}

structure ZoneSnapshot where
  start : ℕ
  capacity : ℕ
  usedCapacity : ℕ
  maxCapacity : ℕ
  deriving DecidableEq

variable {z : ZoneSnapshot}

structure GcParams where
  gcStartLevel : ℕ
  gcStopLevel : ℕ
  gcSlope : ℕ
  start_mem : 0 < gcStartLevel ∧ gcStartLevel < 100
  stop_mem : 0 < gcStopLevel ∧ gcStopLevel < 100
  slope_mem : 0 < gcSlope ∧ gcSlope < 100

namespace GcParams

def default : GcParams := ⟨20, 25, 3, by decide, by decide, by decide⟩

/-- What `LoadParamsFromFile` makes of a line for one of the percentages. -/
def load (p : GcParams) (type : String) (value : ℤ) : GcParams :=
  if h : 0 < value ∧ value < 100 then
    have hmem : 0 < value.toNat ∧ value.toNat < 100 := by omega
    if type = "gc_start_level" then { p with gcStartLevel := value.toNat, start_mem := hmem }
    else if type = "gc_stop_level" then { p with gcStopLevel := value.toNat, stop_mem := hmem }
    else if type = "gc_slope" then { p with gcSlope := value.toNat, slope_mem := hmem }
    else p
  else p

end GcParams

variable (p : GcParams)

def garbageThreshold (free : ℕ) : ℕ := u64Sub 100 (u64 (p.gcSlope * u64Sub p.gcStartLevel free))

def ZoneSnapshot.garbagePercent (z : ZoneSnapshot) : ℕ :=
  u64Sub 100 (u64 (100 * z.usedCapacity) / z.maxCapacity)

def selectGarbageZonesDefault (free : ℕ) (zones : List ZoneSnapshot) : List ZoneSnapshot :=
  zones.filter fun z => z.capacity = 0 ∧ garbageThreshold p free < z.garbagePercent ∧
    z.garbagePercent < 100

variable {p} {free : ℕ}

theorem garbageThreshold_eq (hfree : free ≤ p.gcStartLevel) :
    garbageThreshold p free = if p.gcSlope * (p.gcStartLevel - free) ≤ 100
      then 100 - p.gcSlope * (p.gcStartLevel - free)
      else 2 ^ 64 + 100 - p.gcSlope * (p.gcStartLevel - free) := by
  have hstart := p.start_mem
  have hlevel : u64Sub p.gcStartLevel free = p.gcStartLevel - free := by
    rw [u64Sub]
    omega
  have hsmall : p.gcSlope * (p.gcStartLevel - free) ≤ 99 * 99 :=
    Nat.mul_le_mul (Nat.le_of_lt_succ p.slope_mem.2) (by omega)
  rw [garbageThreshold, hlevel, u64, u64Sub]
  split <;> omega

theorem selectGarbageZonesDefault_subset (h : garbageThreshold p f ≤ garbageThreshold p g)
    (zones : List ZoneSnapshot) :
    selectGarbageZonesDefault p g zones ⊆ selectGarbageZonesDefault p f zones := by
  intro z hz
  simp only [selectGarbageZonesDefault, mem_filter, decide_eq_true_eq] at hz ⊢
  exact ⟨hz.1, hz.2.1, h.trans_lt hz.2.2.1, hz.2.2.2⟩

/-- Less free space never collects less exactly as long as the threshold does not wrap. -/
theorem garbage_monotone_iff {f g : ℕ} (hle : f ≤ g) (hg : g ≤ p.gcStartLevel) :
    ((∀ zones, selectGarbageZonesDefault p g zones ⊆ selectGarbageZonesDefault p f zones) ∧
      garbageThreshold p f ≤ 100 ∧ garbageThreshold p g ≤ 100) ↔
    p.gcSlope * (p.gcStartLevel - f) ≤ 100 := by
  have hslopes : p.gcSlope * (p.gcStartLevel - g) ≤ p.gcSlope * (p.gcStartLevel - f) :=
    Nat.mul_le_mul_left _ (by omega)
  have hf := garbageThreshold_eq (hle.trans hg)
  have hsmall : p.gcSlope * (p.gcStartLevel - f) ≤ 99 * 99 :=
    Nat.mul_le_mul (Nat.le_of_lt_succ p.slope_mem.2) (by have := p.start_mem; omega)
  constructor
  · rintro ⟨-, hthreshold, -⟩
    by_contra hwrap
    rw [hf, if_neg hwrap] at hthreshold
    omega
  · intro hslope
    rw [if_pos hslope] at hf
    have hgt := garbageThreshold_eq hg
    rw [if_pos (hslopes.trans hslope)] at hgt
    exact ⟨selectGarbageZonesDefault_subset (by omega), by omega, by omega⟩

/-- With the values of a device without a parameter file. -/
theorem default_garbage_monotone :
    (∀ zones, selectGarbageZonesDefault .default 10 zones ⊆
      selectGarbageZonesDefault .default 0 zones) ∧
      garbageThreshold .default 0 ≤ 100 ∧ garbageThreshold .default 10 ≤ 100 :=
  (garbage_monotone_iff (by decide) (by decide)).mpr (by decide)

/-- With slope 6 a zone with half its data dead is collected at ten percent of free space, and
not any more when there is none. -/
theorem full_device_not_collected :
    let p := GcParams.default.load "gc_slope" 6
    selectGarbageZonesDefault p 10 [⟨64, 0, 32, 64⟩] = [⟨64, 0, 32, 64⟩] ∧
      selectGarbageZonesDefault p 0 [⟨64, 0, 32, 64⟩] = [] ∧
      garbageThreshold p 0 = 2 ^ 64 - 20 := by
  decide +kernel

/-- The loop of `SelectGarbageZonesImproved`; `count` zones are selected already. -/
def selectVictims (target : ℕ) : List ZoneSnapshot → ℕ → List ZoneSnapshot
  | [], _ => []
  | z :: rest, count =>
    if count ≥ target then []
    else if z.capacity ≠ 0 then selectVictims target rest count
    else z :: selectVictims target rest (count + 1)

/-- An unsigned number cut to an `int`. -/
def toInt32 (n : ℕ) : ℤ := (n + 2 ^ 31) % 2 ^ 32 - 2 ^ 31

def selectGarbageZonesImproved (p : GcParams) (nrZones free : ℕ) (sorted : List ZoneSnapshot) :
    List ZoneSnapshot :=
  let freeTargetPercent := toInt32 (u64Sub p.gcStopLevel free)
  if freeTargetPercent ≤ 0 then []
  else selectVictims ((nrZones * freeTargetPercent.toNat + 99) / 100) sorted 0

def ZoneSnapshot.isFull (z : ZoneSnapshot) : Bool := z.capacity = 0

/-- An order of the zones that `std::sort` may leave. -/
def SortedByUse (zones sorted : List ZoneSnapshot) : Prop :=
  sorted.Perm zones ∧ sorted.Pairwise fun y z => y.usedCapacity ≤ z.usedCapacity

/-- A selection of `k` full zones with the least data, all of which have garbage. -/
structure CheapestVictims (zones : List ZoneSnapshot) (k : ℕ) (victims : List ZoneSnapshot) :
    Prop where
  count : (victims.map (·.start)).toFinset.card = min k (zones.countP (·.isFull))
  full : ∀ z ∈ victims, z ∈ zones ∧ z.isFull
  cheapest : ∀ z ∈ victims, ∀ y ∈ zones, y.isFull → y ∉ victims →
    z.usedCapacity ≤ y.usedCapacity
  reclaimable : ∀ z ∈ victims, z.usedCapacity < z.maxCapacity

theorem selectVictims_eq (target : ℕ) (l : List ZoneSnapshot) (count : ℕ) :
    selectVictims target l count = (l.filter (·.isFull)).take (target - count) := by
  induction l generalizing count with
  | nil => simp [selectVictims]
  | cons z rest ih =>
    rw [selectVictims, ih, ih]
    by_cases hcount : count ≥ target
    · rw [if_pos hcount, Nat.sub_eq_zero_of_le hcount, take_zero]
    · obtain ⟨k, hk⟩ : ∃ k, target - count = k + 1 := ⟨target - count - 1, by omega⟩
      rw [if_neg hcount, hk, show target - (count + 1) = k by omega]
      by_cases hz : z.capacity = 0 <;> simp [ZoneSnapshot.isFull, hz]

def zonesToFree (p : GcParams) (nrZones free : ℕ) : ℕ :=
  (nrZones * (p.gcStopLevel - free) + 99) / 100

theorem selectGarbageZonesImproved_eq (hfree : free ≤ 100)
    (sorted : List ZoneSnapshot) : selectGarbageZonesImproved p nrZones free sorted =
      (sorted.filter (·.isFull)).take (zonesToFree p nrZones free) := by
  have hstop := p.stop_mem
  have hpercent : toInt32 (u64Sub p.gcStopLevel free) = p.gcStopLevel - free := by
    rw [u64Sub, toInt32]
    omega
  rw [selectGarbageZonesImproved, hpercent, selectVictims_eq, zonesToFree]
  split
  · rw [show p.gcStopLevel - free = 0 by omega]
    simp
  · rw [show ((p.gcStopLevel : ℤ) - free).toNat = p.gcStopLevel - free by omega, Nat.sub_zero]

section Sorted

variable {zones sorted : List ZoneSnapshot} {k : ℕ}

section

variable (h : SortedByUse zones sorted)
include h

/-- Of an order by use, the first full zones are selected; whether they have garbage is another
matter. -/
theorem SortedByUse.cheapest
    (hstarts : (zones.map (·.start)).Nodup)
    (hgarbage : ∀ z ∈ (sorted.filter (·.isFull)).take k, z.usedCapacity < z.maxCapacity) :
    CheapestVictims zones k ((sorted.filter (·.isFull)).take k) where
  count := by
    have hnodup : (((sorted.filter (·.isFull)).take k).map (·.start)).Nodup :=
      (h.1.map _ |>.nodup_iff.mpr hstarts).sublist
        (((take_sublist _ _).trans filter_sublist).map _)
    rw [toFinset_card_of_nodup hnodup, length_map, length_take,
      ← countP_eq_length_filter, h.1.countP_eq]
  full z hz := by
    obtain ⟨hmem, hfull⟩ := mem_filter.mp (mem_of_mem_take hz)
    exact ⟨h.1.mem_iff.mp hmem, hfull⟩
  cheapest z hz y hy hfull hnot := by
    have hmem : y ∈ sorted.filter (·.isFull) := mem_filter.mpr ⟨h.1.mem_iff.mpr hy, hfull⟩
    have hpairs := h.2.sublist (filter_sublist (p := (·.isFull)))
    rw [← take_append_drop k (sorted.filter (·.isFull))] at hmem hpairs
    have hdrop := (mem_append.mp hmem).resolve_left hnot
    exact (pairwise_append.mp hpairs).2.2 z hz y hdrop
  reclaimable := hgarbage

theorem SortedByUse.countP (n : ℕ) :
    zones.countP (fun y => y.isFull ∧ y.usedCapacity < n) =
      (sorted.filter (·.isFull)).countP fun y => y.usedCapacity < n := by
  rw [countP_filter, h.1.symm.countP_eq]
  simp [and_comm]

theorem SortedByUse.countP_lt (hz : z ∈ (sorted.filter (·.isFull)).take k) :
    zones.countP (fun y => y.isFull ∧ y.usedCapacity < z.usedCapacity) < k := by
  have hpairs := h.2.sublist (filter_sublist (p := (·.isFull)))
  rw [h.countP, ← take_append_drop k (sorted.filter _), countP_append]
  rw [← take_append_drop k (sorted.filter _)] at hpairs
  have hdrop : (drop k (sorted.filter (·.isFull))).countP
      (fun y => y.usedCapacity < z.usedCapacity) = 0 := by
    rw [countP_eq_zero]
    intro y hy
    simpa using (pairwise_append.mp hpairs).2.2 z hz y hy
  rw [hdrop, Nat.add_zero]
  -- not all selected zones are counted: `z` is not
  refine (lt_of_le_of_ne countP_le_length fun hall => ?_).trans_le (length_take_le _ _)
  simpa using countP_eq_length.mp hall z hz

end

theorem exists_sortedByUse (hz : z ∈ zones) (hfull : z.isFull)
    (hcount : zones.countP (fun y => y.isFull ∧ y.usedCapacity < z.usedCapacity) < k) :
    ∃ sorted, SortedByUse zones sorted ∧ z ∈ (sorted.filter (·.isFull)).take k := by
  let key (y : ZoneSnapshot) : ℕ := 2 * y.usedCapacity + if y = z then 0 else 1
  obtain ⟨sorted, hperm, hpairs⟩ :
      ∃ sorted, List.Perm sorted zones ∧ sorted.Pairwise fun x y => key x ≤ key y :=
    ⟨_, perm_insertionSort _ _, pairwise_insertionSort _ _⟩
  have hsorted : SortedByUse zones sorted := by
    refine ⟨hperm, hpairs.imp fun {x y} hxy => ?_⟩
    simp only [key] at hxy
    split at hxy <;> split at hxy <;> omega
  refine ⟨sorted, hsorted, ?_⟩
  by_contra hnot
  have hpairs := hpairs.sublist (filter_sublist (p := (·.isFull)))
  have hmem := mem_filter.mpr ⟨hperm.mem_iff.mpr hz, hfull⟩
  rw [← take_append_drop k (sorted.filter _)] at hmem hpairs
  have hdrop := (mem_append.mp hmem).resolve_left hnot
  have hbefore : ∀ y ∈ (sorted.filter (·.isFull)).take k, y.usedCapacity < z.usedCapacity := by
    intro y hy
    have hkey := (pairwise_append.mp hpairs).2.2 y hy z hdrop
    have hne : y ≠ z := fun h => hnot (h ▸ hy)
    simp only [key, if_neg hne, if_true] at hkey
    omega
  have hlength : ((sorted.filter (·.isFull)).take k).length = k := by
    have hlong := length_pos_of_mem hdrop
    rw [length_drop, Nat.sub_pos_iff_lt] at hlong
    exact length_take_of_le hlong.le
  rw [hsorted.countP, ← take_append_drop k (sorted.filter _), countP_append,
    countP_eq_length.mpr (by simpa using hbefore), hlength] at hcount
  omega

end Sorted

/-- Whatever order the sort leaves among zones with as much data, the selection takes as many
full zones as it wants to free, those with the least data. It takes zones with garbage only
exactly if each full zone without garbage has enough full zones before it. -/
theorem cheapest_victims_iff {zones : List ZoneSnapshot} {nrZones : ℕ} (hfree : free ≤ 100)
    (hstarts : (zones.map (·.start)).Nodup) :
    (∀ sorted, SortedByUse zones sorted →
      CheapestVictims zones (zonesToFree p nrZones free)
        (selectGarbageZonesImproved p nrZones free sorted)) ↔
    ∀ z ∈ zones, z.isFull → z.maxCapacity ≤ z.usedCapacity →
      zonesToFree p nrZones free ≤
        zones.countP fun y => y.isFull ∧ y.usedCapacity < z.usedCapacity := by
  simp only [selectGarbageZonesImproved_eq hfree]
  constructor
  · intro hall z hz hfull hlive
    by_contra hfew
    obtain ⟨sorted, hsorted, htaken⟩ := exists_sortedByUse hz hfull (not_le.mp hfew)
    exact hlive.not_gt ((hall sorted hsorted).reclaimable z htaken)
  · intro hcond sorted hsorted
    apply hsorted.cheapest hstarts
    intro z hz
    by_contra hlive
    obtain ⟨hmem, hfull⟩ := mem_filter.mp (mem_of_mem_take hz)
    exact (hsorted.countP_lt hz).not_ge
      (hcond z (hsorted.1.mem_iff.mp hmem) hfull (not_lt.mp hlive))

/-- The zone with garbage is selected, and one that is full of live data is not. -/
theorem cheapest_victims_one :
    CheapestVictims [⟨0, 0, 64, 64⟩, ⟨64, 0, 32, 64⟩] (zonesToFree .default 10 20)
      (selectGarbageZonesImproved .default 10 20 [⟨64, 0, 32, 64⟩, ⟨0, 0, 64, 64⟩]) :=
  (cheapest_victims_iff (by decide) (by decide)).mpr (by decide) _ ⟨by decide, by decide⟩

/-- On a device full of live data a zone is selected that has no garbage. -/
theorem live_zone_selected :
    selectGarbageZonesImproved .default 10 0 [⟨64, 0, 64, 64⟩] = [⟨64, 0, 64, 64⟩] := by
  decide +kernel

end ZenFs.Device
