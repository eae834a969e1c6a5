import ZenFs.Device.Runs
import ZenFs.Device.Search

/-!
What the placement policies find, each run in one go.

Whatever a policy ranks and compares, the zone it reports is free and can take the data, and
all it leaves behind is that zone held and new placement data. The last resort,
`MatchLifetimeBased`, finds a zone whenever there is one.
-/

namespace ZenFs.Device

open Library Task Bool

variable {best : ℕ} {extents : List ZoneExtent} {fits : Zbd → Zone → Bool} {kept zone : Option ℕ}
variable {m : DevTask (Status × Option ℕ)} {policy : Policy}
variable {ranking : Zbd → Placement × List Handle} {t : Zbd} {w : ℕ → ℚ}
variable {e : Setup} {a : Holder} {h : Handle} {d : Zbd} {n : ℕ}

def Finding (e : Setup) (a : Holder) (n : ℕ) (d : Zbd) (m : DevTask Match) : Prop :=
  m.Returns (exec e) d fun r t => r.1 = .OK ∧ Found e a n d r.2.2 t

theorem matchTagged_finding (best : ℕ) (zone : Option ℕ)
    (hfits : ∀ t, d.Alike t → ∀ z, fits t (t.zones z) = fits d (d.zones z)) :
    Finding e a n d (matchTagged e a fits best zone n) := by
  apply Task.Returns.seq (bestZone_found ?_ ?_)
  · rintro ⟨_, kept, diff⟩ t ⟨rfl, hfound, -⟩
    exact .ret ⟨rfl, hfound⟩
  · intro t ht z _
    simp only [ht.eligible, hfits t ht]
  · intro z hz _ b' hb
    split at hb
    · next hfit => exact ⟨hz, (and_eq_true_iff.mp hfit).1⟩
    · cases hb

theorem getLifeTimeDiff_le (zone file : Lifetime) :
    getLifeTimeDiff zone file ≤ lifetimeDiffNotGood := by
  cases zone <;> cases file <;> decide

theorem Zbd.Alike.lifetime (h : d.Alike t) (z : ℕ) :
    (t.zones z).lifetime = (d.zones z).lifetime := by
  obtain ⟨b, hb⟩ := h.zones z
  rw [hb]

theorem matchLifetimeBased_finding (lifetime : Lifetime) (best : ℕ) (zone : Option ℕ) :
    (matchLifetimeBased e a lifetime best zone n).Returns (exec e) d fun r t =>
      (r.1 = .OK ∧ Found e a n d r.2.2 t) ∧
        (r.2.2 = none → (∀ z, ¬ d.Offers e n z) ∧ r.2.1 = lifetimeDiffNotGood) := by
  apply Task.Returns.seq (bestZone_found ?_ ?_)
  · rintro ⟨_, kept, diff⟩ t ⟨rfl, hfound, hnone⟩
    refine .ret ⟨⟨rfl, hfound⟩, fun hkept => ⟨fun z hz => ?_, (hnone hkept).2⟩⟩
    have hreject := (hnone hkept).1 z hz.1 hz.2.1
    simp [hz.2.2, getLifeTimeDiff_le] at hreject
  · intro t ht z b
    simp only [ht.eligible, ht.lifetime]
  · intro z hz b b' hb
    dsimp only at hb
    split at hb
    · next hfit => exact ⟨hz, (and_eq_true_iff.mp hfit).1⟩
    · cases hb

theorem matchTombstoneDensity_finding (best : ℕ) (zone : Option ℕ) :
    Finding e a n d (matchTombstoneDensity e a h best zone n) := by
  apply returns_look
  split
  · exact .ret ⟨rfl, found_none d.place⟩
  · apply matchTagged_finding
    intro t ht z
    obtain ⟨b, hb⟩ := ht.zones z
    rw [hb]

theorem matchArrivalTimeBased_finding (best : ℕ) (zone : Option ℕ) :
    Finding e a n d (matchArrivalTimeBased e a h best zone n) := by
  apply matchTagged_finding
  intro t ht z
  obtain ⟨b, hb⟩ := ht.zones z
  rw [hb, ht.place]

theorem matchClusterTogether_finding (best : ℕ) (zone : Option ℕ) :
    Finding e a n d (matchClusterTogether e a best zone n) := by
  apply matchTagged_finding
  intro t ht z
  obtain ⟨b, hb⟩ := ht.zones z
  rw [hb]

def OnIoZones (e : Setup) (d : Zbd) : Prop := ∀ g, ∀ x ∈ (d.bodies g).extents, x.zone ∈ e.ioZones

def Seeking (e : Setup) (a : Holder) (n : ℕ) (d : Zbd) (m : DevTask (Status × Option ℕ)) : Prop :=
  m.Returns (exec e) d fun r t => r.1 = .OK ∧ Found e a n d r.2 t

theorem chooseZoneWithHighestContrib_found (contribution : ℕ → ℕ) :
    (chooseZoneWithHighestContrib e a contribution n).Returns (exec e) d fun r t =>
      r.1 = .OK ∧ Found e a n d r.2.1 t := by
  apply (bestZone_found ?_ ?_).mono
  · exact fun _ _ hr => ⟨hr.1, hr.2.1⟩
  · intro t ht z b
    simp only [ht.eligible]
  · intro z hz b b' hb
    split at hb
    · next hfit => exact ⟨hz, (and_eq_true_iff.mp hfit).1⟩
    · cases hb

theorem longestExtent_found (hio : ∀ x ∈ extents, x.zone ∈ e.ioZones) :
    (longestExtent e a extents n).Returns (exec e) d fun r t =>
      r.1 = .OK ∧ Found e a n d r.2.1 t := by
  apply (bestZone_found ?_ ?_).mono
  · exact fun _ _ hr => ⟨hr.1, hr.2.1⟩
  · intro t ht z b
    simp only [ht.eligible]
  · intro x hx b b' hb
    split at hb
    · next hfit => exact ⟨hio x hx, (and_eq_true_iff.mp hfit).1⟩
    · cases hb

theorem Found.next (hfound : Found e a n d kept t) (hnext : ∀ p, Seeking e a n (d.setPlace p) m) :
    (if kept.isSome then pure (.OK, kept) else m : DevTask (Status × Option ℕ)).Returns (exec e) t
      fun r t => r.1 = .OK ∧ Found e a n d r.2 t := by
  cases kept with
  | some z => exact .ret ⟨rfl, hfound⟩
  | none =>
    obtain ⟨p, rfl⟩ := hfound.device
    apply (hnext p).mono
    exact fun _ _ hr => ⟨hr.1, hr.2.of_setPlace⟩

theorem closestFileRounds_seeking (l : List (List Handle)) (hd : OnIoZones e d) :
    Seeking e a n d (closestFileRounds e a n l) := by
  induction l generalizing d with
  | nil => exact .ret ⟨rfl, found_none d.place⟩
  | cons files rest ih =>
    apply (longestExtent_found ?_).seq
    · rintro ⟨_, kept, _⟩ t ⟨rfl, hfound⟩
      exact hfound.next fun p => ih hd
    · intro x hx
      obtain ⟨g, -, hg⟩ := List.mem_flatMap.mp hx
      exact hd g x hg

theorem closestRankRounds_seeking (ranking : List Handle) (rounds : ℕ) (prev : ℤ) (next : ℕ)
    (hd : OnIoZones e d) :
    Seeking e a n d (closestRankRounds e a h ranking n rounds prev next) := by
  induction rounds generalizing d prev next with
  | zero => exact .ret ⟨rfl, found_none d.place⟩
  | succ rounds ih =>
    rw [closestRankRounds]
    split
    · exact .ret ⟨rfl, found_none d.place⟩
    · apply returns_look
      apply (longestExtent_found (hd _)).seq
      rintro ⟨_, kept, _⟩ t ⟨rfl, hfound⟩
      apply hfound.next
      intro p
      split
      · exact ih _ _ hd
      · exact ih _ _ hd

theorem setLocked_setLocked {m : Mutex} (hfree : d.locked m = false) :
    (d.setLocked m true).setLocked m false = d := by
  simp [Zbd.setLocked, ← hfree]

theorem withLevelwiseFiles_found {α : Type} {m : DevTask α} {zone : α → Option ℕ} {Q : α → Prop}
    (hfree : d.locked .levelwiseFiles = false)
    (hm : m.Returns (exec e) (d.setLocked .levelwiseFiles true) fun r t =>
      Q r ∧ Found e a n (d.setLocked .levelwiseFiles true) (zone r) t) :
    (withLevelwiseFiles m).Returns (exec e) d fun r t => Q r ∧ Found e a n d (zone r) t := by
  have hlock : exec e (.lock .levelwiseFiles) d = some ((), d.setLocked .levelwiseFiles true) :=
    if_neg (by simp [hfree])
  apply returns_call hlock
  apply hm.seq
  rintro r t ⟨hr, hfound⟩
  apply returns_call rfl
  refine .ret ⟨hr, ?_, hfound.offers⟩
  obtain ⟨p, rfl⟩ := hfound.device
  refine ⟨p, ?_⟩
  cases zone r with
  | none => exact congrArg (Zbd.setPlace · p) (setLocked_setLocked hfree)
  | some z => exact congrArg (fun t => (Zbd.setPlace t p).hold a (some z)) (setLocked_setLocked hfree)

theorem reportZone_finding (hfound : Found e a n d zone t) :
    (reportZone .OK zone none best).1 = .OK ∧
      Found e a n d (reportZone .OK zone none best).2.2 t := by
  cases zone with
  | none | some => exact ⟨rfl, hfound⟩

theorem matchCAZA_finding (best : ℕ) (hfree : d.locked .levelwiseFiles = false) :
    Finding e a n d (matchCAZA e a h best none n) := by
  apply withLevelwiseFiles_found hfree
  apply returns_look
  dsimp only
  split
  · exact .ret ⟨rfl, found_none _⟩
  · apply (chooseZoneWithHighestContrib_found _).seq
    rintro ⟨_, kept, _⟩ t ⟨rfl, hfound⟩
    split
    · next hnone =>
      obtain rfl : kept = none := by simpa using (and_eq_true_iff.mp (and_eq_true_iff.mp hnone).1).2
      obtain ⟨p, rfl⟩ := hfound.device
      apply (chooseZoneWithHighestContrib_found _).seq
      rintro ⟨_, kept, _⟩ t ⟨rfl, hfound⟩
      exact .ret (reportZone_finding hfound.of_setPlace)
    · exact .ret (reportZone_finding hfound)

theorem matchNearbyKeys_finding (w : ℕ → ℚ) (hfree : d.locked .levelwiseFiles = false) :
    Finding e a n d (matchNearbyKeys e a h w none n) := by
  apply withLevelwiseFiles_found hfree
  apply returns_look
  split
  · exact .ret ⟨rfl, found_none _⟩
  · apply (chooseZoneWithHighestContrib_found _).seq
    rintro ⟨_, kept, highest⟩ t ⟨rfl, hfound⟩
    cases kept with
    | none => exact .ret ⟨rfl, hfound⟩
    | some z =>
      apply returns_look
      dsimp only
      split
      · exact .ret ⟨rfl, hfound⟩
      · exact .ret ⟨rfl, hfound⟩

theorem matchSameLevelNearbyKeysSimple_finding (best : ℕ)
    (hfree : d.locked .levelwiseFiles = false) (hd : OnIoZones e d) :
    Finding e a n d (matchSameLevelNearbyKeysSimple e a h best none n) := by
  apply withLevelwiseFiles_found hfree
  apply returns_rank
  dsimp only
  split
  · exact .ret ⟨rfl, found_none _⟩
  · apply (closestFileRounds_seeking _ _).seq
    · rintro ⟨_, kept⟩ t ⟨rfl, hfound⟩
      exact .ret (reportZone_finding hfound.of_setPlace)
    · exact hd

theorem matchRanking_finding (best : ℕ) (hfree : d.locked .levelwiseFiles = false) :
    Finding e a n d (matchRanking e a h ranking w best none n) := by
  apply withLevelwiseFiles_found hfree
  apply returns_rank
  dsimp only
  split
  · exact .ret ⟨rfl, found_none _⟩
  · apply (chooseZoneWithHighestContrib_found _).seq
    rintro ⟨_, kept, _⟩ t ⟨rfl, hfound⟩
    exact .ret (reportZone_finding hfound.of_setPlace)

theorem matchOAZA_finding (best : ℕ) (hfree : d.locked .levelwiseFiles = false)
    (hd : OnIoZones e d) : Finding e a n d (matchOAZA e a h best none n) := by
  apply withLevelwiseFiles_found hfree
  apply returns_rank
  dsimp only
  split
  · exact .ret ⟨rfl, found_none _⟩
  · apply Task.Returns.seq (Q := fun r t => r.1 = .OK ∧ Found e a n (d.setLocked .levelwiseFiles true) r.2 t)
    · split
      · apply (closestRankRounds_seeking _ _ _ _ _).mono
        · exact fun _ _ hr => ⟨hr.1, hr.2.of_setPlace⟩
        · exact hd
      · apply (closestFileRounds_seeking _ _).mono
        · exact fun _ _ hr => ⟨hr.1, hr.2.of_setPlace⟩
        · exact hd
    · rintro ⟨_, kept⟩ t ⟨rfl, hfound⟩
      exact .ret (reportZone_finding hfound)

/-- The policies that have a function. -/
def Policy.implemented : Policy → Bool
  | .leveledLifetimeBased | .userDefined => false
  | _ => true

theorem matchBy_finding (hpolicy : policy.implemented = true)
    (lifetime : Lifetime) (best : ℕ) (hfree : d.locked .levelwiseFiles = false)
    (hd : OnIoZones e d) : Finding e a n d (matchBy e a h policy lifetime best none n) := by
  have hlifetime : Finding e a n d (matchLifetimeBased e a lifetime best none n) :=
    (matchLifetimeBased_finding lifetime best none).mono fun _ _ hr => hr.1
  cases policy with
  | lifetimeBased | tombstoneTTL => exact hlifetime
  | caza => exact matchCAZA_finding best hfree
  | sameLevelNearbyKeys => exact matchNearbyKeys_finding nearWeight hfree
  | sameLevelNearbyKeysSimple => exact matchSameLevelNearbyKeysSimple_finding best hfree hd
  | arrivalTimeBased => exact matchArrivalTimeBased_finding best none
  | tombstoneDensity => exact matchTombstoneDensity_finding best none
  | clusterTogether => exact matchClusterTogether_finding best none
  | overlapChildren | overlapGrandchildren | compensatedSize =>
    exact matchRanking_finding best hfree
  | oaza => exact matchOAZA_finding best hfree hd
  | leveledLifetimeBased | userDefined => cases hpolicy

/-- What `GetBestOpenZoneMatch` returns from `d`. -/
structure BestMatch (e : Setup) (a : Holder) (n : ℕ) (d : Zbd) (r : Match) (t : Zbd) : Prop where
  ok : r.1 = .OK
  found : Found e a n d r.2.2 t
  complete : r.2.2 = none → (∀ z, ¬ d.Offers e n z) ∧ lifetimeDiffCouldBeWorse ≤ r.2.1

theorem getBestOpenZoneMatch_bestMatch (hlisted : (d.place.info h).listed = true)
    (hprimary : (e.getPolicy (d.place.info h).level).implemented = true)
    (hfallback : (e.getSecondaryPolicy (d.place.info h).level).implemented = true)
    (lifetime : Lifetime) (best : ℕ) (hfree : d.locked .levelwiseFiles = false)
    (hd : OnIoZones e d) :
    (getBestOpenZoneMatch e a h lifetime best n).Returns (exec e) d (BestMatch e a n d) := by
  apply returns_look
  dsimp only
  rw [hlisted]
  apply (matchBy_finding hprimary lifetime best hfree hd).seq
  rintro ⟨_, best, zone⟩ t ⟨rfl, hfound⟩
  cases zone with
  | some z => exact .ret ⟨rfl, hfound, nofun⟩
  | none =>
    obtain ⟨p, rfl⟩ := hfound.device
    apply (matchBy_finding (d := d.setPlace p) hfallback lifetime best hfree hd).seq
    rintro ⟨_, best, zone⟩ t ⟨rfl, hfound⟩
    apply returns_look
    cases zone with
    | some z => exact .ret ⟨rfl, hfound.of_setPlace, nofun⟩
    | none =>
      obtain ⟨q, rfl⟩ := hfound.device
      apply (matchLifetimeBased_finding lifetime _ none).seq
      rintro ⟨_, best, zone⟩ t ⟨⟨rfl, hfound⟩, hnone⟩
      exact .ret ⟨rfl, hfound.of_setPlace.of_setPlace,
        fun hzone => ⟨(hnone hzone).1, le_max_left _ _⟩⟩

/-- A file of the lists is given a zone exactly if some zone is free and can take the data. No
other zone is left held, and without a zone the score asks for a new one. -/
theorem getBestOpenZoneMatch_isSome_iff (lifetime : Lifetime) (best minCapacity : ℕ)
    (hlisted : (d.place.info h).listed = true)
    (hprimary : (e.getPolicy (d.place.info h).level).implemented = true)
    (hfallback : (e.getSecondaryPolicy (d.place.info h).level).implemented = true)
    (hfree : d.locked .levelwiseFiles = false) (hd : OnIoZones e d) :
    (getBestOpenZoneMatch e a h lifetime best minCapacity).Returns (exec e) d fun r t =>
      r.1 = .OK ∧ (r.2.2.isSome ↔ ∃ z, d.Offers e minCapacity z) ∧
        (∀ z, r.2.2 = some z → d.Offers e minCapacity z) ∧
        (∀ z, (t.zones z).busy ≠ (d.zones z).busy ↔ r.2.2 = some z) ∧
        (r.2.2 = none → lifetimeDiffCouldBeWorse ≤ r.2.1) := by
  apply (getBestOpenZoneMatch_bestMatch hlisted hprimary hfallback lifetime best hfree hd).mono
  rintro ⟨s, best, zone⟩ t ⟨hok, hfound, hcomplete⟩
  refine ⟨hok, ⟨?_, ?_⟩, fun z hz => hfound.offers z hz, ?_, fun hnone => (hcomplete hnone).2⟩
  · intro hsome
    obtain ⟨z, rfl⟩ := Option.isSome_iff_exists.mp hsome
    exact ⟨z, hfound.offers z rfl⟩
  · rintro ⟨z, hz⟩
    cases zone with
    | none => exact absurd hz ((hcomplete rfl).1 z)
    | some y => rfl
  · intro z
    obtain ⟨p, rfl⟩ := hfound.device
    constructor
    · intro hne
      by_contra hz
      exact hne (by rw [Zbd.hold_zones_of_ne hz]; rfl)
    · intro hz
      have hoffers : (d.zones z).busy = false := (hfound.offers z hz).2.1
      have hheld : (((d.setPlace p).hold a zone).zones z).busy = true := Zbd.hold_busy.mpr (.inr hz)
      rw [hheld, hoffers]
      decide

/-- The small device with a block of data in its first zone, when an SST file of level 0 is
about to be written. -/
def usedDevice : Zbd :=
  { smallDevice with
    zones := fun z =>
      if z = 0 then { smallDevice.zones 0 with capacity := 48, wp := 16, usedCapacity := 16 }
      else smallDevice.zones z
    place := ⟨fun _ => { FileInfo.new with level := 0, hasKeys := true, ioType := .data },
      [], 1, 4080⟩ }

theorem onIoZones_usedDevice : OnIoZones e usedDevice := fun _ _ => nofun

/-- The extents of the files 2, 3 and 4 are in the first two zones. -/
theorem onIoZones_busyDevice : OnIoZones (fourZones policy) busyDevice := by
  intro g x hx
  show x.zone ∈ List.range 4
  simp only [busyDevice] at hx
  split_ifs at hx
  all_goals simp [FileBody.new] at hx
  · simp [hx]
  · obtain rfl | rfl := hx <;> simp
  · simp [hx]

theorem getBestOpenZoneMatch_busyDevice :
    (getBestOpenZoneMatch (fourZones .sameLevelNearbyKeys) me 1 .short lifetimeDiffNotGood 32).Returns
      (exec (fourZones .sameLevelNearbyKeys)) busyDevice fun r _ => r.2.2.isSome :=
  (getBestOpenZoneMatch_isSome_iff .short lifetimeDiffNotGood 32 (by decide) (by decide) (by decide)
    rfl (onIoZones_busyDevice)).mono fun _ _ hr => hr.2.1.mpr ⟨1, by decide, by decide, by decide⟩

end ZenFs.Device
