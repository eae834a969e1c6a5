import ZenFs.Device.Openings
import ZenFs.Device.Runs

/-!
What the five allocators of empty zones return.
-/

namespace ZenFs.Device

open Library Task List Option

variable {k p z : ℕ} {l : List ℕ} {r : Status × Option ℕ} {s t : Zbd}
variable {e : Setup} {a : Holder} {d : Zbd}

/-- A zone is given exactly if one is empty and nobody holds it. It is empty, and no other zone
is held or let go. -/
structure GivesEmptyZone (e : Setup) (d : Zbd) (r : Status × Option ℕ) (t : Zbd) : Prop where
  ok : r.1 = .OK
  none_iff : r.2 = none ↔ ∀ z, ¬ d.Opens e z
  isEmpty : ∀ z, r.2 = some z → (t.zones z).isEmpty (e.start z) = true
  busy_iff : ∀ z, (t.zones z).busy ≠ (d.zones z).busy ↔ r.2 = some z

theorem Taken.gives (h : Taken e d r t) :
    GivesEmptyZone e d r t where
  ok := h.ok
  none_iff := by
    refine ⟨h.complete, fun hnone => ?_⟩
    rw [eq_none_iff_forall_ne_some]
    exact fun z hz => hnone z (h.found z hz)
  isEmpty z hz := by
    rw [h.leaves.isEmpty]
    exact (h.found z hz).2.2
  busy_iff z := by
    refine ⟨fun hne => by_contra fun hz => hne (h.leaves.busy z hz), fun hz => ?_⟩
    rw [h.leaves.held z hz, (h.found z hz).2.1]
    nofun

/-- So it is for each allocator, whatever the shuffle of the zones, the level and the interval of
the level are; the one for the least wear gives a zone with the least resets. -/
theorem empty_zone_allocators (hpos : 0 < e.nrZones → d.zonePos < e.nrZones) :
    let Gives := fun m : DevTask (Status × Option ℕ) => m.Returns (exec e) d (GivesEmptyZone e d)
    Gives (allocateEmptyZoneDefault e a) ∧ Gives (allocateEmptyZoneSequential e a) ∧
      Gives (allocateEmptyZoneRandom e a) ∧ Gives (allocateEmptyZoneLeastWear e a) ∧
      (∀ level, Gives (allocateEmptyZoneHotnessBased e a level)) ∧
      (∀ sorted lower upper, sorted.Perm e.ioZones →
        Gives (allocateNearInterval e a sorted lower upper)) ∧
      (∀ level, Gives (allocateEmptyZone e a level)) ∧
      (allocateEmptyZoneLeastWear e a).Returns (exec e) d fun r _ => ∀ z, r.2 = some z →
        ∀ y, d.Opens e y → (d.zones z).resetCount ≤ (d.zones y).resetCount := by
  have hgives {m : DevTask (Status × Option ℕ)} (hm : Taking e d m) :
      m.Returns (exec e) d (GivesEmptyZone e d) := hm.mono fun _ _ => Taken.gives
  refine ⟨hgives allocateEmptyZoneDefault_taking, hgives (allocateEmptyZoneSequential_taking hpos),
    hgives allocateEmptyZoneRandom_taking, hgives allocateEmptyZoneLeastWear_taking,
    fun level => hgives (allocateEmptyZoneHotnessBased_taking level),
    fun sorted lower upper hperm =>
      hgives (allocateNearInterval_taking (fun z => hperm.mem_iff.mp) lower upper),
    fun _ => hgives (allocateEmptyZone_taking hpos), leastWear_cheapest.mono ?_⟩
  intro r t h z hz y hy
  exact h.least z hz y (.inl hy.1) hy.2.1 hy.2.2

theorem empty_zone_allocators_busyDevice :
    (allocateEmptyZoneSequential (fourZones .caza) me).Returns (exec (fourZones .caza)) busyDevice
      (GivesEmptyZone (fourZones .caza) busyDevice) ∧
    (allocateEmptyZoneHotnessBased (fourZones .caza) me 1).Returns (exec (fourZones .caza)) busyDevice
      (GivesEmptyZone (fourZones .caza) busyDevice) :=
  have h := empty_zone_allocators (e := fourZones .caza) (a := me) (d := busyDevice) (by decide)
  ⟨h.2.1, h.2.2.2.2.1 1⟩

/-- How far the place of a zone is from the nearest of the places from `lower` to `upper - 1`. -/
def intervalDistance (sorted : List ℕ) (lower upper z : ℕ) : ℕ :=
  let p := sorted.idxOf z
  if p < lower then lower - p else p + 1 - upper

section Nearest

variable (e : Setup) (d : Zbd) (sorted : List ℕ) (lower upper : ℕ)

/-- A zone is given if there is one, and none is nearer to the interval. -/
def GivesNearest (r : Status × Option ℕ) : Prop :=
  (r.2 = none → ∀ z, ¬ d.Opens e z) ∧ ∀ z, r.2 = some z → d.Opens e z ∧ ∀ y, d.Opens e y →
    intervalDistance sorted lower upper z ≤ intervalDistance sorted lower upper y

/-- The nearest zone is below the interval, and one above it is next, one place farther away. -/
def OneFarther : Prop :=
  ∃ y ∈ sorted.take lower, ∃ z ∈ sorted.drop upper, d.Opens e y ∧ d.Opens e z ∧
    intervalDistance sorted lower upper z = intervalDistance sorted lower upper y + 1 ∧
    ∀ x, d.Opens e x → x ≠ y →
      intervalDistance sorted lower upper z ≤ intervalDistance sorted lower upper x

end Nearest

variable {sorted : List ℕ} {lower upper : ℕ}

theorem firstEmptyZone_nearest (hl : ∀ z ∈ l, z ∈ e.ioZones)
    (hsame : ∀ z ∈ l, s.zones z = d.zones z)
    (hD : ∀ k z, l[k]? = some z → intervalDistance sorted lower upper z = k + 1) :
    (firstEmptyZone e a l 0).Returns (exec e) s fun r t => r.1 = .OK ∧ t = s.hold a (r.2.map (·.1)) ∧
      (r.2 = none → ∀ z ∈ l, ¬ d.Opens e z) ∧ ∀ z k, r.2 = some (z, k) → z ∈ l ∧ d.Opens e z ∧
        intervalDistance sorted lower upper z = k + 1 ∧
        ∀ y ∈ l, d.Opens e y → k + 1 ≤ intervalDistance sorted lower upper y ∧
          (intervalDistance sorted lower upper y ≤ k + 1 → y = z) := by
  apply (firstEmptyZone_counts l 0).mono
  rintro r t ⟨⟨hok, ht, hsome, hnone⟩, hcount⟩
  refine ⟨hok, ht, ?_, fun z k hz => ?_⟩
  · rintro hr y hy ⟨-, hfree, hempty⟩
    rw [← hsame y hy] at hfree hempty
    exact absurd (hnone hr y hy hfree) (by rw [hempty]; nofun)
  · obtain ⟨k, rfl, hk, hpassed⟩ := hcount z k hz
    obtain ⟨hmem, hopens⟩ := hsome z (by rw [hz]; rfl)
    rw [hsame z hmem] at hopens
    rw [Nat.zero_add]
    refine ⟨hmem, ⟨hl z hmem, hopens⟩, hD k z hk, ?_⟩
    rintro y hy ⟨-, hfree, hempty⟩
    rw [← hsame y hy] at hfree hempty
    obtain ⟨m, hm⟩ := mem_iff_getElem?.mp hy
    rw [hD m y hm]
    obtain h | rfl | h := lt_trichotomy m k
    · exact absurd (hpassed m h y hm hfree) (by rw [hempty]; nofun)
    · exact ⟨le_rfl, fun _ => some.inj (hm.symm.trans hk)⟩
    · exact ⟨by omega, by omega⟩

theorem intervalDistance_eq (hnodup : sorted.Nodup) (hp : sorted[p]? = some z) :
    intervalDistance sorted lower upper z = if p < lower then lower - p else p + 1 - upper := by
  obtain ⟨hlen, rfl⟩ := List.getElem?_eq_some_iff.mp hp
  rw [intervalDistance, hnodup.idxOf_getElem]

theorem intervalDistance_above (hnodup : sorted.Nodup) (hlt : lower < upper)
    (hk : (sorted.drop upper)[k]? = some z) : intervalDistance sorted lower upper z = k + 1 := by
  rw [getElem?_drop] at hk
  rw [intervalDistance_eq hnodup hk, if_neg (by omega)]
  omega

theorem intervalDistance_below (hnodup : sorted.Nodup) (hle : lower ≤ sorted.length)
    (hk : (sorted.take lower).reverse[k]? = some z) :
    intervalDistance sorted lower upper z = k + 1 := by
  have hlen := (List.getElem?_eq_some_iff.mp hk).1
  have htake : (sorted.take lower).length = lower := length_take_of_le hle
  rw [length_reverse, htake] at hlen
  rw [getElem?_reverse (by omega), htake, getElem?_take_of_lt (by omega)] at hk
  rw [intervalDistance_eq hnodup hk, if_pos (by omega)]
  omega

/-- The search misses the nearest zone only by taking one a place farther above. -/
theorem allocateAroundInterval_nearest (hnodup : sorted.Nodup)
    (hmem : ∀ z, z ∈ sorted ↔ z ∈ e.ioZones)
    (hlt : lower < upper) (hle : upper ≤ sorted.length)
    (hsides : ∀ z, d.Opens e z → z ∈ sorted.take lower ∨ z ∈ sorted.drop upper) :
    (allocateAroundInterval e a (sorted.take lower).reverse (sorted.drop upper)).Returns (exec e) d
      fun r _ => GivesNearest e d sorted lower upper r ↔ ¬ OneFarther e d sorted lower upper := by
  have hdisjoint := disjoint_take_drop hnodup hlt.le
  apply (firstEmptyZone_nearest (fun z hz => (hmem z).mp (mem_of_mem_drop hz))
    (fun _ _ => rfl) fun _ _ => intervalDistance_above hnodup hlt).seq
  rintro ⟨_, above⟩ t ⟨rfl, rfl, hnoneAbove, hsomeAbove⟩
  have hsame (z : ℕ) (hz : z ∈ (sorted.take lower).reverse) :
      (d.hold a (above.map (·.1))).zones z = d.zones z := by
    -- the zone held by now is from the other list
    refine Zbd.hold_zones_of_ne fun h => ?_
    obtain ⟨⟨y, k⟩, rfl, rfl⟩ := map_eq_some_iff.mp h
    exact hdisjoint (mem_reverse.mp hz) (hsomeAbove _ _ rfl).1
  apply (firstEmptyZone_nearest (fun z hz => (hmem z).mp (mem_of_mem_take (mem_reverse.mp hz)))
    hsame fun _ _ => intervalDistance_below hnodup (hlt.le.trans hle)).seq
  rintro ⟨_, below⟩ t ⟨rfl, rfl, hnoneBelow, hsomeBelow⟩
  simp only [mem_reverse] at hnoneBelow hsomeBelow
  cases below with
  | none =>
    have hbelow := hnoneBelow rfl
    have hall (z : ℕ) (hz : d.Opens e z) := (hsides z hz).resolve_left (hbelow z · hz)
    have hnot : ¬ OneFarther e d sorted lower upper := fun ⟨y, hy, _, _, hopens, _⟩ => hbelow y hy hopens
    cases above with
    | none =>
      refine (allocateEmptyZoneDefault_taking (d := d)).mono fun r t h => iff_of_true ⟨?_, ?_⟩ hnot
      · exact fun _ z hz => hnoneAbove rfl z (hall z hz) hz
      · exact fun z hz => absurd (h.found z hz) (hnoneAbove rfl z (hall z (h.found z hz)))
    | some above =>
      obtain ⟨-, hopens, hz, hmin⟩ := hsomeAbove _ _ rfl
      refine .ret (iff_of_true ⟨nofun, ?_⟩ hnot)
      rintro _ ⟨⟩
      exact ⟨hopens, fun y hy => hz ▸ (hmin y (hall y hy) hy).1⟩
  | some below =>
    obtain ⟨hinBelow, hopensBelow, hy, hminBelow⟩ := hsomeBelow _ _ rfl
    cases above with
    | none =>
      refine .ret (iff_of_true ⟨nofun, ?_⟩
        fun ⟨_, _, z, hz, _, hopens, _⟩ => hnoneAbove rfl z hz hopens)
      rintro _ ⟨⟩
      refine ⟨hopensBelow, fun x hx => ?_⟩
      exact hy ▸ (hminBelow x ((hsides x hx).resolve_right (hnoneAbove rfl x · hx)) hx).1
    | some above =>
      obtain ⟨hinAbove, hopensAbove, hz, hminAbove⟩ := hsomeAbove _ _ rfl
      have hne : above.1 ≠ below.1 := fun h => hdisjoint hinBelow (h ▸ hinAbove)
      dsimp only
      rw [if_neg (by decide)]
      split
      · apply returns_checkRelease (Zbd.release_hold_of_ne hopensAbove.2.1 hne)
        refine .ret (iff_of_true ⟨nofun, ?_⟩ ?_)
        · rintro _ ⟨⟩
          refine ⟨hopensBelow, fun x hx => ?_⟩
          obtain h | h := hsides x hx
          · exact hy ▸ (hminBelow x h hx).1
          · have := (hminAbove x h hx).1
            omega
        · rintro ⟨y, -, z, hinZ, -, hopens, hnext, hothers⟩
          have := (hminAbove z hinZ hopens).1
          by_cases h : below.1 = y
          · rw [← h] at hnext
            omega
          · have := hothers _ hopensBelow h
            omega
      · apply returns_checkRelease (Zbd.release_hold (hsame _ (by simpa using hinBelow) ▸ hopensBelow.2.1))
        refine .ret ⟨?_, fun hnot => ⟨nofun, ?_⟩⟩
        · rintro hnear ⟨y, hinY, z, hinZ, hopensY, hopensZ, hnext, hothers⟩
          have := (hnear.2 _ rfl).2 _ hopensBelow
          have := (hminBelow y hinY hopensY).1
          have := (hminAbove z hinZ hopensZ).1
          have := hothers _ hopensAbove fun h => hdisjoint hinY (h ▸ hinAbove)
          omega
        · rintro _ ⟨⟩
          refine ⟨hopensAbove, fun x hx => not_lt.mp fun hlt => hnot ?_⟩
          have := (hsides x hx).elim (fun h => (hminBelow x h hx).1)
            fun h => absurd (hminAbove x h hx).1 (by omega)
          refine ⟨_, hinBelow, _, hinAbove, hopensBelow, hopensAbove, by omega, fun w hw hne => ?_⟩
          obtain h | h := hsides w hw
          · have := mt (hminBelow w h hw).2 hne
            omega
          · exact hz ▸ (hminAbove w h hw).1

/-- The search gives the nearest zone unless one above the interval is one place farther away: the
distance above is taken from the end of the interval, which does not belong to it. -/
theorem allocateNearInterval_iff (hperm : sorted.Perm e.ioZones) (hlt : lower < upper)
    (hle : upper ≤ sorted.length) :
    (allocateNearInterval e a sorted lower upper).Returns (exec e) d
      (fun r _ => GivesNearest e d sorted lower upper r) ↔ ¬ OneFarther e d sorted lower upper := by
  have hnodup : sorted.Nodup := hperm.nodup_iff.mpr nodup_range
  have hiff : (allocateNearInterval e a sorted lower upper).Returns (exec e) d
      fun r _ => GivesNearest e d sorted lower upper r ↔ ¬ OneFarther e d sorted lower upper := by
    apply (firstEmptyZone_returns _ 0).seq
    rintro ⟨_, found⟩ t ⟨rfl, rfl, hsome, hnone⟩
    cases found with
    | some found =>
      obtain ⟨hin, hopens⟩ := hsome _ rfl
      obtain ⟨i, hi⟩ := mem_iff_getElem?.mp hin
      rw [getElem?_drop, getElem?_take] at hi
      split at hi
      · have hzero : intervalDistance sorted lower upper found.1 = 0 := by
          rw [intervalDistance_eq hnodup hi, if_neg (by omega)]
          omega
        have hopens : d.Opens e found.1 := ⟨hperm.mem_iff.mp (mem_of_getElem? hi), hopens⟩
        refine Returns.ret (iff_of_true ⟨nofun, ?_⟩ ?_)
        · rintro _ ⟨⟩
          exact ⟨hopens, fun y _ => by omega⟩
        · rintro ⟨y, hy, z, -, -, -, hnext, hothers⟩
          obtain ⟨k, hk⟩ := mem_iff_getElem?.mp (mem_reverse.mpr hy)
          have hone : intervalDistance sorted lower upper y = k + 1 :=
            intervalDistance_below hnodup (hlt.le.trans hle) hk
          have := hothers _ hopens fun h => by rw [h] at hzero; omega
          omega
      · cases hi
    | none =>
      apply allocateAroundInterval_nearest (d := d) hnodup (fun _ => hperm.mem_iff) hlt hle
      intro z hz
      have hz' := hperm.mem_iff.mpr hz.1
      rw [← take_append_drop upper sorted, mem_append] at hz'
      refine hz'.imp_left fun h => ?_
      rw [← take_append_drop lower (sorted.take upper), mem_append, take_take,
        min_eq_left hlt.le] at h
      exact h.resolve_right fun hin => absurd (hnone rfl z hin hz.2.1) (by rw [hz.2.2]; nofun)
  exact ⟨fun ⟨r, t, hrun, h⟩ => (hiff.ends r t hrun).mp h, fun h => hiff.mono fun _ _ => (·.mpr h)⟩

theorem allocateNearInterval_busyDevice :
    (allocateNearInterval (fourZones .caza) me [1, 0, 3, 2] 1 2).Returns (exec (fourZones .caza))
      busyDevice fun r _ => GivesNearest (fourZones .caza) busyDevice [1, 0, 3, 2] 1 2 r := by
  refine (allocateNearInterval_iff (by decide) (by decide) (by decide)).mpr ?_
  rintro ⟨y, hy, -, -, hopens, -⟩
  obtain rfl : y = 1 := by simpa using hy
  exact absurd hopens.2.2 (by decide)

/-- The zone below the interval is next to it, but the one above is taken. -/
theorem nearer_zone_passed : let d := { smallDevice with
      zones := fun z => { smallDevice.zones z with busy := z = 1 ∨ z = 2 } }
    ¬ (allocateNearInterval (fourZones .caza) me [0, 1, 2, 3] 1 2).Returns (exec (fourZones .caza)) d
      fun r _ => GivesNearest (fourZones .caza) d [0, 1, 2, 3] 1 2 r := by
  rintro d ⟨r, t, hrun, -, hnear⟩
  have hthree : (run (exec (fourZones .caza))
      (allocateNearInterval (fourZones .caza) me [0, 1, 2, 3] 1 2) d).map (fun x => x.1.2) =
        some (some 3) := by rfl
  rw [hrun] at hthree
  exact absurd ((hnear 3 (some.inj hthree)).2 0 ⟨by decide, rfl, rfl⟩) (by decide)

end ZenFs.Device
