import ZenFs.Device.Matches

/-!
What `MatchSameLevelNearbyKeys` counts, and which zone it chooses.

The files of the level are counted from the place of the file outwards in both directions, and
the zone with most of their bytes wins. Files with the same smallest key stand behind that
place, and there the file itself is passed over.
-/

namespace ZenFs.Device

open Library Task List Nat

variable {highest : ℕ} {kept zone : Option ℕ} {l : List ℕ} {policy : Policy} {t : Zbd}

def zoneBytes (weight : ℚ) (extents : List ZoneExtent) (z : ℕ) : ℕ :=
  ((extents.filter (·.zone = z)).map fun x => (weight * x.length).floor.toNat).sum

/-- The bytes of files in a zone, the file at position `k` with weight `w k`. -/
def weightedBytes (bodies : Handle → FileBody) (w : ℕ → ℚ) (files : List Handle) (z : ℕ) : ℕ :=
  (files.zipIdx.map fun p => zoneBytes (w p.2) (bodies p.1).extents z).sum

def keyBefore (e : Setup) (p : Placement) (h g : Handle) : Bool :=
  e.sstableKeyCompare (p.info g).smallest (p.info h).smallest < 0

def filesBefore (e : Setup) (p : Placement) (h : Handle) : List Handle :=
  ((p.listOf (p.info h).level).filter (keyBefore e p h)).reverse

def filesAfter (e : Setup) (p : Placement) (h : Handle) : List Handle :=
  (p.listOf (p.info h).level).filter fun g => !keyBefore e p h g && g ≠ h

def nearbyBytes (e : Setup) (h : Handle) (d : Zbd) (w : ℕ → ℚ) (z : ℕ) : ℕ :=
  weightedBytes d.bodies w (filesBefore e d.place h) z +
    weightedBytes d.bodies w (filesAfter e d.place h) z

structure Setup.KeyOrder (e : Setup) : Prop where
  irrefl : ∀ a, ¬ e.sstableKeyCompare a a < 0
  trans : ∀ a b c, e.sstableKeyCompare a b ≤ 0 → e.sstableKeyCompare b c < 0 →
    e.sstableKeyCompare a c < 0

def SortedByKey (e : Setup) (p : Placement) (files : List Handle) : Prop :=
  files.Pairwise fun x y => e.sstableKeyCompare (p.info x).smallest (p.info y).smallest ≤ 0

variable {e : Setup} {a : Holder} {h : Handle} {d : Zbd} {n : ℕ} {p : Placement}

theorem takeWhile_eq_filter {α : Type} {q : α → Bool} {l : List α}
    (h : l.Pairwise fun x y => q y = true → q x = true) :
    l.takeWhile q = l.filter q ∧ l.drop (l.takeWhile q).length = l.filter (!q ·) := by
  induction l with
  | nil => exact ⟨rfl, rfl⟩
  | cons x rest ih =>
    obtain ⟨hx, hrest⟩ := pairwise_cons.mp h
    cases hq : q x with
    | true =>
      obtain ⟨htake, hdrop⟩ := ih hrest
      simp [hq, htake, ← hdrop]
    | false =>
      have hnone : ∀ y ∈ rest, q y = false := by
        intro y hy
        by_contra hne
        exact absurd (hx y hy (by simpa using hne)) (by simp [hq])
      have hall : rest.filter (!q ·) = rest := filter_eq_self.mpr (by simpa using hnone)
      have hempty : rest.filter q = [] := filter_eq_nil_iff.mpr (by simpa using hnone)
      simp [hq, hall, hempty]

theorem getPerZoneContribution_eq (extents : List ZoneExtent) (factor : ℚ) (result : ℕ → ℕ)
    (z : ℕ) : getPerZoneContribution extents factor result z =
      result z + zoneBytes factor extents z := by
  unfold getPerZoneContribution zoneBytes
  induction extents generalizing result with
  | nil => rfl
  | cons x rest ih =>
    rw [foldl_cons, ih]
    by_cases hz : x.zone = z
    · subst hz
      simp [add_assoc]
    · simp [hz, Ne.symm hz]

theorem weightedContributions_eq (bodies : Handle → FileBody) (w : ℕ → ℚ) (files : List Handle)
    (k : ℕ) (result : ℕ → ℕ) (z : ℕ) :
    weightedContributions bodies w k files result z = result z +
      ((files.zipIdx k).map fun p => zoneBytes (w p.2) (bodies p.1).extents z).sum := by
  induction files generalizing k result with
  | nil => rfl
  | cons g rest ih =>
    rw [weightedContributions, ih, getPerZoneContribution_eq]
    simp [add_assoc]

theorem pairwise_keyBefore (horder : e.KeyOrder)
    (hsorted : SortedByKey e p (p.listOf (p.info h).level)) :
    (p.listOf (p.info h).level).Pairwise fun x y => keyBefore e p h y = true →
      keyBefore e p h x = true := by
  apply hsorted.imp
  intro x y hxy hy
  simp only [keyBefore, decide_eq_true_eq] at hy ⊢
  exact horder.trans _ _ _ hxy hy

theorem nearbyContributions_eq (horder : e.KeyOrder)
    (hsorted : SortedByKey e d.place (d.place.listOf (d.place.info h).level)) (w : ℕ → ℚ) :
    nearbyContributions e h d w = nearbyBytes e h d w := by
  obtain ⟨htake, hdrop⟩ := takeWhile_eq_filter (pairwise_keyBefore horder hsorted)
  funext z
  change weightedContributions _ _ _ ((d.place.listOf (d.place.info h).level).takeWhile
    (keyBefore e d.place h)).reverse (weightedContributions _ _ _
      (((d.place.listOf (d.place.info h).level).drop ((d.place.listOf
        (d.place.info h).level).takeWhile (keyBefore e d.place h)).length).filter (· ≠ h)) _) z = _
  rw [hdrop, htake, weightedContributions_eq, weightedContributions_eq]
  simp [nearbyBytes, weightedBytes, filesBefore, filesAfter, add_comm, Bool.and_comm]

theorem filesAround_perm (horder : e.KeyOrder) :
    (filesBefore e p h ++ filesAfter e p h).Perm
      ((p.listOf (p.info h).level).filter (· ≠ h)) := by
  have hself : keyBefore e p h h = false := by
    simp only [keyBefore, decide_eq_false_iff_not]
    exact horder.irrefl _
  have hbefore : (p.listOf (p.info h).level).filter (keyBefore e p h) =
      ((p.listOf (p.info h).level).filter (· ≠ h)).filter (keyBefore e p h) := by
    rw [filter_filter]
    apply filter_congr
    intro g _
    by_cases hg : g = h
    · simp [hg, hself]
    · simp [hg]
  have hafter : filesAfter e p h =
      ((p.listOf (p.info h).level).filter (· ≠ h)).filter (!keyBefore e p h ·) := by
    rw [filter_filter]
    rfl
  rw [hafter, filesBefore, hbefore]
  exact ((reverse_perm _).append_right _).trans (filter_append_perm _ _)

/-- The zone kept so far has the best score so far, or there is none. -/
def Leads (contribution : ℕ → ℕ) (kept : Option ℕ) (highest : ℕ) : Prop :=
  (kept = none ∧ highest = 0) ∨ ∃ z, kept = some z ∧ contribution z = highest ∧ 0 < highest

/-- When a zone takes the place of the one kept so far. -/
def outbids (d : Zbd) (n : ℕ) (contribution : ℕ → ℕ) (z highest : ℕ) : Option ℕ :=
  if (d.zones z).eligible n && contribution z > highest then some (contribution z) else none

variable {contribution : ℕ → ℕ}

theorem bestFree_highest (hlead : Leads contribution kept highest) :
    let r := bestFree d id (outbids d n contribution) l kept highest
    Leads contribution r.1 r.2 ∧ highest ≤ r.2 ∧
      ∀ y ∈ l, (d.zones y).busy = false → (d.zones y).eligible n = true → contribution y ≤ r.2 := by
  induction l generalizing kept highest with
  | nil => exact ⟨hlead, le_rfl, by simp⟩
  | cons x rest ih =>
    rw [bestFree]
    split
    · next hskip =>
      obtain ⟨hlead', hle, hrest⟩ := ih hlead
      refine ⟨hlead', hle, forall_mem_cons.mpr ⟨fun hfree heligible => ?_, hrest⟩⟩
      -- The zone is the one that is kept.
      obtain hbusy | hkept := hskip
      · rw [id, hfree] at hbusy
        cases hbusy
      · obtain ⟨hnone, -⟩ | ⟨z, hz, hscore, -⟩ := hlead
        · rw [hnone] at hkept
          cases hkept
        · rw [hz] at hkept
          cases hkept
          exact hscore.trans_le hle
    · by_cases hbetter : ((d.zones x).eligible n && contribution x > highest) = true
      · rw [outbids, if_pos hbetter]
        obtain ⟨-, hgt⟩ := Bool.and_eq_true_iff.mp hbetter
        have hgt : highest < contribution x := of_decide_eq_true hgt
        obtain ⟨hlead', hle, hrest⟩ := ih (.inr ⟨x, rfl, rfl, zero_lt_of_lt hgt⟩)
        exact ⟨hlead', hgt.le.trans hle, forall_mem_cons.mpr ⟨fun _ _ => hle, hrest⟩⟩
      · rw [outbids, if_neg hbetter]
        obtain ⟨hlead', hle, hrest⟩ := ih hlead
        refine ⟨hlead', hle, forall_mem_cons.mpr ⟨fun _ heligible => ?_, hrest⟩⟩
        rw [heligible] at hbetter
        have hnot : ¬ contribution x > highest := by simpa using hbetter
        exact (le_of_not_gt hnot).trans hle

def MostBytes (e : Setup) (n : ℕ) (d : Zbd) (contribution : ℕ → ℕ) (zone : Option ℕ) : Prop :=
  (∀ z, zone = some z → 0 < contribution z ∧ ∀ y, d.Offers e n y → contribution y ≤ contribution z) ∧
    (zone = none ↔ ∀ y, d.Offers e n y → contribution y = 0)

theorem Found.mostBytes (hfound : Found e a n d zone t) (hlead : Leads contribution zone highest)
    (hmax : ∀ y ∈ e.ioZones, (d.zones y).busy = false → (d.zones y).eligible n = true →
      contribution y ≤ highest) : MostBytes e n d contribution zone := by
  obtain ⟨rfl, rfl⟩ | ⟨z, rfl, rfl, hpos⟩ := hlead
  · refine ⟨nofun, iff_of_true rfl fun y hy => ?_⟩
    exact le_zero.mp (hmax y hy.1 hy.2.1 hy.2.2)
  · constructor
    · rintro _ ⟨⟩
      exact ⟨hpos, fun y hy => hmax y hy.1 hy.2.1 hy.2.2⟩
    · refine iff_of_false nofun fun hzero => ?_
      rw [hzero z (hfound.offers z rfl)] at hpos
      exact lt_irrefl 0 hpos

theorem chooseZoneWithHighestContrib_mostBytes :
    (chooseZoneWithHighestContrib e a contribution n).Returns (exec e) d fun r t =>
      (r.1 = .OK ∧ MostBytes e n d contribution r.2.1) ∧ Found e a n d r.2.1 t := by
  have hresult : (chooseZoneWithHighestContrib e a contribution n).run (exec e) (d.hold a none) = _ :=
    bestZone_run (fun t ht z b => by simp only [ht.eligible]) e.ioZones (by simp)
  obtain ⟨r, t, hrun, hok, hfound⟩ :
      (chooseZoneWithHighestContrib e a contribution n).Returns (exec e) d _ :=
    chooseZoneWithHighestContrib_found contribution
  obtain ⟨hlead, -, hmax⟩ : let r := bestFree d id (outbids d n contribution) e.ioZones none 0
      Leads contribution r.1 r.2 ∧ _ := bestFree_highest (.inl ⟨rfl, rfl⟩)
  obtain ⟨rfl, rfl⟩ := Prod.mk.inj (Option.some.inj (hrun.symm.trans hresult))
  exact ⟨_, _, hresult, ⟨rfl, hfound.mostBytes hlead hmax⟩, hfound⟩

theorem nearbyContributions_of_not_hasLevel
    (hlevel : d.place.hasLevel (d.place.info h).level = false) (w : ℕ → ℚ) :
    nearbyContributions e h d w = fun _ => 0 := by
  simp [nearbyContributions, Placement.getSameLevelFiles, Placement.listOf_of_not_hasLevel hlevel,
    weightedContributions]

theorem matchNearbyKeys_mostBytes (w : ℕ → ℚ) (hfree : d.locked .levelwiseFiles = false) :
    (matchNearbyKeys e a h w none n).Returns (exec e) d fun r t =>
      (r.1 = .OK ∧ MostBytes e n d (nearbyContributions e h d w) r.2.2) ∧
        Found e a n d r.2.2 t := by
  apply withLevelwiseFiles_found hfree
  apply returns_look
  split
  · next hlevel =>
    have hlevel : d.place.hasLevel (d.place.info h).level = false := by
      rwa [Bool.not_eq_true'] at hlevel
    refine .ret ⟨⟨rfl, nofun, iff_of_true rfl fun _ _ => ?_⟩, found_none _⟩
    rw [nearbyContributions_of_not_hasLevel hlevel]
  · apply (chooseZoneWithHighestContrib_mostBytes).seq
    rintro ⟨_, kept, highest⟩ t ⟨⟨rfl, hmost⟩, hfound⟩
    cases kept with
    | none => exact .ret ⟨⟨rfl, hmost⟩, hfound⟩
    | some z =>
      apply returns_look
      dsimp only
      split <;> exact .ret ⟨⟨rfl, hmost⟩, hfound⟩

/-- `MatchSameLevelNearbyKeys` counts every other file of the level once, from the place of the
file outwards, and takes the zone with most of these bytes. -/
theorem matchNearbyKeys_nearest (w : ℕ → ℚ) (minCapacity : ℕ) (horder : e.KeyOrder)
    (hsorted : SortedByKey e d.place (d.place.listOf (d.place.info h).level))
    (hnodup : (d.place.listOf (d.place.info h).level).Nodup)
    (hfree : d.locked .levelwiseFiles = false) :
    ((filesBefore e d.place h ++ filesAfter e d.place h).Nodup ∧
        ∀ g, g ∈ filesBefore e d.place h ++ filesAfter e d.place h ↔
          g ∈ d.place.listOf (d.place.info h).level ∧ g ≠ h) ∧
      (∀ z, nearbyContributions e h d w z = nearbyBytes e h d w z) ∧
      (matchNearbyKeys e a h w none minCapacity).Returns (exec e) d fun r t =>
        r.1 = .OK ∧ (∀ z, r.2.2 = some z → d.Offers e minCapacity z ∧ (t.zones z).busy = true) ∧
          MostBytes e minCapacity d (nearbyBytes e h d w) r.2.2 := by
  have hperm := filesAround_perm (p := d.place) (h := h) horder
  have hbytes := nearbyContributions_eq horder hsorted w
  refine ⟨⟨hperm.nodup_iff.mpr (hnodup.filter _), fun g => ?_⟩, congrFun hbytes, ?_⟩
  · rw [hperm.mem_iff]
    simp
  · apply (matchNearbyKeys_mostBytes w hfree).mono
    rintro r t ⟨⟨hok, hmost⟩, hfound⟩
    rw [hbytes] at hmost
    refine ⟨hok, fun z hz => ⟨hfound.offers z hz, ?_⟩, hmost⟩
    obtain ⟨q, rfl⟩ := hfound.device
    exact Zbd.hold_busy.mpr (.inr hz)

theorem keyOrder_fourZones : (fourZones policy).KeyOrder := by
  have hlt : ∀ x y : Key, compareKeys x y < 0 ↔ x < y := by
    intro x y
    unfold compareKeys
    split_ifs <;> simp_all
  constructor
  · intro x hx
    exact List.lt_irrefl x ((hlt x x).mp hx)
  · intro x y z hxy hyz
    have hyz := (hlt y z).mp hyz
    apply (hlt x z).mpr
    change compareKeys x y ≤ 0 at hxy
    unfold compareKeys at hxy
    split_ifs at hxy with hless heq
    · exact List.lt_trans hless hyz
    · exact heq ▸ hyz
    · omega

/-- The device of `usedDevice`, with the data in the first zone from another file of level 0. -/
def neighbourDevice : Zbd :=
  { usedDevice with
    bodies := fun g => if g = 2 then { FileBody.new with extents := [⟨0, 16, 0⟩] } else .new
    place := { usedDevice.place with lists := [[2]] } }

theorem matchNearbyKeys_busyDevice :
    (matchNearbyKeys (fourZones .sameLevelNearbyKeys) me 1 nearWeight none 16).Returns
      (exec (fourZones .sameLevelNearbyKeys)) busyDevice fun r _ => r.2.2.isSome := by
  have hsorted : SortedByKey (fourZones .sameLevelNearbyKeys) busyDevice.place
      (busyDevice.place.listOf (busyDevice.place.info 1).level) := by
    unfold SortedByKey
    decide
  apply (matchNearbyKeys_nearest nearWeight 16 (keyOrder_fourZones) hsorted (by decide)
    rfl).2.2.mono
  rintro ⟨s, best, zone⟩ t ⟨-, -, -, hnone⟩
  cases zone with
  | some z => rfl
  | none =>
    have hzero := hnone.mp rfl 0 ⟨by decide, by decide, by decide⟩
    exact absurd hzero (by decide +kernel)

end ZenFs.Device
