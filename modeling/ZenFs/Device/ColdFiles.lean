import ZenFs.Device.Garbage

/-!
Which extents `MigrateColdFiles` moves.

Every zone with files has a difference between the level of its data and the level that its
wear is meant for. The zone with the greatest difference is remembered by its address, as an
`int`.
-/

namespace ZenFs.Device

open List

variable {k m : ℤ}

/-- A zone in the order of the reset counts: its address, and `real_bin - ideal_bin` if the zone
has an entry in `size_map`. -/
structure WornZone where
  start : ℕ
  diff : Option ℤ
  deriving DecidableEq

variable {zones : List WornZone}

/-- The search of `MigrateColdFiles`, from `max_diff` and `zone_start_max_diff` on. -/
def greatestDiff : List WornZone → ℤ × ℤ → ℤ × ℤ
  | [], best => best
  | ⟨_, none⟩ :: rest, best => greatestDiff rest best
  | ⟨start, some diff⟩ :: rest, best =>
    if diff ≤ best.1 then greatestDiff rest best else greatestDiff rest (diff, toInt32 start)

/-- `MigrateColdFiles`: the extents that it hands to `MigrateExtents`. An extent is given by the
start of its zone and what else there is of it. -/
def migrateColdFiles {τ : Type} (zones : List WornZone) (extents : List (ℕ × τ)) : List (ℕ × τ) :=
  let zoneStart := (greatestDiff zones (0, -1)).2
  if zoneStart < 3 then []
  else extents.filter fun x => zoneStart ≥ 0 ∧ (x.1 : ℤ) = zoneStart

def IsGreatestDiff (zones : List WornZone) (m : ℤ) : Prop :=
  0 < m ∧ (∃ z ∈ zones, z.diff = some m) ∧ ∀ z ∈ zones, ∀ k, z.diff = some k → k ≤ m

/-- The extents handed over are all extents of a zone with the greatest difference. There are none
only if no difference is as great as `least`. -/
def MovesColdest {τ : Type} (least : ℤ) (zones : List WornZone) (extents moved : List (ℕ × τ)) :
    Prop :=
  (moved ≠ [] → ∃ z ∈ zones, ∃ m, z.diff = some m ∧ IsGreatestDiff zones m ∧
    moved = extents.filter fun x => x.1 = z.start) ∧
  (moved = [] → ∀ m, IsGreatestDiff zones m → m < least)

theorem greatestDiff_cases (zones : List WornZone) (best : ℤ × ℤ) :
    (greatestDiff zones best = best ∧ ∀ y ∈ zones, ∀ k, y.diff = some k → k ≤ best.1) ∨
    ∃ z m, greatestDiff zones best = (m, toInt32 z.start) ∧ best.1 < m ∧
      zones.find? (·.diff = some m) = some z ∧ ∀ y ∈ zones, ∀ k, y.diff = some k → k ≤ m := by
  induction zones generalizing best with
  | nil => exact .inl ⟨rfl, nofun⟩
  | cons x rest ih =>
    obtain ⟨start, _ | diff⟩ := x
    · simpa [greatestDiff] using ih best
    · rw [greatestDiff]
      split
      · next hle =>
        refine (ih best).imp (fun ⟨hsame, hall⟩ => ⟨hsame, ?_⟩) fun ⟨z, m, hz, hlt, hfind, hall⟩ => ?_
        · simpa [hle] using hall
        · refine ⟨z, m, hz, hlt, ?_, by simpa [hle.trans hlt.le] using hall⟩
          rwa [find?_cons_of_neg (by simpa using (hle.trans_lt hlt).ne)]
      · next hgt =>
        right
        obtain ⟨hsame, hall⟩ | ⟨z, m, hz, hlt, hfind, hall⟩ := ih (diff, toInt32 start)
        · exact ⟨⟨start, some diff⟩, diff, hsame, not_le.mp hgt, by simp, by simpa using hall⟩
        · refine ⟨z, m, hz, (not_le.mp hgt).trans hlt, ?_, by simpa [hlt.le] using hall⟩
          rwa [find?_cons_of_neg (by simpa using hlt.ne)]

/-- What the address of the first zone with the greatest difference becomes as an `int` is the
address of a zone with that difference, and at least 3. Or the difference is not great enough,
and there is nothing at that address. -/
def AddressFits {τ : Type} (least : ℤ) (zones : List WornZone) (extents : List (ℕ × τ)) : Prop :=
  ∀ m z, IsGreatestDiff zones m → zones.find? (·.diff = some m) = some z →
    (3 ≤ toInt32 z.start ∧ ∃ y ∈ zones, y.diff = some m ∧ (y.start : ℤ) = toInt32 z.start) ∨
    (m < least ∧ (3 ≤ toInt32 z.start → ∀ x ∈ extents, (x.1 : ℤ) ≠ toInt32 z.start))

theorem IsGreatestDiff.unique (hm : IsGreatestDiff zones m) (hk : IsGreatestDiff zones k) :
    m = k := by
  obtain ⟨-, ⟨y, hy, hym⟩, hle⟩ := hm
  obtain ⟨-, ⟨z, hz, hzk⟩, hge⟩ := hk
  exact le_antisymm (hge y hy m hym) (hle z hz k hzk)

/-- The right extents are moved, of zones of which each has some, exactly if the address of the
zone survives. -/
theorem migrateColdFiles_iff {τ : Type} {least : ℤ} {zones : List WornZone}
    {extents : List (ℕ × τ)}
    (hextents : ∀ z ∈ zones, z.diff.isSome → ∃ x ∈ extents, x.1 = z.start) :
    MovesColdest least zones extents (migrateColdFiles zones extents) ↔
      AddressFits least zones extents := by
  rw [migrateColdFiles]
  obtain ⟨hsame, hall⟩ | ⟨z, m, hz, hpos, hfind, hall⟩ := greatestDiff_cases zones (0, -1)
  · have hnone (m : ℤ) : ¬ IsGreatestDiff zones m := by
      rintro ⟨hpos, ⟨z, hz, hdiff⟩, -⟩
      exact (hall z hz m hdiff).not_gt hpos
    rw [hsame]
    exact iff_of_true ⟨nofun, fun _ m hm => absurd hm (hnone m)⟩ fun m _ hm => absurd hm (hnone m)
  · have hm : IsGreatestDiff zones m :=
      ⟨hpos, ⟨z, mem_of_find?_eq_some hfind, by simpa using find?_some hfind⟩, hall⟩
    rw [hz]
    constructor
    · rintro ⟨hmoved, hnone⟩ k y hk hy
      cases hk.unique hm
      cases hfind.symm.trans hy
      by_cases hlow : toInt32 z.start < 3
      · exact .inr ⟨hnone (if_pos hlow) m hm, fun hge => absurd hlow hge.not_gt⟩
      rw [if_neg hlow] at hmoved hnone
      cases hlist : extents.filter fun x => decide (toInt32 z.start ≥ 0 ∧ (x.1 : ℤ) = toInt32 z.start) with
      | nil =>
        refine .inr ⟨hnone hlist m hm, fun _ x hx hxz => ?_⟩
        have := filter_eq_nil_iff.mp hlist x hx
        simp only [decide_eq_true_eq] at this
        omega
      | cons x rest =>
        obtain ⟨y, hy, _, hdiff, hk, heq⟩ := hmoved (by rw [hlist]; nofun)
        cases hk.unique hm
        have hx := hlist ▸ mem_cons_self
        have hxy := heq ▸ hx
        simp only [mem_filter, decide_eq_true_eq] at hx hxy
        exact .inl ⟨not_lt.mp hlow, y, hy, hdiff, hxy.2 ▸ hx.2.2⟩
    · intro hfits
      obtain ⟨hge, y, hy, hdiff, haddr⟩ | ⟨hlt, hno⟩ := hfits m z hm hfind
      · rw [if_neg hge.not_gt]
        obtain ⟨x, hx, hxy⟩ := hextents y hy (by rw [hdiff]; rfl)
        refine ⟨fun _ => ⟨y, hy, m, hdiff, hm, filter_congr fun x _ => ?_⟩, fun hnil => ?_⟩
        · rw [decide_eq_decide]
          omega
        · have := filter_eq_nil_iff.mp hnil x hx
          simp only [decide_eq_true_eq] at this
          omega
      · have hnil : (if toInt32 z.start < 3 then [] else extents.filter fun x =>
            decide (toInt32 z.start ≥ 0 ∧ (x.1 : ℤ) = toInt32 z.start)) = [] := by
          split
          · rfl
          · next hge =>
            simp only [filter_eq_nil_iff, decide_eq_true_eq, not_and]
            exact fun x hx _ => hno (not_lt.mp hge) x hx
        rw [hnil]
        exact ⟨fun h => absurd rfl h, fun _ k hk => hk.unique hm ▸ hlt⟩

/-- Of two zones below 2 GiB the one with the greater difference is moved. -/
theorem migrateColdFiles_small : MovesColdest 1 [⟨64, some 1⟩, ⟨128, some 4⟩]
    [(64, 0), (128, 1), (128, 2)] [(128, 1), (128, 2)] := by
  refine (migrateColdFiles_iff (by decide)).mpr fun m z hm hz => .inl ?_
  cases hm.unique (k := 4) ⟨by decide, by decide, by decide⟩
  cases hz
  decide

/-- A zone at 2 GiB is never moved. -/
theorem cold_zone_not_moved : ¬ MovesColdest 3 [⟨2 ^ 31, some 4⟩] [(2 ^ 31, ())]
    (migrateColdFiles [⟨2 ^ 31, some 4⟩] [(2 ^ 31, ())]) := by
  intro h
  have := h.2 (by decide) 4 ⟨by decide, by decide, by decide⟩
  omega

end ZenFs.Device
