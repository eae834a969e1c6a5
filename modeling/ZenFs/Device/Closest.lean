import ZenFs.Device.Nearest

/-!
The searches for a zone that has data of the files next to the file, by position and by rank.

Each round looks at the extents of one or two files and takes the zone of the longest one it
can get. While it holds a zone it cannot acquire it once more, so that a longer extent in the
zone it holds does not count.
-/

namespace ZenFs.Device

open Library Task List Option Nat

variable {extents l : List ZoneExtent} {g : Handle} {z : ℕ}
variable {e : Setup} {a : Holder} {d : Zbd} {n i : ℕ} {files : List Handle}
variable {x : ZoneExtent}

/-- The extent is not empty and lies in a zone that is free, has data and room for `n` bytes. -/
def Zbd.Usable (d : Zbd) (n : ℕ) (x : ZoneExtent) : Prop :=
  0 < x.length ∧ (d.zones x.zone).busy = false ∧ (d.zones x.zone).eligible n = true

instance (x : ZoneExtent) : Decidable (d.Usable n x) := inferInstanceAs (Decidable (_ ∧ _ ∧ _))

def Zbd.HasData (d : Zbd) (n : ℕ) (g : Handle) : Prop := ∃ x ∈ (d.bodies g).extents, d.Usable n x

instance (g : Handle) : Decidable (d.HasData n g) :=
  inferInstanceAs (Decidable (∃ x ∈ (d.bodies g).extents, d.Usable n x))

/-- When an extent takes the place of the one that counts so far. -/
def longer (d : Zbd) (n : ℕ) (x : ZoneExtent) (highest : ℕ) : Option ℕ :=
  if (d.zones x.zone).eligible n && x.length > highest then some x.length else none

theorem longestExtent_run :
    (longestExtent e a extents n).run (exec e) d =
      some ((.OK, bestFree d ZoneExtent.zone (longer d n) extents none 0),
        d.hold a (bestFree d ZoneExtent.zone (longer d n) extents none 0).1) := by
  have hrun : (longestExtent e a extents n).run (exec e) (d.hold a none) = _ :=
    bestZone_run (fun t ht x b => by simp only [ht.eligible]) extents (by simp)
  exact hrun

theorem longer_of_usable (hx : d.Usable n x) (highest : ℕ) :
    longer d n x highest = if highest < x.length then some x.length else none := by
  simp [longer, hx.2.2]

theorem longer_of_not_usable (hfree : (d.zones x.zone).busy = false)
    (hx : ¬ d.Usable n x) (highest : ℕ) : longer d n x highest = none := by
  have hnot : ¬ (0 < x.length ∧ (d.zones x.zone).eligible n = true) := fun hpos =>
    hx ⟨hpos.1, hfree, hpos.2⟩
  rw [longer, if_neg]
  simp only [Bool.and_eq_true, decide_eq_true_eq]
  intro hlonger
  exact hnot ⟨zero_lt_of_lt hlonger.2, hlonger.1⟩

theorem bestFree_filter (l : List ZoneExtent) (kept : Option ℕ) (best : ℕ) :
    bestFree d ZoneExtent.zone (longer d n) l kept best =
      bestFree d ZoneExtent.zone (longer d n) (l.filter (d.Usable n ·)) kept best := by
  induction l generalizing kept best with
  | nil => rfl
  | cons x rest ih =>
    by_cases hx : d.Usable n x
    · rw [filter_cons_of_pos (by simpa using hx), bestFree, bestFree]
      split
      · exact ih kept best
      · split
        · exact ih _ _
        · exact ih _ _
    · rw [filter_cons_of_neg (by simpa using hx), bestFree]
      split
      · exact ih kept best
      · next hskip =>
        have hfree : (d.zones x.zone).busy = false := by simpa using (not_or.mp hskip).1
        rw [longer_of_not_usable hfree hx]
        exact ih kept best

/-- Some round that finds no zone had no usable extent. -/
theorem bestFree_eq_none_iff :
    (bestFree d ZoneExtent.zone (longer d n) l none 0).1 = none ↔ ∀ x ∈ l, ¬ d.Usable n x := by
  constructor
  · intro hnone x hx husable
    have hreject := (bestFree_none hnone).1 x hx husable.2.1
    rw [longer_of_usable husable, if_pos husable.1] at hreject
    cases hreject
  · intro hnot
    rw [bestFree_filter, filter_eq_nil_iff.mpr (by simpa using hnot)]
    rfl

theorem bestFree_usable (hz : (bestFree d ZoneExtent.zone (longer d n) l none 0).1 = some z) :
    ∃ x ∈ l, x.zone = z ∧ d.Usable n x := by
  obtain h | ⟨x, hx, rfl, hfree, b, b', hb⟩ := bestFree_some hz
  · cases h
  · refine ⟨x, hx, rfl, ?_⟩
    by_contra hnot
    rw [longer_of_not_usable hfree hnot] at hb
    cases hb

def HasLongest (xs : List ZoneExtent) (z : ℕ) : Prop :=
  ∃ x ∈ xs, x.zone = z ∧ ∀ y ∈ xs, y.length ≤ x.length

instance (xs : List ZoneExtent) (z : ℕ) : Decidable (HasLongest xs z) :=
  inferInstanceAs (Decidable (∃ x ∈ xs, x.zone = z ∧ ∀ y ∈ xs, y.length ≤ x.length))

/-- No extent that is longer than all before it lies in the zone of the previous one that was. -/
def RecordsMove (xs : List ZoneExtent) : Prop :=
  ∀ j < xs.length, ∀ i < j, ∀ x ∈ xs[i]?, ∀ y ∈ xs[j]?, (∀ w ∈ xs.take i, w.length < x.length) →
    (∀ w ∈ (xs.take j).drop (i + 1), w.length ≤ x.length) → x.length < y.length → y.zone ≠ x.zone

instance : DecidablePred RecordsMove := fun xs =>
  inferInstanceAs (Decidable (∀ j < xs.length, ∀ i < j, ∀ x ∈ xs[i]?, ∀ y ∈ xs[j]?, _))

section Records

variable {xs m rest : List ZoneExtent}

theorem RecordsMove.zone_ne {y : ZoneExtent} (hmove : RecordsMove xs)
    (hsplit : xs = l ++ x :: (m ++ y :: rest)) (hpre : ∀ w ∈ l, w.length < x.length)
    (hmid : ∀ w ∈ m, w.length ≤ x.length) (hlt : x.length < y.length) : y.zone ≠ x.zone := by
  have hupTo : xs = (l ++ x :: m) ++ y :: rest := by simp [hsplit]
  have hpast : l ++ x :: m = (l ++ [x]) ++ m := by simp
  refine hmove (l ++ x :: m).length (by simp [hupTo]) l.length (by simp) x (by simp [hsplit])
    y (by simp [hupTo]) (by simpa [hsplit] using hpre) ?_ hlt
  rw [hupTo, take_left' rfl, hpast, drop_left' (by simp)]
  exact hmid

/-- The invariant of the loop: `x` is the longest extent up to here, and its zone is held. -/
theorem RecordsMove.hasLongest_of_rest (hmove : RecordsMove xs) (husable : ∀ y ∈ xs, d.Usable n y)
    (hsplit : xs = l ++ x :: (m ++ rest)) (hpre : ∀ w ∈ l, w.length < x.length)
    (hmid : ∀ w ∈ m, w.length ≤ x.length) :
    ∃ z, (bestFree d ZoneExtent.zone (longer d n) rest (some x.zone) x.length).1 = some z ∧
      HasLongest xs z := by
  induction rest generalizing l x m with
  | nil =>
    refine ⟨x.zone, rfl, x, by simp [hsplit], rfl, fun y hy => ?_⟩
    rw [hsplit, append_nil] at hy
    obtain hy | rfl | hy : y ∈ l ∨ y = x ∨ y ∈ m := by simpa using hy
    · exact (hpre y hy).le
    · exact le_rfl
    · exact hmid y hy
  | cons y rest ih =>
    have hy : d.Usable n y := husable y (by simp [hsplit])
    rw [bestFree]
    by_cases hlt : x.length < y.length
    · -- The next record is in another zone, so that the loop can acquire it.
      have hzone : y.zone ≠ x.zone := hmove.zone_ne hsplit hpre hmid hlt
      rw [if_neg (by simp [hy.2.1, hzone.symm]), longer_of_usable hy, if_pos hlt]
      refine ih (l := l ++ x :: m) (m := []) (by simp [hsplit]) (fun w hw => ?_) (by simp)
      obtain hw | rfl | hw : w ∈ l ∨ w = x ∨ w ∈ m := by simpa using hw
      · exact (hpre w hw).trans hlt
      · exact hlt
      · exact (hmid w hw).trans_lt hlt
    · have hskip := ih (l := l) (m := m ++ [y]) (by simp [hsplit]) hpre fun w hw => by
        obtain hw | rfl : w ∈ m ∨ w = y := by simpa using hw
        · exact hmid w hw
        · exact not_lt.mp hlt
      split
      · exact hskip
      · rw [longer_of_usable hy, if_neg hlt]
        exact hskip

theorem RecordsMove.hasLongest (hmove : RecordsMove xs) (husable : ∀ y ∈ xs, d.Usable n y)
    (hz : (bestFree d ZoneExtent.zone (longer d n) xs none 0).1 = some z) : HasLongest xs z := by
  cases xs with
  | nil => cases hz
  | cons x rest =>
    have hx := husable x mem_cons_self
    rw [bestFree, if_neg (by simp [hx.2.1]), longer_of_usable hx, if_pos hx.1] at hz
    obtain ⟨y, hy, hlong⟩ := hmove.hasLongest_of_rest (l := []) (m := []) husable rfl (by simp)
      (by simp)
    cases hy.symm.trans hz
    exact hlong

end Records

def atDistance (files : List Handle) (i k : ℕ) : List Handle :=
  (if k ≤ i then files[i - k]? else none).toList ++ files[i + k]?.toList

def usableAt (d : Zbd) (n : ℕ) (files : List Handle) (i k : ℕ) : List ZoneExtent :=
  ((atDistance files i k).flatMap fun g => (d.bodies g).extents).filter (d.Usable n ·)

/-- `k` is the smallest distance at which a file has data. -/
structure NearestAt (d : Zbd) (n : ℕ) (files : List Handle) (i k : ℕ) : Prop where
  pos : 0 < k
  usable : usableAt d n files i k ≠ []
  closer : ∀ j, 0 < j → j < k → usableAt d n files i j = []

/-- What `ChooseZoneWithClosestFile` is for: no zone exactly if no other file has data in one
that can take the file, and else one with a longest extent of the nearest files that have. -/
def TakesClosestFile (e : Setup) (a : Holder) (i : ℕ) (files : List Handle) (n : ℕ) (d : Zbd) :
    Prop :=
  (chooseZoneWithClosestFile e a i files n).Returns (exec e) d fun r t =>
    r.1 = .OK ∧ t = d.hold a r.2 ∧
    (r.2 = none ↔ ∀ j g, j ≠ i → files[j]? = some g → ¬ d.HasData n g) ∧
    ∀ z, r.2 = some z → ∃ k, NearestAt d n files i k ∧ HasLongest (usableAt d n files i k) z

theorem findSome_range_eq_some_iff {β : Type} {f : ℕ → Option β} {m : ℕ} {b : β} :
    (range m).findSome? f = some b ↔ ∃ k < m, f k = some b ∧ ∀ j < k, f j = none := by
  induction m with
  | zero => simp
  | succ m ih =>
    rw [range_succ, findSome?_append, or_eq_some_iff, ih]
    simp only [findSome?_eq_none_iff, mem_range, findSome?_singleton]
    constructor
    · rintro (⟨k, hk, hf⟩ | ⟨hnone, hf⟩)
      · exact ⟨k, by omega, hf⟩
      · exact ⟨m, by omega, hf, hnone⟩
    · rintro ⟨k, hk, hf, hnone⟩
      obtain hlt | rfl := Nat.lt_succ_iff_lt_or_eq.mp hk
      · exact .inl ⟨k, hlt, hf, hnone⟩
      · exact .inr ⟨hnone, hf⟩

variable {k : ℕ}

theorem mem_atDistance :
    g ∈ atDistance files i k ↔ (k ≤ i ∧ files[i - k]? = some g) ∨ files[i + k]? = some g := by
  simp only [atDistance]
  split
  · next hk => simp [hk]
  · next hk => simp [hk]

theorem usableAt_eq_nil_iff :
    usableAt d n files i k = [] ↔ ∀ g ∈ atDistance files i k, ¬ d.HasData n g := by
  simp only [usableAt, filter_eq_nil_iff, mem_flatMap, decide_eq_true_eq]
  constructor
  · rintro hnone g hg ⟨x, hx, husable⟩
    exact hnone x ⟨g, hg, hx⟩ husable
  · rintro hnone x ⟨g, hg, hx⟩ husable
    exact hnone g hg ⟨x, hx, husable⟩

theorem usable_of_mem_usableAt (hx : x ∈ usableAt d n files i k) :
    d.Usable n x := by
  simpa using (mem_filter.mp hx).2

theorem forall_usableAt_eq_nil_iff :
    (∀ k, 0 < k → usableAt d n files i k = []) ↔
      ∀ j g, j ≠ i → files[j]? = some g → ¬ d.HasData n g := by
  simp only [usableAt_eq_nil_iff, mem_atDistance]
  constructor
  · intro hnone j g hj hg
    obtain hlt | hlt := lt_or_gt_of_ne hj
    · refine hnone (i - j) (by omega) g (.inl ⟨by omega, ?_⟩)
      rwa [show i - (i - j) = j by omega]
    · refine hnone (j - i) (by omega) g (.inr ?_)
      rwa [show i + (j - i) = j by omega]
  · rintro hnone k hk g (⟨hki, hg⟩ | hg)
    all_goals exact hnone _ g (by omega) hg

theorem byDistance_eq (hi : i < files.length) :
    byDistance files i = (range files.length).map fun k => atDistance files i (k + 1) := by
  refine map_congr_left fun k _ => ?_
  have hbefore : (files.take i).reverse[k]? = if k + 1 ≤ i then files[i - (k + 1)]? else none := by
    have hlength : (files.take i).length = i := by
      rw [length_take]
      omega
    by_cases hk : k < i
    · rw [getElem?_reverse (by omega), if_pos (by omega),
        getElem?_take_of_lt (by omega)]
      congr 1
      omega
    · rw [if_neg (by omega), getElem?_eq_none (by rw [length_reverse]; omega)]
  rw [getElem?_drop]
  congr 3
  omega

def firstRound (d : Zbd) (n : ℕ) (l : List (List Handle)) : Option ℕ :=
  l.findSome? fun files => (bestFree d ZoneExtent.zone (longer d n)
    (files.flatMap fun g => (d.bodies g).extents) none 0).1

theorem closestFileRounds_run (l : List (List Handle)) :
    (closestFileRounds e a n l).run (exec e) d =
      some ((.OK, firstRound d n l), d.hold a (firstRound d n l)) := by
  induction l with
  | nil => rfl
  | cons files rest ih =>
    rw [closestFileRounds, run_bind, look_run, bind_some, run_bind, longestExtent_run,
      firstRound]
    cases hround : (bestFree d ZoneExtent.zone (longer d n)
        (files.flatMap fun g => (d.bodies g).extents) none 0).1 with
    | some z => simp [hround]
    | none => simpa [hround, firstRound] using ih

theorem firstRound_byDistance (hi : i < files.length) :
    firstRound d n (byDistance files i) = (range files.length).findSome? fun k =>
      (bestFree d ZoneExtent.zone (longer d n) (usableAt d n files i (k + 1)) none 0).1 := by
  rw [firstRound, byDistance_eq hi, findSome?_map]
  congr 1
  funext k
  simp only [Function.comp_apply]
  rw [bestFree_filter]
  rfl

theorem bestFree_usableAt_eq_none_iff :
    (bestFree d ZoneExtent.zone (longer d n) (usableAt d n files i k) none 0).1 = none ↔
      usableAt d n files i k = [] := by
  rw [bestFree_eq_none_iff, eq_nil_iff_forall_not_mem]
  exact forall_congr' fun x => ⟨fun hnot hx => hnot hx (usable_of_mem_usableAt hx),
    fun hnot hx => absurd hx hnot⟩

theorem usableAt_of_far (hi : i < files.length) (hk : files.length ≤ k) :
    usableAt d n files i k = [] := by
  rw [usableAt_eq_nil_iff]
  intro g hg
  obtain ⟨hle, -⟩ | hg := mem_atDistance.mp hg
  · omega
  · rw [getElem?_eq_none (by omega)] at hg
    cases hg

theorem firstRound_eq_none_iff (hi : i < files.length) :
    firstRound d n (byDistance files i) = none ↔
      ∀ j g, j ≠ i → files[j]? = some g → ¬ d.HasData n g := by
  rw [firstRound_byDistance hi, findSome?_eq_none_iff, ← forall_usableAt_eq_nil_iff]
  simp only [mem_range, bestFree_usableAt_eq_none_iff]
  constructor
  · intro hnone k hk
    by_cases hfar : files.length ≤ k
    · exact usableAt_of_far hi hfar
    · obtain ⟨m, rfl⟩ := Nat.exists_eq_add_of_lt hk
      simpa using hnone (0 + m) (by omega)
  · exact fun hnone k _ => hnone (k + 1) (by omega)

/-- The rounds end at the smallest distance at which a file has data. -/
theorem firstRound_eq_some (hi : i < files.length)
    (hz : firstRound d n (byDistance files i) = some z) :
    ∃ k, NearestAt d n files i k ∧
      (bestFree d ZoneExtent.zone (longer d n) (usableAt d n files i k) none 0).1 = some z := by
  rw [firstRound_byDistance hi, findSome_range_eq_some_iff] at hz
  obtain ⟨k, -, hk, hcloser⟩ := hz
  have husable : usableAt d n files i (k + 1) ≠ [] := by
    rw [Ne, ← bestFree_usableAt_eq_none_iff, hk]
    nofun
  refine ⟨k + 1, ⟨by omega, husable, fun j hj hjk => ?_⟩, hk⟩
  obtain ⟨m, rfl⟩ := exists_eq_succ_of_ne_zero hj.ne'
  exact bestFree_usableAt_eq_none_iff.mp (hcloser m (by omega))

theorem NearestAt.eq {l : ℕ} (hk : NearestAt d n files i k) (hl : NearestAt d n files i l) :
    k = l := by
  obtain hlt | heq | hlt := lt_trichotomy k l
  · exact absurd (hl.closer k hk.pos hlt) hk.usable
  · exact heq
  · exact absurd (hk.closer l hl.pos hlt) hl.usable

/-- The search does what it is for if, going through the usable extents of the nearest files that
have any, it never meets a longer one in the zone that it holds. -/
theorem takesClosestFile_of_recordsMove (hi : i < files.length)
    (hmove : ∀ k, NearestAt d n files i k → RecordsMove (usableAt d n files i k)) :
    TakesClosestFile e a i files n d := by
  have hrun : (chooseZoneWithClosestFile e a i files n).run (exec e) d = _ :=
    closestFileRounds_run (byDistance files i)
  refine ⟨_, _, hrun, rfl, rfl, firstRound_eq_none_iff hi, fun z hz => ?_⟩
  obtain ⟨k, hk, hbest⟩ := firstRound_eq_some hi hz
  exact ⟨k, hk, (hmove k hk).hasLongest (fun y hy => usable_of_mem_usableAt hy) hbest⟩

theorem takesClosestFile_busyDevice :
    TakesClosestFile (fourZones .oaza) me 1 [2, 1, 3] 16 busyDevice := by
  refine takesClosestFile_of_recordsMove (by decide) fun k hk => ?_
  have hone : NearestAt busyDevice 16 [2, 1, 3] 1 1 :=
    ⟨by decide, by decide +kernel, fun j hj hlt => by omega⟩
  obtain rfl : k = 1 := hk.eq hone
  decide +kernel

/-- A file with an extent of 16 bytes and one of 32 in the first zone, and then one of 24 bytes
in the second. -/
def splitDevice : Zbd :=
  { neighbourDevice with
    zones := fun z =>
      if z = 0 then { smallDevice.zones 0 with capacity := 16, wp := 48, usedCapacity := 48 }
      else if z = 1 then { smallDevice.zones 1 with capacity := 32, wp := 96, usedCapacity := 24 }
      else smallDevice.zones z
    bodies := fun g =>
      if g = 2 then { FileBody.new with extents := [⟨0, 16, 0⟩, ⟨16, 32, 0⟩, ⟨64, 24, 1⟩] }
      else .new }

/-- The search gives up the zone with the extent of 32 bytes for the one of 24 bytes. -/
theorem closest_file_not_longest :
    ¬ TakesClosestFile (smallSetup .oaza) me 0 [1, 2] 16 splitDevice := by
  rintro ⟨r, t, hr, -, -, -, hlongest⟩
  have hrun : ((chooseZoneWithClosestFile (smallSetup .oaza) me 0 [1, 2] 16).run
      (exec (smallSetup .oaza)) splitDevice).map (·.1.2) = some (some 1) := by decide +kernel
  rw [hr] at hrun
  obtain ⟨k, hk, hlong⟩ := hlongest 1 (some.inj hrun)
  have hone : NearestAt splitDevice 16 [1, 2] 0 1 :=
    ⟨by decide, by decide +kernel, fun j hj hlt => by omega⟩
  rw [hk.eq hone] at hlong
  exact absurd hlong (by decide +kernel)

end ZenFs.Device
