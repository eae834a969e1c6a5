import Mathlib.Algebra.Order.BigOperators.Group.Finset
import Mathlib.Data.Rat.Floor
import ZenFs.Device.Nearest
import ZenFs.Device.Uniqueness

/-!
`used_capacity_` against the extents of the files.

A zone's counter has at least the bytes of all files in the zone. The nearest-keys policy
counts the bytes of the files of one level, each file once and with a weight of at most one,
so what it counts stays below the counter, provided no file is recorded twice.
-/

namespace ZenFs.Device

open Library Task Judgement List Function Finset Zbd

variable {b : FileBody} {contribution credit' : ℕ → ℕ} {f : Zbd → Placement × List Handle}
variable {highest n z : ℕ} {level : ℤ} {o : Call} {policy : Policy} {s : Status} {u : Zbd}
variable {w : ℕ → ℚ} {weight : ℚ} {zone : Zone} {r : o.Res}

def bytesIn (extents : List ZoneExtent) (z : ℕ) : ℕ :=
  ((extents.filter (·.zone = z)).map (·.length)).sum

def Zbd.extents (d : Zbd) (h : Handle) : List ZoneExtent := (d.bodies h).extents

def Zbd.bytes (d : Zbd) (h : Handle) (z : ℕ) : ℕ := bytesIn (d.extents h) z

/-- `used_capacity_` of every zone has the bytes of all files in it and `credit` more. -/
def Covered (credit : ℕ → ℕ) (d : Zbd) : Prop :=
  ∀ z (files : Finset Handle),
    ∑ g ∈ files, d.bytes g z + credit z ≤ (d.zones z).usedCapacity

/-- In this state the share that `MatchSameLevelNearbyKeys` compares with the threshold is at
most one: what it computes for the zone it chooses does not exceed `used_capacity_`. -/
def Proper (e : Setup) (d : Zbd) : Prop :=
  ∀ a h minCapacity s z highest t,
    (chooseZoneWithHighestContrib e a (nearbyContributions e h d nearWeight) minCapacity).run
      (exec e) d = some ((s, some z, highest), t) → highest ≤ (t.zones z).usedCapacity

variable {e : Setup} {a : Holder} {h : Handle} {d t : Zbd} {credit : ℕ → ℕ}

theorem zoneBytes_le (hweight : weight ≤ 1) (extents : List ZoneExtent) (z : ℕ) :
    zoneBytes weight extents z ≤ bytesIn extents z := by
  apply List.sum_le_sum
  intro x _
  have hle : weight * x.length ≤ ((x.length : ℤ) : ℚ) := by
    exact mul_le_of_le_one_left (Nat.cast_nonneg _) hweight
  have hfloor : (weight * x.length).floor ≤ x.length := by
    have hmono := Rat.floor_monotone hle
    rwa [Rat.floor_intCast] at hmono
  omega

theorem nearWeight_le_one (k : ℕ) : nearWeight k ≤ 1 := by
  induction k with
  | zero => exact le_rfl
  | succ k ih =>
    apply max_le <;> linarith

theorem weightedContributions_le (bodies : Handle → FileBody) (hw : ∀ k, w k ≤ 1)
    (k : ℕ) (files : List Handle) (result : ℕ → ℕ) (z : ℕ) :
    weightedContributions bodies w k files result z ≤
      result z + (files.map fun g => bytesIn (bodies g).extents z).sum := by
  induction files generalizing k result with
  | nil => simp [weightedContributions]
  | cons g rest ih =>
    have hrest := ih (k + 1) (getPerZoneContribution (bodies g).extents (w k) result)
    have hg := zoneBytes_le (hw k) (bodies g).extents z
    rw [getPerZoneContribution_eq] at hrest
    rw [weightedContributions, List.map_cons, List.sum_cons]
    omega

/-- The policy counts every file of the level once at most. -/
theorem nearbyContributions_le (z : ℕ) : nearbyContributions e h d nearWeight z ≤
    ((d.place.listOf (d.place.info h).level).map fun g => d.bytes g z).sum := by
  rw [nearbyContributions, Placement.getSameLevelFiles]
  generalize d.place.listOf (d.place.info h).level = files
  set smaller := files.takeWhile fun g =>
    e.sstableKeyCompare (d.place.info g).smallest (d.place.info h).smallest < 0 with hsmaller
  set after := (files.drop smaller.length).filter (· ≠ h) with hafter
  have hbefore := weightedContributions_le d.bodies nearWeight_le_one 0 smaller.reverse
    (weightedContributions d.bodies nearWeight 0 after fun _ => 0) z
  have hbehind := weightedContributions_le d.bodies nearWeight_le_one 0 after
    (fun _ => 0) z
  have hfilter : (after.map fun g => d.bytes g z).sum ≤
      ((files.drop smaller.length).map fun g => d.bytes g z).sum :=
    (filter_sublist.map _).sum_le_sum fun _ _ => Nat.zero_le _
  have hsplit : (files.map fun g => d.bytes g z).sum = (smaller.map fun g => d.bytes g z).sum +
      ((files.drop smaller.length).map fun g => d.bytes g z).sum := by
    rw [← sum_append, ← map_append,
      prefix_iff_eq_append.mp (hsmaller ▸ takeWhile_prefix _)]
  rw [map_reverse, sum_reverse] at hbefore
  simp only [bytes, extents] at hfilter hsplit ⊢
  omega

theorem sum_listOf_le (hd : Covered credit d) (hnodup : d.place.recorded.Nodup)
    (z : ℕ) : ((d.place.listOf level).map fun g => d.bytes g z).sum ≤
      (d.zones z).usedCapacity := by
  have hlevel : (d.place.listOf level).Nodup := by
    rw [Placement.listOf]
    split
    · exact nodup_nil
    · cases hget : d.place.lists[level.toNat]? with
      | none => exact nodup_nil
      | some files =>
        exact (nodup_flatten.mp hnodup).1 files (mem_of_getElem? hget)
  have hsum := hd z (d.place.listOf level).toFinset
  rw [sum_toFinset _ hlevel] at hsum
  omega

theorem chooseZoneWithHighestContrib_ends
    (hrun : (chooseZoneWithHighestContrib e a contribution n).run (exec e) d =
      some ((s, some z, highest), t)) :
    contribution z = highest ∧ (t.zones z).usedCapacity = (d.zones z).usedCapacity := by
  have hresult : (chooseZoneWithHighestContrib e a contribution n).run (exec e) (d.hold a none) = _ :=
    bestZone_run (fun t ht z b => by simp only [ht.eligible]) e.ioZones (by simp)
  obtain ⟨hlead, -⟩ : let r := bestFree d id (outbids d n contribution) e.ioZones none 0
      Leads contribution r.1 r.2 ∧ _ := bestFree_highest (.inl ⟨rfl, rfl⟩)
  obtain ⟨hr, rfl⟩ := Prod.mk.inj (Option.some.inj (hrun.symm.trans hresult))
  obtain ⟨-, hr⟩ := Prod.mk.inj hr
  change (some z, highest) = bestFree d id (outbids d n contribution) e.ioZones none 0 at hr
  rw [← hr] at hlead
  refine ⟨?_, (d.alike_refl.hold a _).usedCapacity z⟩
  obtain ⟨hnone, -⟩ | ⟨y, hy, hscore, -⟩ := hlead
  · cases hnone
  · cases hy
    exact hscore

theorem proper_of_covered (hd : Covered credit d) (hnodup : d.place.recorded.Nodup) :
    Proper e d := by
  intro a h n s z highest t hrun
  obtain ⟨hhighest, hused⟩ := chooseZoneWithHighestContrib_ends hrun
  rw [hused, ← hhighest]
  exact (nearbyContributions_le z).trans (sum_listOf_le hd hnodup z)

theorem bytesIn_append (l m : List ZoneExtent) (z : ℕ) :
    bytesIn (l ++ m) z = bytesIn l z + bytesIn m z := by
  simp [bytesIn]

theorem bytesIn_cons (x : ZoneExtent) (l : List ZoneExtent) (z : ℕ) :
    bytesIn (x :: l) z = (if x.zone = z then x.length else 0) + bytesIn l z := by
  by_cases hz : x.zone = z <;> simp [bytesIn, hz]

theorem Covered.of_file (hd : Covered credit d) (h : Handle)
    (hother : ∀ g, g ≠ h → t.extents g = d.extents g)
    (hbooks : ∀ z, t.bytes h z + credit' z + (d.zones z).usedCapacity ≤
      d.bytes h z + credit z + (t.zones z).usedCapacity) : Covered credit' t := by
  intro z files
  have hsum : ∑ g ∈ files.erase h, t.bytes g z = ∑ g ∈ files.erase h, d.bytes g z := by
    apply sum_congr rfl
    intro g hg
    rw [bytes, bytes, hother g (ne_of_mem_erase hg)]
  have hall : ∑ g ∈ insert h (files.erase h), d.bytes g z + credit z ≤ (d.zones z).usedCapacity :=
    hd z _
  have hle : ∑ g ∈ files, t.bytes g z ≤ ∑ g ∈ insert h (files.erase h), t.bytes g z :=
    sum_le_sum_of_subset fun g hg => by
      by_cases hgh : g = h <;> simp [hgh, hg]
  have hz := hbooks z
  rw [sum_insert (notMem_erase h files)] at hall hle
  omega

structure SameBooks (d t : Zbd) : Prop where
  extents : t.extents = d.extents
  used : ∀ z, (t.zones z).usedCapacity = (d.zones z).usedCapacity

theorem SameBooks.trans (h : SameBooks d t) (h' : SameBooks t u) : SameBooks d u :=
  ⟨h'.extents.trans h.extents, fun z => (h'.used z).trans (h.used z)⟩

theorem sameBooks_of_zone (hzones : t.zones = update d.zones z zone)
    (hbodies : t.bodies = d.bodies) (hused : zone.usedCapacity = (d.zones z).usedCapacity) :
    SameBooks d t := by
  refine ⟨by unfold extents; rw [hbodies], fun y => ?_⟩
  rw [hzones]
  by_cases hy : y = z
  · subst hy
    rw [update_self, hused]
  · rw [update_of_ne hy]

theorem sameBooks_of_body (hbodies : t.bodies = update d.bodies h b)
    (hzones : t.zones = d.zones) (hextents : b.extents = (d.bodies h).extents) :
    SameBooks d t := by
  refine ⟨?_, fun y => by rw [hzones]⟩
  funext g
  unfold extents
  rw [hbodies]
  by_cases hg : g = h
  · subst hg
    rw [update_self, hextents]
  · rw [update_of_ne hg]

theorem sameBooks_of_eq (hbodies : t.bodies = d.bodies) (hzones : t.zones = d.zones) :
    SameBooks d t := ⟨by unfold extents; rw [hbodies], fun z => by rw [hzones]⟩

def Call.sparesBooks : Call → Bool
  | .use _ _ => false
  | .body _ _ => false
  | _ => true

theorem exec_sparesBooks (ho : o.sparesBooks = true)
    (hr : exec e o d = some (r, t)) : SameBooks d t := by
  rw [exec_writes hr]
  cases o with
  | use | body => cases ho
  | acquire | release | reset | finish | append | tag => exact sameBooks_of_zone rfl rfl rfl
  | setActiveZone | clearActiveZone => exact sameBooks_of_body rfl rfl rfl
  | _ => exact ⟨rfl, fun _ => rfl⟩

theorem Covered.same (hd : Covered credit d) (h : SameBooks d t) : Covered credit t := by
  intro z files
  have hsum : ∑ g ∈ files, t.bytes g z = ∑ g ∈ files, d.bytes g z := by
    apply sum_congr rfl
    intro g _
    rw [bytes, bytes, h.extents]
  rw [hsum, h.used]
  exact hd z files

/-- When the lists are about to be used, what the policy counts is proper. -/
def ProperAtLists (e : Setup) (o : Call) (d : Zbd) : Prop :=
  o = .lock .levelwiseFiles → Proper e (d.setLocked .levelwiseFiles true)

/-- The counters have the bytes of all files and `credit` more, the extents satisfy `keep`, and
no file is recorded twice. -/
structure InOrder (credit : ℕ → ℕ) (keep : (Handle → List ZoneExtent) → Prop) (d : Zbd) :
    Prop where
  covered : Covered credit d
  keeps : keep d.extents
  accounted : d.place.Accounted

variable {keep : (Handle → List ZoneExtent) → Prop}

theorem InOrder.proper (hd : InOrder credit keep d) : Proper e d :=
  proper_of_covered hd.covered hd.accounted.unique

theorem InOrder.same (hd : InOrder credit keep d) (h : SameBooks d t) (hplace : t.place.Accounted) :
    InOrder credit keep t :=
  ⟨hd.covered.same h, h.extents ▸ hd.keeps, hplace⟩

theorem InOrder.properAtLists (hd : InOrder credit keep d) (o : Call) : ProperAtLists e o d :=
  fun _ => proper_of_covered (hd.covered.same (sameBooks_of_eq rfl rfl)) hd.accounted.unique

/-- Keeping order, and finding what the policy counts proper whenever the lists are used. -/
abbrev orderly (e : Setup) (credit : ℕ → ℕ) (keep : (Handle → List ZoneExtent) → Prop) :
    Judgement Call.Res :=
  .heeds (exec e) (ProperAtLists e) (InOrder credit keep)

theorem orderly_call (ho : o.sparesBooks = true) (hplace : ∀ f, o ≠ .place f)
    (hdel : ∀ h, o ≠ .setDeleted h) : (orderly e credit keep).Calls o := by
  intro s hs
  refine .op (hs.properAtLists o) fun r t hr => ⟨hs.same (exec_sparesBooks ho hr) ?_, trivial⟩
  rw [exec_place hplace hdel hr]
  exact hs.accounted

theorem orderly_place
    (hf : ∀ d, d.place.Accounted → (f d).1.Accounted) :
    (orderly e credit keep).Calls (.place f) := by
  intro s hs
  refine .op (hs.properAtLists _) ?_
  rintro _ _ ⟨⟩
  exact ⟨hs.same (sameBooks_of_eq rfl rfl) (hf s hs.accounted), trivial⟩

theorem orderly_body {f : FileBody → FileBody} (hf : ∀ b, (f b).extents = b.extents) :
    (orderly e credit keep).Calls (.body h f) := by
  intro s hs
  refine .op (hs.properAtLists _) ?_
  rintro _ _ ⟨⟩
  exact ⟨hs.same (sameBooks_of_body rfl rfl (hf _)) hs.accounted, trivial⟩

theorem handles_orderly : Handles a (orderly e credit keep) := by
  constructor
  iterate 3 on_goal 1 => constructor
  all_goals
    intros
    exact orderly_call rfl nofun nofun

theorem logs_orderly : Logs a (orderly e credit keep) := by
  constructor <;> intros <;> exact orderly_call rfl nofun nofun

structure Setup.Plaza (e : Setup) : Prop where
  upper : e.upperLevelPolicy = .sameLevelNearbyKeys
  upperFallback : e.upperLevelPolicyFallback = .sameLevelNearbyKeys
  middle : e.middleLevelPolicy = .sameLevelNearbyKeys
  middleFallback : e.middleLevelPolicyFallback = .sameLevelNearbyKeys
  lower : e.lowerLevelPolicy = .sameLevelNearbyKeys
  lowerFallback : e.lowerLevelPolicyFallback = .sameLevelNearbyKeys

/-- No policy of this configuration touches the placement data. -/
theorem Setup.Plaza.policyChange_eq_none (he : e.Plaza)
    (hpolicy : policy = e.getPolicy level ∨ policy = e.getSecondaryPolicy level) :
    policyChange e h policy = none := by
  obtain rfl | rfl := hpolicy
  · unfold Params.getPolicy
    split_ifs
    · rfl
    · rw [he.upper]; rfl
    · rw [he.lower]; rfl
    · rw [he.middle]; rfl
  · unfold Params.getSecondaryPolicy
    split_ifs
    · rfl
    · rw [he.upperFallback]; rfl
    · rw [he.lowerFallback]; rfl
    · rw [he.middleFallback]; rfl

theorem places_orderly (he : e.Plaza) : Places e h (orderly e credit keep) where
  raiseForEmptyZone level := by
    apply orderly_place
    intro d hd
    rw [raiseForEmptyZone]
    split
    · exact hd.alike (Placement.alike_raiseMaxLevel)
    · exact hd
  raiseMaxLevel := orderly_place fun _ hd => hd.alike (Placement.alike_raiseMaxLevel)
  setAllocSize _ := orderly_place fun _ hd => hd.alike (Placement.Alike.setInfo rfl)
  policies s hs := by
    refine (orderly_call (o := .look) rfl (by rintro _ ⟨⟩) (by rintro _ ⟨⟩) s hs).mono fun d t ht => ⟨ht.1, ?_⟩
    intro _ policy hpolicy f hf
    rw [he.policyChange_eq_none hpolicy] at hf
    cases hf

theorem sync_orderly : (orderly e credit keep).Admits (syncFileMetadata e a h) :=
  syncFileMetadata_admits handles_orderly.toSeeks logs_orderly (orderly_call rfl nofun nofun)
    (orderly_call rfl nofun nofun)

theorem advances_orderly (he : e.Plaza) : Advances e a h (orderly e credit keep) where
  handles := handles_orderly
  places := places_orderly he
  close _ := orderly_call rfl nofun nofun
  release _ := orderly_call rfl nofun nofun
  setActiveZone _ := orderly_call rfl nofun nofun
  clearActiveZone := orderly_call rfl nofun nofun
  startExtent _ := orderly_body fun _ => rfl
  sync := sync_orderly

end ZenFs.Device
