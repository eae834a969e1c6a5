import ZenFs.Device.Lists
import ZenFs.Device.Matches

/-!
What a migration does to the placement data.

`TakeMigrateZone` looks for its target as a write does, with the policies of the file's level,
and some of these record the file anew. A migration is free of side effects exactly if the
policies of the level find the file where they would put it.
-/

namespace ZenFs.Device

open Library Task Judgement List Option FileInfo

variable {best n : ℕ} {l : ℤ} {q r : Placement} {x : ZoneExtent}

namespace Placement

variable {e : Setup} {h g : Handle} {p : Placement} {policy : Policy}

theorem listOf_removeZoneFileRecord (level : ℤ) :
    (p.removeZoneFileRecord h).listOf level = (p.listOf level).filter (· ≠ h) := by
  rw [listOf, listOf, removeZoneFileRecord, getElem?_map]
  split
  · rfl
  · cases p.lists[level.toNat]? <;> rfl

theorem getD_resize (lists : List (List Handle)) (n i : ℕ) :
    ((resize lists n)[i]?).getD [] = (lists[i]?).getD [] := by
  rw [resize]
  by_cases hi : i < lists.length
  · rw [getElem?_append_left hi]
  · rw [getElem?_append_right (not_lt.mp hi), getElem?_eq_none (not_lt.mp hi),
      getElem?_replicate]
    split <;> rfl

theorem listOf_addZoneFileRecord (hl : (p.info h).listed = true) (level : ℤ) :
    (p.addZoneFileRecord e h).listOf level =
      if level = (p.info h).level then p.insertRecord e h (p.listOf level) else p.listOf level := by
  have hlevel : 0 ≤ (p.info h).level := level_nonneg hl
  by_cases hneg : level < 0
  · have hne : level ≠ (p.info h).level := by omega
    simp [listOf, hneg, hne]
  · simp only [addZoneFileRecord, hl, Bool.not_true, Bool.false_eq_true, if_false, listOf, hneg]
    rw [getElem?_modify]
    by_cases hlev : level = (p.info h).level
    · have hlen : level.toNat < (resize p.lists (level.toNat + 1)).length := by
        rw [length_resize]
        omega
      rw [← hlev, ← getD_resize p.lists (level.toNat + 1),
        getElem?_eq_getElem hlen]
      simp
    · have hne : (p.info h).level.toNat ≠ level.toNat := by omega
      rw [if_neg hlev, ← getD_resize p.lists ((p.info h).level.toNat + 1)]
      simp [hne]

theorem listOf_relevel (hl : (p.info h).listed = true) (hpos : 0 ≤ l) (level : ℤ) :
    ((p.relevel e h l).listOf level).Perm
      ((if level = l then [h] else []) ++ (p.listOf level).filter (· ≠ h)) := by
  have hlisted : (((p.removeZoneFileRecord h).setLevel h l).info h).listed = true := by
    simp only [FileInfo.listed, Bool.and_eq_true] at hl
    simp [setLevel, FileInfo.listed, hl.1.1, hl.2, hpos]
  have hlevel : (((p.removeZoneFileRecord h).setLevel h l).info h).level = l := by simp [setLevel]
  rw [relevel, listOf_addZoneFileRecord hlisted, hlevel, ← listOf_removeZoneFileRecord]
  split
  · exact insertRecord_perm _
  · rfl

theorem filter_listOf_relevel (hl : (p.info h).listed = true) (hpos : 0 ≤ l) (level : ℤ) :
    (((p.relevel e h l).listOf level).filter (· ≠ h)).Perm
      ((p.listOf level).filter (· ≠ h)) := by
  have hperm := (listOf_relevel (e := e) hl hpos level).filter (· ≠ h)
  split at hperm
  · simpa using hperm
  · simpa using hperm

def RecordedOnce (p : Placement) (h : Handle) : Prop :=
  ∀ level, (p.listOf level).count h = if level = (p.info h).level then 1 else 0

theorem recordedOnce_relevel (hl : (p.info h).listed = true) (hpos : 0 ≤ l) :
    (p.relevel e h l).RecordedOnce h := by
  intro level
  have hnone : ((p.listOf level).filter (· ≠ h)).count h = 0 := count_eq_zero.mpr (by simp)
  rw [(listOf_relevel hl hpos level).count_eq, count_append, hnone, relevel_info_self]
  split <;> simp

theorem length_lists_relevel (hhas : p.hasLevel l = true) :
    (p.relevel e h l).lists.length = p.lists.length := by
  simp only [hasLevel, Bool.and_eq_true, decide_eq_true_eq] at hhas
  rw [relevel, addZoneFileRecord]
  split
  · simp [setLevel, removeZoneFileRecord]
  · simp only [setLevel, setInfo_info_self, length_modify, length_resize, setInfo_lists,
      removeZoneFileRecord, length_map]
    omega

theorem perm_of_filter_ne {l m : List Handle} (hothers : (l.filter (· ≠ h)).Perm (m.filter (· ≠ h)))
    (hcount : l.count h = m.count h) : l.Perm m := by
  rw [perm_iff_count]
  intro g
  by_cases hg : g = h
  · rw [hg, hcount]
  · have hkeep (k : List Handle) : (k.filter (· ≠ h)).count g = k.count g :=
      count_filter (decide_eq_true hg)
    rw [← hkeep l, ← hkeep m, hothers.count_eq]

/-- Level, key range and lifetime of all files are the same, and so is the content of the
list of each level. -/
structure SamePlaces (p q : Placement) : Prop where
  level : ∀ g, (q.info g).level = (p.info g).level
  smallest : ∀ g, (q.info g).smallest = (p.info g).smallest
  largest : ∀ g, (q.info g).largest = (p.info g).largest
  hasKeys : ∀ g, (q.info g).hasKeys = (p.info g).hasKeys
  lifetime : ∀ g, (q.info g).lifetime = (p.info g).lifetime
  lists : ∀ level, (q.listOf level).Perm (p.listOf level)

def Ran (e : Setup) (h : Handle) (policy : Policy) (p q : Placement) : Prop :=
  ∃ r, Reranked p r ∧ Reranked (r.recordAnew e h (p.newLevel e h policy)) q

theorem hasLevel_of_newLevel (hl : p.newLevel e h policy = some (p.info h).level) :
    p.hasLevel (p.info h).level = true := by
  cases policy with
  | sameLevelNearbyKeysSimple =>
    simp only [newLevel, ite_none_right_eq_some] at hl
    exact hl.1
  | overlapChildren | oaza =>
    simp only [newLevel, ite_none_right_eq_some, some.injEq] at hl
    omega
  | _ => cases hl

namespace Ran

section

variable (hpq : Ran e h policy p q)
include hpq

theorem reranked (hqr : Ran e h .lifetimeBased q r) :
    Ran e h policy p r := by
  obtain ⟨s, hps, hsq⟩ := hpq
  obtain ⟨t, hqt, htr⟩ := hqr
  exact ⟨s, hps, (hsq.trans hqt).trans htr⟩

theorem level_le : (p.info h).level ≤ (q.info h).level := by
  obtain ⟨r, hpr, hrq⟩ := hpq
  rw [(hrq.unmoved h).level, ← (hpr.unmoved h).level]
  cases hnew : p.newLevel e h policy with
  | none => rfl
  | some l =>
    rw [recordAnew, relevel_info_self, (hpr.unmoved h).level]
    exact level_le_newLevel hnew

theorem newLevel_eq (hlevel : (q.info h).level = (p.info h).level)
    (hnew : p.newLevel e h policy = some l) : l = (p.info h).level := by
  obtain ⟨r, hpr, hrq⟩ := hpq
  rw [(hrq.unmoved h).level, hnew, recordAnew, relevel_info_self] at hlevel
  exact hlevel

theorem unmoved (hlisted : (p.info h).listed = true)
    (hlevel : ∀ l, p.newLevel e h policy = some l → l = (p.info h).level) : Unmoved h p q := by
  obtain ⟨r, hpr, hrq⟩ := hpq
  apply (hpr.unmoved h).trans
  refine Unmoved.trans ?_ (hrq.unmoved h)
  cases hnew : p.newLevel e h policy with
  | none => exact .refl h r
  | some l =>
    obtain rfl := hlevel l hnew
    have hhas := hasLevel_of_newLevel hnew
    have hpos := level_nonneg hlisted
    rw [listed_eq (hpr.identity h).symm] at hlisted
    rw [← (hpr.unmoved h).hasLevel] at hhas
    rw [← (hpr.unmoved h).level] at hhas hpos ⊢
    constructor
    · intro g
      rw [recordAnew, relevel_self, addZoneFileRecord_info, removeZoneFileRecord_info]
    · exact filter_listOf_relevel hlisted hpos
    · exact length_lists_relevel hhas
    · rw [recordAnew, relevel, addZoneFileRecord]
      split <;> rfl

theorem recordedOnce (hlisted : (p.info h).listed = true)
    (hp : p.newLevel e h policy = none → p.RecordedOnce h) : q.RecordedOnce h := by
  obtain ⟨r, hpr, hrq⟩ := hpq
  intro level
  rw [(hrq.unmoved h).level, listOf, hrq.lists, ← listOf]
  cases hnew : p.newLevel e h policy with
  | none =>
    rw [recordAnew, (hpr.unmoved h).level, listOf, hpr.lists]
    exact hp hnew level
  | some l =>
    have hpos : 0 ≤ l := (level_nonneg hlisted).trans (level_le_newLevel hnew)
    rw [listed_eq (hpr.identity h).symm] at hlisted
    exact recordedOnce_relevel hlisted hpos level

end

end Ran

/-- The file cannot sink: there is no level below its own, or a file of the next level
overlaps it. -/
def Rests (e : Setup) (p : Placement) (h : Handle) : Prop :=
  (p.info h).level < p.maxLevel → p.getOverlapFileCount e h ((p.info h).level + 1) ≠ 0

theorem level_lt_sunkLevel_iff : (p.info h).level < p.sunkLevel e h ↔ ¬ p.Rests e h := by
  rw [sunkLevel, Rests, Classical.not_imp, not_not]
  cases hn : ((p.maxLevel : ℤ) - (p.info h).level).toNat with
  | zero =>
    rw [trivialMoves]
    omega
  | succ n =>
    have hbelow : (p.info h).level < p.maxLevel := by omega
    have hle := level_le_trivialMoves (e := e) (h := h) (p := p) n ((p.info h).level + 1)
    rw [trivialMoves]
    split
    · next hoverlap => simp [hoverlap]
    · next hoverlap =>
      rw [not_not] at hoverlap
      exact ⟨fun _ => ⟨hbelow, hoverlap⟩, fun _ => by omega⟩

end Placement

open Placement

variable {e : Setup} {a : Holder} {h : Handle} {p : Placement} {policy : Policy}

/-- The policy would put the file where it is. -/
def Policy.Stays (e : Setup) (p : Placement) (h : Handle) : Policy → Prop
  | .sameLevelNearbyKeysSimple => p.hasLevel (p.info h).level → p.RecordedOnce h
  | .overlapChildren => p.Rests e h
  | .oaza => p.hasLevel (p.info h).level → p.Rests e h
  | _ => True

theorem Policy.stays_iff : policy.Stays e p h ↔
    ∀ l, p.newLevel e h policy = some l → l = (p.info h).level ∧ p.RecordedOnce h := by
  cases policy with
  | overlapChildren =>
    simp only [newLevel, ite_none_right_eq_some,
      level_lt_sunkLevel_iff]
    constructor
    · intro hs l hl
      exact absurd hs hl.1
    · intro hs
      by_contra hsinks
      have hlt := level_lt_sunkLevel_iff.mpr hsinks
      exact hlt.ne (hs _ ⟨hsinks, rfl⟩).1.symm
  | oaza =>
    simp only [newLevel, ite_none_right_eq_some]
    constructor
    · intro hs l hl
      exact absurd hl.1.2.2 (hs hl.1.1 hl.1.2.1)
    · intro hs hhas hbelow hoverlap
      have hsame := (hs _ ⟨⟨hhas, hbelow, hoverlap⟩, rfl⟩).1
      omega
  | _ => simp [Stays, newLevel]

/-- A file of the lists stays where it is under both policies of its level. -/
def Stays (e : Setup) (p : Placement) (h : Handle) : Prop :=
  (p.info h).listed → (e.getPolicy (p.info h).level).Stays e p h ∧
    (e.getSecondaryPolicy (p.info h).level).Stays e p h

/-- The file is recorded as often as before, too. -/
structure Kept (h : Handle) (p q : Placement) : Prop extends Unmoved h p q where
  count : ∀ level, (q.listOf level).count h = (p.listOf level).count h

theorem Kept.samePlaces (hpq : Kept h p q) : SamePlaces p q where
  level g := congrArg Identity.level (hpq.identity g)
  smallest g := congrArg Identity.smallest (hpq.identity g)
  largest g := congrArg Identity.largest (hpq.identity g)
  hasKeys g := congrArg Identity.hasKeys (hpq.identity g)
  lifetime g := congrArg Identity.lifetime (hpq.identity g)
  lists level := perm_of_filter_ne (hpq.others level) (hpq.count level)

theorem Kept.ran (hpq : Kept h p q) (hs : policy.Stays e p h)
    (hlisted : (q.info h).listed = true) (hqr : Ran e h policy q r) : Kept h p r := by
  rw [Policy.stays_iff, ← hpq.newLevel] at hs
  have hunmoved : Unmoved h q r := by
    apply hqr.unmoved hlisted
    intro l hl
    rw [(hs l hl).1, hpq.level]
  refine ⟨hpq.trans hunmoved, fun level => ?_⟩
  cases hnew : q.newLevel e h policy with
  | none =>
    obtain ⟨t, hqt, htr⟩ := hqr
    rw [hnew, recordAnew] at htr
    rw [listOf, htr.lists, hqt.lists, ← listOf, hpq.count]
  | some l =>
    have honce : r.RecordedOnce h := hqr.recordedOnce hlisted (by simp [hnew])
    rw [honce level, (hs l hnew).2 level, hunmoved.level, hpq.level]

theorem Kept.raiseMaxLevel (hpq : Kept h p q) :
    Kept h p (q.raiseMaxLevel (p.info h).level) := by
  rw [Placement.raiseMaxLevel]
  split
  · next hraise =>
    have hdepth := hpq.depth
    refine ⟨⟨hpq.identity, hpq.others, hpq.length, ?_⟩, hpq.count⟩
    dsimp only
    omega
  · exact hpq

/-- Where the policies leave the file in its place, so does the search for a target. -/
theorem takeMigrateZone_kept (hs : Stays e p h) (lifetime : Lifetime) (minCapacity : ℕ) :
    (placed e (Kept h p)).Admits (takeMigrateZone e a h lifetime minCapacity) := by
  apply takeMigrateZone_admits_of handles_placed
  · intro best n
    apply getBestOpenZoneMatch_admits_of handles_placed.toRanks
    apply placed_look.mono
    intro d hd hlisted policy hpolicy f hf
    apply placed_place
    intro t ht
    have hlisted' : (p.info h).listed = true := by
      rw [← listed_eq (hd.identity h)]
      exact hlisted
    have hstays : policy.Stays e p h := by
      rw [hd.level] at hpolicy
      obtain rfl | rfl := hpolicy
      · exact (hs hlisted').1
      · exact (hs hlisted').2
    rw [← listed_eq (ht.identity h)] at hlisted'
    exact ht.ran hstays hlisted' (policyChange_records hf t)
  · apply placed_look.mono
    intro d hd
    apply placed_place
    intro t ht
    rw [raiseForEmptyZone, hd.level]
    split
    · exact ht.raiseMaxLevel
    · exact ht

/-- From no state with placement data `p` does a migration of the file change places. -/
def Frames (e : Setup) (a : Holder) (h : Handle) (p : Placement) : Prop :=
  ∀ d : Zbd, d.place = p → ∀ selected,
    (migrateFileExtents e a h selected).Ends (exec e) d fun _ t => SamePlaces p t.place

theorem frames_of_stays (hs : Stays e p h) : Frames e a h p := by
  rintro d rfl selected
  have hkept := migrateFileExtents_admits (a := a)
    (indifferent_placed.migrates (takeMigrateZone_kept hs)) selected
  exact (Keeps.ends hkept ⟨.refl h d.place, fun _ => rfl⟩).mono fun _ _ ht => ht.1.samePlaces

variable {d : Zbd}

theorem newLevel_of_policyChange (hnone : policyChange e h policy = none) :
    p.newLevel e h policy = none := by
  cases policy <;> cases hnone <;> rfl

theorem matchBy_ran (lifetime : Lifetime) (best : ℕ) (zone : Option ℕ) (n : ℕ) :
    (matchBy e a h policy lifetime best zone n).Ends (exec e) d
      fun _ t => Ran e h policy d.place t.place := by
  cases hchange : policyChange e h policy with
  | none =>
    have hadmits : (placed e (· = d.place)).Admits (matchBy e a h policy lifetime best zone n) :=
      matchBy_admits handles_placed.toRanks (by simp [hchange]) lifetime best zone n
    refine (Keeps.ends hadmits rfl).mono fun _ t ht => ⟨d.place, .refl _, ?_⟩
    rw [newLevel_of_policyChange hchange, ht.1, recordAnew]
  | some f =>
    obtain ⟨g, hm, hg⟩ := matchBy_ranksFirst hchange lifetime best zone n
    rw [hm]
    refine .bind (.op fun _ t ht => ?_)
    have hlock := exec_place (o := .lock .levelwiseFiles) nofun nofun ht
    refine .bind (.bind (.op ?_))
    rintro _ _ ⟨⟩
    have hadmits := hg (placed e (· = (f t).1)) handles_placed.toSearches
      (t.setPlace (f t).1, (f t).2)
    refine (Keeps.ends hadmits rfl).mono fun _ u hu => ?_
    refine Ends.bind (Ends.op fun _ v hv => Ends.ret ?_)
    rw [exec_place (o := .unlock .levelwiseFiles) nofun nofun hv, hu.1, ← hlock]
    exact policyChange_records hchange t

structure Stuck (e : Setup) (d : Zbd) : Prop where
  busy : ∀ z, (d.zones z).busy = true
  full : ∀ z, (d.zones z).capacity = 0
  used : d.getEmptyZoneCount e = 0
  onIoZones : OnIoZones e d

theorem Stuck.not_offers (hd : Stuck e d) (n z : ℕ) : ¬ d.Offers e n z := by
  rintro ⟨-, hfree, -⟩
  rw [hd.busy] at hfree
  cases hfree

theorem matchBy_stuck (hd : Stuck e d) (hpolicy : policy.implemented = true) (lifetime : Lifetime)
    (best n : ℕ) (hfree : d.locked .levelwiseFiles = false) :
    (matchBy e a h policy lifetime best none n).Returns (exec e) d fun r t =>
      r.1 = .OK ∧ r.2.2 = none ∧ ∃ q, t = d.setPlace q ∧ Ran e h policy d.place q := by
  obtain ⟨⟨s, best', zone⟩, t, hrun, rfl, hfound⟩ :=
    matchBy_finding (a := a) hpolicy lifetime best hfree hd.onIoZones
  have hran := matchBy_ran lifetime best none n _ t hrun
  cases zone with
  | some z => exact absurd (hfound.offers z rfl) (hd.not_offers n z)
  | none =>
    obtain ⟨q, rfl⟩ := hfound.device
    exact ⟨_, _, hrun, rfl, rfl, q, rfl, hran⟩

def BothRan (e : Setup) (h : Handle) (p r : Placement) : Prop :=
  ∃ q, Ran e h (e.getPolicy (p.info h).level) p q ∧
    Ran e h (e.getSecondaryPolicy (p.info h).level) q r

theorem getBestOpenZoneMatch_stuck (hd : Stuck e d) (hlisted : (d.place.info h).listed = true)
    (hprimary : (e.getPolicy (d.place.info h).level).implemented = true)
    (hfallback : (e.getSecondaryPolicy (d.place.info h).level).implemented = true)
    (lifetime : Lifetime) (hfree : d.locked .levelwiseFiles = false) :
    (getBestOpenZoneMatch e a h lifetime best n).Returns (exec e) d fun r t =>
      r.1 = .OK ∧ r.2.2 = none ∧ ∃ q, t = d.setPlace q ∧ BothRan e h d.place q := by
  apply returns_look
  dsimp only
  rw [hlisted]
  apply (matchBy_stuck hd hprimary lifetime best n hfree).seq
  rintro ⟨_, best, _⟩ _ ⟨rfl, rfl, q, rfl, hq⟩
  have hdq : Stuck e (d.setPlace q) := ⟨hd.busy, hd.full, hd.used, hd.onIoZones⟩
  apply (matchBy_stuck hdq hfallback lifetime best n hfree).seq
  rintro ⟨_, best, _⟩ _ ⟨rfl, rfl, r, rfl, hr⟩
  have hdr : Stuck e (d.setPlace r) := ⟨hd.busy, hd.full, hd.used, hd.onIoZones⟩
  -- the last resort is a policy too, one that only searches
  have hlast (best : ℕ) : (matchBy e a h .lifetimeBased lifetime best none n).Returns (exec e)
      (d.setPlace r) _ := matchBy_stuck hdr rfl lifetime best n hfree
  apply (hlast _).seq
  rintro ⟨_, best, _⟩ _ ⟨rfl, rfl, r', rfl, hr'⟩
  exact .ret ⟨rfl, rfl, r', rfl, q, hq, hr.reranked hr'⟩

theorem Stuck.setLocked (hd : Stuck e d) (m : Mutex) (b : Bool) : Stuck e (d.setLocked m b) :=
  ⟨hd.busy, hd.full, hd.used, hd.onIoZones⟩

def Zbd.Idle (d : Zbd) : Prop := (∀ m, d.locked m = false) ∧ d.migrating = false

theorem idle_restored (hidle : d.Idle) (m : Mutex) (q : Placement) (b : Bool) :
    { ({ d.setLocked m true with migrating := b }).setPlace q with
      migrating := false }.setLocked m false = d.setPlace q := by
  have hlocked : Function.update (Function.update d.locked m true) m false = d.locked := by
    rw [Function.update_idem, ← hidle.1 m, Function.update_eq_self]
  simp only [Zbd.setLocked, Zbd.setPlace, hlocked, hidle.2]

theorem takeMigrateZone_stuck (hd : Stuck e d) (hidle : d.Idle)
    (hlisted : (d.place.info h).listed = true)
    (hprimary : (e.getPolicy (d.place.info h).level).implemented = true)
    (hfallback : (e.getSecondaryPolicy (d.place.info h).level).implemented = true)
    {lifetime : Lifetime} (n : ℕ) :
    (takeMigrateZone e a h lifetime n).Returns (exec e) d fun r t =>
      r = (.OK, none, false) ∧ ∃ q, t = d.setPlace q ∧ BothRan e h d.place q := by
  have hstart : exec e .startMigrating d =
      some ((), { d.setLocked .migrateZone true with migrating := true }) :=
    if_neg (by simp [hidle.1, hidle.2])
  have hbusy : Stuck e { d.setLocked .migrateZone true with migrating := true } :=
    ⟨hd.busy, hd.full, hd.used, hd.onIoZones⟩
  apply returns_call hstart
  apply (getBestOpenZoneMatch_stuck hbusy hlisted hprimary hfallback lifetime
    (hidle.1 .levelwiseFiles)).seq
  rintro ⟨_, best, _⟩ _ ⟨rfl, rfl, q, rfl, hq⟩
  apply returns_look
  have hcount : ({ d.setLocked .migrateZone true with migrating := true }.setPlace
      q).getEmptyZoneCount e = 0 := hd.used
  simp only [hcount]
  apply Returns.seq (Returns.ret (Q := fun b t => b = false ∧ t = _) ⟨rfl, rfl⟩)
  rintro _ _ ⟨rfl, rfl⟩
  apply returns_call rfl
  apply returns_call rfl
  refine .ret ⟨rfl, q, ?_, hq⟩
  exact idle_restored hidle .migrateZone q true

theorem releaseMigrateZone_idle (hidle : d.Idle) :
    (releaseMigrateZone e a none).Returns (exec e) d fun _ t => t = d := by
  have hlock : exec e (.lock .migrateZone) d = some ((), d.setLocked .migrateZone true) :=
    if_neg (by simp [hidle.1])
  apply returns_call hlock
  apply returns_call rfl
  apply Task.Returns.bind
  apply Returns.ret
  apply returns_call rfl
  exact .ret (idle_restored hidle .migrateZone d.place d.migrating)

section

variable (hd : Stuck e d)
include hd

theorem allocateMeta_stuck {l : List ℕ} :
    (allocateMeta e a l).Returns (exec e) d fun r t => r.1.ok = false ∧ t = d := by
  induction l with
  | nil => exact .ret ⟨rfl, rfl⟩
  | cons z rest ih =>
    have hbusy : exec e (.acquire a z) d = some (false, d) :=
      congrArg some (Zbd.acquire_of_busy (hd.busy z))
    exact returns_call hbusy ih

theorem append_stuck (z : ℕ) (data : List UInt8) : ∃ s, d.append e z data = (s, d) := by
  simp only [Zbd.append, hd.full]
  cases data with
  | nil => exact ⟨.OK, rfl⟩
  | cons x rest => exact ⟨_, rfl⟩

theorem persistRecord_stuck (hfree : d.locked .metadataSync = false) :
    (persistRecord e a).Returns (exec e) d fun _ t => t = d := by
  have hlock : exec e (.lock .metadataSync) d = some ((), d.setLocked .metadataSync true) :=
    if_neg (by simp [hfree])
  have hd' := hd.setLocked .metadataSync true
  apply returns_call hlock
  obtain ⟨s, hs⟩ := append_stuck hd' d.metaLog.zone (e.record d.backendCalls)
  have happend : exec e (.append (.log d.metaLog.serial) d.metaLog.zone (e.record d.backendCalls))
      (d.setLocked .metadataSync true) = some (s, d.setLocked .metadataSync true) :=
    congrArg some hs
  apply returns_call happend
  apply Returns.seq (Q := fun _ t => t = d.setLocked .metadataSync true)
  · split
    · apply (allocateMeta_stuck hd').seq
      rintro ⟨s, zone⟩ _ ⟨hs, rfl⟩
      dsimp only at hs ⊢
      rw [hs]
      exact .ret rfl
    · exact .ret rfl
  · rintro s _ rfl
    apply returns_call rfl
    exact .ret (setLocked_setLocked hfree)

theorem syncFileMetadata_stuck (hidle : d.Idle) :
    (syncFileMetadata e a h).Returns (exec e) d fun _ t => t = d := by
  have hlock : exec e (.lock .files) d = some ((), d.setLocked .files true) :=
    if_neg (by simp [hidle.1])
  apply returns_call hlock
  apply returns_look
  apply Returns.seq (Q := fun _ t => t = d.setLocked .files true)
  · split
    · exact .ret rfl
    · exact persistRecord_stuck (hd.setLocked .files true) (hidle.1 .metadataSync)
  · rintro s _ rfl
    apply returns_call rfl
    exact .ret (setLocked_setLocked (hidle.1 .files))

theorem syncFileExtents_stuck (hidle : d.Idle) (hx : (d.bodies h).extents = [x]) :
    (syncFileExtents e a h [x] [x]).Returns (exec e) d fun _ t => t.place = d.place := by
  have hd' : Stuck e (d.onBody h fun b => { b with extents := [x] }) := by
    refine ⟨hd.busy, hd.full, hd.used, fun g y hy => hd.onIoZones g y ?_⟩
    by_cases hg : g = h
    · subst hg
      rw [hx]
      simpa [Zbd.onBody, Zbd.setBody] using hy
    · simpa [Zbd.onBody, Zbd.setBody, hg] using hy
  apply (syncFileMetadata_stuck hd' hidle).seq
  rintro s _ rfl
  split
  · exact .ret rfl
  · rw [dropMoved, if_neg (by simp)]
    exact .ret rfl

/-- A migration of a file with one extent that finds no target: all that is left of it is what
the policies did. -/
theorem migrateFileExtents_stuck (hidle : d.Idle) (hwr : d.wrLocked h = false)
    (hx : (d.bodies h).extents = [x]) (hlisted : (d.place.info h).listed = true)
    (hprimary : (e.getPolicy (d.place.info h).level).implemented = true)
    (hfallback : (e.getSecondaryPolicy (d.place.info h).level).implemented = true) :
    (migrateFileExtents e a h [(x.start, x.length)]).Returns (exec e) d
      fun _ t => BothRan e h d.place t.place := by
  have hlock : exec e (.tryAcquireWRLock h) d = some (true, d.setWrLocked h true) :=
    if_neg (by simp [hwr])
  have hd' : Stuck e (d.setWrLocked h true) := ⟨hd.busy, hd.full, hd.used, hd.onIoZones⟩
  have hidle' : (d.setWrLocked h true).Idle := hidle
  apply returns_call hlock
  apply Returns.seq (Q := fun new t => new = [x] ∧
    ∃ q, t = (d.setWrLocked h true).setPlace q ∧ BothRan e h d.place q)
  · change (migrateExtents e a h [(x.start, x.length)] (d.bodies h).extents).Returns _ _ _
    rw [hx, migrateExtents, if_neg (by simp)]
    apply (takeMigrateZone_stuck hd' hidle' hlisted hprimary hfallback x.length).seq
    rintro _ _ ⟨rfl, q, rfl, hq⟩
    apply (releaseMigrateZone_idle (d := (d.setWrLocked h true).setPlace q) hidle').seq
    rintro _ _ rfl
    exact .ret ⟨rfl, q, rfl, hq⟩
  · rintro _ _ ⟨rfl, q, rfl, hq⟩
    have hdq : Stuck e ((d.setWrLocked h true).setPlace q) :=
      ⟨hd.busy, hd.full, hd.used, hd.onIoZones⟩
    change ((syncFileExtents e a h (d.bodies h).extents [x]) >>= _).Returns _ _ _
    rw [hx]
    apply (syncFileExtents_stuck hdq hidle' hx).seq
    rintro s t ht
    apply returns_call rfl
    apply Returns.ret
    change BothRan e h d.place t.place
    rw [ht]
    exact hq

end

/-- A device with placement data `p` where all zones are busy and full, and the file has one
extent. -/
def stuckDevice (e : Setup) (h : Handle) (p : Placement) : Zbd :=
  { smallDevice with
    zones := fun z =>
      { smallDevice.zones z with capacity := 0, wp := e.start z + 1, busy := true }
    bodies := fun g => if g = h then { FileBody.new with extents := [⟨0, 1, 0⟩] } else .new
    place := p }

theorem stuck_stuckDevice (hzones : 0 < e.nrZones) : Stuck e (stuckDevice e h p) where
  busy _ := rfl
  full _ := rfl
  used := by simp [Zbd.getEmptyZoneCount, stuckDevice, Zone.isEmpty]
  onIoZones g x hx := by
    simp only [stuckDevice] at hx
    split at hx
    · obtain rfl := mem_singleton.mp hx
      simpa [Setup.ioZones] using hzones
    · cases hx

/-- Where two policies one after the other left all places as they were, the file stays under
both. -/
theorem stays_of_bothRan (hlisted : (p.info h).listed = true)
    (hran : BothRan e h p r) (hsame : SamePlaces p r) : Stays e p h := by
  obtain ⟨q, hpq, hqr⟩ := hran
  have hlevel := hsame.level h
  have hpq_le := hpq.level_le
  have hqr_le := hqr.level_le
  have hunmoved : Unmoved h p q :=
    hpq.unmoved hlisted fun l hl => hpq.newLevel_eq (by omega) hl
  have hlistedq : (q.info h).listed = true := by rw [listed_eq (hunmoved.identity h), hlisted]
  have honce (hr : r.RecordedOnce h) : p.RecordedOnce h := by
    intro level
    rw [← (hsame.lists level).count_eq, hr level, hlevel]
  intro _
  rw [Policy.stays_iff, Policy.stays_iff]
  constructor
  · intro l hl
    have hq : q.RecordedOnce h := hpq.recordedOnce hlisted (by simp [hl])
    exact ⟨hpq.newLevel_eq (by omega) hl, honce (hqr.recordedOnce hlistedq fun _ => hq)⟩
  · intro l hl
    rw [← hunmoved.newLevel] at hl
    have hr : r.RecordedOnce h := hqr.recordedOnce hlistedq (by simp [hl])
    refine ⟨?_, honce hr⟩
    rw [hqr.newLevel_eq (by omega) hl, hunmoved.level]

theorem stays_of_frames (hzones : 0 < e.nrZones)
    (hprimary : (e.getPolicy (p.info h).level).implemented = true)
    (hfallback : (e.getSecondaryPolicy (p.info h).level).implemented = true)
    (hframes : Frames e a h p) : Stays e p h := by
  intro hlisted
  obtain ⟨_, t, hrun, hran⟩ := migrateFileExtents_stuck
    (d := stuckDevice e h p) (x := ⟨0, 1, 0⟩) (stuck_stuckDevice hzones) ⟨fun _ => rfl, rfl⟩ rfl
    (by simp [stuckDevice]) hlisted hprimary hfallback
  exact stays_of_bothRan hlisted hran (hframes _ rfl _ _ t hrun) hlisted

/-- A migration leaves all places as they are if the file stays where it is under the policies
of its level, and where these are implemented only then. -/
theorem frames_iff_stays (e : Setup) (a : Holder) (h : Handle) (p : Placement) :
    (Stays e p h → Frames e a h p) ∧
      (0 < e.nrZones → (e.getPolicy (p.info h).level).implemented = true →
        (e.getSecondaryPolicy (p.info h).level).implemented = true →
        (Frames e a h p ↔ Stays e p h)) := by
  refine ⟨frames_of_stays, fun hzones hprimary hfallback => ⟨?_, frames_of_stays⟩⟩
  exact stays_of_frames hzones hprimary hfallback

/-- Write an SST file of level 0 under `MatchOAZA`, the only file there is, and close it. -/
def oneSst : List (Operation × ℕ) :=
  openSst 1 [1] ++ [(.bufferedAppend 1 (List.replicate 16 7), 9), (.closeWR 1, 9)]

def restingSst : List (Operation × ℕ) :=
  [(.create 2 .data false, 9), (.openForWrite 2, 9), (.setLevel 2 1, 9),
    (.updateInternalKeys 2 [1], 9), (.closeWR 2, 9)] ++ oneSst

/-- There is a level below the file, but a file of it overlaps, so its data move and it stays. -/
theorem frames_iff_stays_restingSst : ∃ d t,
    Reaches (step (smallSetup .oaza)) anyStep smallDevice d ∧
    step (smallSetup .oaza) d (.migrateFileExtents 1 [(0, 16)], 9) = some t ∧
    (d.place.info 1).level < d.place.maxLevel ∧ Stays (smallSetup .oaza) d.place 1 ∧
    (t.bodies 1).extents ≠ (d.bodies 1).extents ∧ SamePlaces d.place t.place := by
  let e := smallSetup .oaza
  obtain ⟨d, hd, ⟨hlevel, hmax, hoverlap⟩, t, ht, hmoved⟩ : ∃ d, Reaches (step e) anyStep
      smallDevice d ∧ ((d.place.info 1).level = 0 ∧ d.place.maxLevel = 1 ∧
        d.place.getOverlapFileCount e 1 1 ≠ 0) ∧
      ∃ t ∈ step e d (.migrateFileExtents 1 [(0, 16)], 9),
        (t.bodies 1).extents ≠ (d.bodies 1).extents :=
    Reaches.of_any restingSst (by decide +kernel)
  have hstays : Stays e d.place 1 := by
    intro _
    rw [hlevel]
    refine ⟨fun _ _ => ?_, trivial⟩
    rw [hlevel]
    exact hoverlap
  refine ⟨d, t, hd, ht, by omega, hstays, hmoved, ?_⟩
  have hframes := (frames_iff_stays e me 1 d.place).1 hstays d rfl [(0, 16)]
  exact step_ends ht (ends_ignore hframes)
def Zbd.placeOf (d : Zbd) (h : Handle) : ℤ × List (List Handle) :=
  ((d.place.info h).level, d.place.lists)

/-- Migrating its extent moves the file to level 1. -/
theorem migration_moves_file : (smallSetup .oaza).Accepted ∧
    ∃ d t, Reaches (step (smallSetup .oaza)) anyStep smallDevice d ∧
      step (smallSetup .oaza) d (.migrateFileExtents 1 [(0, 16)], 9) = some t ∧
      d.placeOf 1 = (0, [[1]]) ∧ t.placeOf 1 = (1, [[], [1]]) := by
  refine ⟨smallSetup_accepted .oaza, ?_⟩
  obtain ⟨d, hd, hbefore, t, ht, hplace⟩ : ∃ d, Reaches (step (smallSetup .oaza)) anyStep
      smallDevice d ∧ d.placeOf 1 = (0, [[1]]) ∧
      ∃ t ∈ step (smallSetup .oaza) d (.migrateFileExtents 1 [(0, 16)], 9),
        t.placeOf 1 = (1, [[], [1]]) := Reaches.of_any oneSst (by decide +kernel)
  exact ⟨d, t, hd, ht, hbefore, hplace⟩

end ZenFs.Device
