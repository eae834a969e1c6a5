import ZenFs.Device.Allocations

/-!
The zones that are kept back for the garbage collection.

`AllocateIOZone` compares the number of empty zones with `reserve_zone_count` only when it has
matched an open zone, and it counts the empty zones that other writers hold. A zone is opened for a
file that matches none however few are left.
-/

namespace ZenFs.Device

open Library Task Judgement List Function Option Finset Zbd

variable {n spins z : ℕ} {v : Zbd}
variable {e : Setup} {a : Holder} {h : Handle} {d t : Zbd}

def Zbd.spare (d : Zbd) (e : Setup) : Finset ℕ :=
  {z ∈ Finset.range e.nrZones | (d.zones z).busy = false ∧ (d.zones z).isEmpty (e.start z) = true}

theorem Zbd.mem_spare : z ∈ d.spare e ↔ d.Opens e z := by
  simp [Zbd.spare, Zbd.Opens, Setup.ioZones]

theorem Zbd.card_spare_le (d : Zbd) (e : Setup) : (d.spare e).card ≤ d.getEmptyZoneCount e := by
  let empties := e.ioZones.filter fun z => (d.zones z).isEmpty (e.start z)
  have hsub : d.spare e ⊆ empties.toFinset := by
    intro z hz
    obtain ⟨hmem, -, hempty⟩ := mem_spare.mp hz
    exact mem_toFinset.mpr (mem_filter.mpr ⟨hmem, hempty⟩)
  have hnodup : empties.Nodup := nodup_range.filter _
  rw [getEmptyZoneCount, countP_eq_length_filter]
  exact (card_le_card hsub).trans (toFinset_card_of_nodup hnodup).le

/-- Between the calls of writers: the write pointers lie in their zones, and the counter of an
empty zone is zero. -/
structure Zbd.Ready (e : Setup) (d : Zbd) : Prop extends d.AtRest e where
  wp : ∀ z, e.start z ≤ (d.zones z).wp
  blank : ∀ z < e.nrZones, (d.zones z).isEmpty (e.start z) = true → (d.zones z).usedCapacity = 0

/-- An open zone can be matched for the file: it is free, has data and room for the file, and
`ApplyFinishThreshold` does not finish it. -/
def Zbd.Matchable (e : Setup) (h : Handle) (ioType : IOType) (d : Zbd) : Prop :=
  ∃ z, d.Offers e (e.minCapacity (d.place.info h)) z ∧ (ioType = .wal ∨ ¬ d.Finishes e z)

theorem Zbd.Ready.not_opens (hd : d.Ready e) (hbooks : SameBooks d t)
    (hz : t.Offers e n z) : ¬ d.Opens e z := by
  intro hopens
  have hlt : z < e.nrZones := List.mem_range.mp hopens.1
  have hzero := hd.blank z hlt hopens.2.2
  have hused := hz.2.2
  rw [Zone.eligible, hbooks.used, hzero] at hused
  cases hused

variable (lifetime : Lifetime) (ioType : IOType)

theorem ComesToMatch.matchable_iff (hcome : ComesToMatch e a h ioType d t) :
    d.Matchable e h ioType ↔ ∃ z, t.Offers e (e.minCapacity (t.place.info h)) z := by
  rw [hcome.info]
  exact exists_congr fun z => hcome.offers_iff.symm

theorem ComesToMatch.getEmptyZoneCount_eq (hcome : ComesToMatch e a h ioType d t) :
    t.getEmptyZoneCount e = d.getEmptyZoneCount e := by
  simp only [getEmptyZoneCount, hcome.settled.isEmpty]

/-- When at most the reserve is empty, an allocation opens an empty zone exactly if no open zone can
be matched. -/
theorem Zbd.Ready.opens_iff (hd : d.Ready e) (hfew : d.getEmptyZoneCount e ≤ e.reserveZoneCount)
    (hrun : (allocateIOZone e a h spins lifetime ioType).run (exec e) d = some ((.OK, some z), v)) :
    d.Opens e z ↔ ¬ d.Matchable e h ioType := by
  obtain ⟨t, hcome, ⟨s, best, zone⟩, u, hr, w, hw, -⟩ :=
    (allocateIOZone_run_iff spins lifetime ioType).mp hrun
  obtain ⟨rfl, hfound, hnone⟩ := hd.match_ends lifetime ioType hcome _ u hr
  cases zone with
  | none =>
    obtain ⟨p, rfl⟩ := hfound.device
    obtain ⟨hbad, hnot⟩ := hnone rfl
    have hpos : 0 < e.nrZones → (t.setPlace p).zonePos < e.nrZones := by
      show 0 < e.nrZones → t.zonePos < e.nrZones
      rw [hcome.settled.zonePos]
      exact hd.zonePos
    rw [afterMatch_of_bad lifetime hbad] at hw
    have hopens := (reconsider_none_ends spins lifetime best hpos _ w hw).found z rfl
    refine iff_of_true ((hcome.settled.opens_iff z).mp hopens) ?_
    rw [hcome.matchable_iff]
    exact not_exists.mpr hnot
  | some y =>
    have hoffers := hfound.offers y rfl
    refine iff_of_false (fun hz => ?_) (not_not.mpr (hcome.matchable_iff.mpr ⟨y, hoffers⟩))
    -- The matched zone is kept, since the reserve would be used up.
    have hnot : ¬ ∃ x, some y = some x ∧ d.Opens e x := by
      rintro ⟨_, ⟨⟩, hy⟩
      exact hd.not_opens (hcome.sameBooks hd.wp) hoffers hy
    have hgives : GivesWith e u (afterMatch e a h · lifetime (.OK, best, some y)) fun zone =>
        ∃ x, zone = some x ∧ d.Opens e x := ⟨spins, some z, w, hw, z, rfl, hz⟩
    obtain ⟨-, hkeeps, -⟩ := (afterMatch_gives_iff lifetime hfound hnot).mp hgives
    exact hkeeps (.inr (hcome.getEmptyZoneCount_eq.trans_le hfew))

theorem Zbd.Ready.allocate {r : Status × Option ℕ} (hd : d.Ready e)
    (hrun : (allocateIOZone e a h spins lifetime ioType).run (exec e) d = some (r, t)) :
    t.Ready e := by
  have hleaves := (allocateIOZone_allocated lifetime ioType hd.toAtRest spins r t hrun).leaves
  obtain ⟨hbooks, hwp, -, -⟩ := allocateIOZone_balanced hd.wp spins lifetime ioType r t hrun
  refine ⟨hd.toAtRest.allocate lifetime ioType hd.wp hrun, hwp, fun z hz hempty => ?_⟩
  rw [hleaves.isEmpty] at hempty
  rw [hbooks.used]
  exact hd.blank z hz hempty

/-- What writers do outside of `AllocateIOZone`. They write to zones they hold, count the data
after it is written, and leave the IO zones of others alone; what they do under
`levelwise_files_mtx_` is one step. -/
def Call.OfWriter (e : Setup) (d : Zbd) : Call → Prop
  | .acquire _ z => e.nrZones ≤ z
  | .reset _ z => e.nrZones ≤ z
  | .finish _ z => e.nrZones ≤ z
  | .append _ z _ => e.nrZones ≤ z ∨ (d.zones z).busy = true
  | .use z _ => (d.zones z).isEmpty (e.start z) = false
  | .body h f => ∀ x ∈ (f (d.bodies h)).extents, x.zone ∈ e.ioZones
  | .lock m => m ≠ .levelwiseFiles
  | .setZonePos _ => False
  | _ => True

/-- A step of a run: an allocation for a file that is being written, or another call. -/
inductive WriterAction
  | allocate (a : Holder) (h : Handle) (spins : ℕ) (lifetime : Lifetime) (ioType : IOType)
  | call (o : Call)

variable {x : WriterAction}

def writerStep (e : Setup) (d : Zbd) : WriterAction → Option Zbd
  | .allocate a h spins lifetime ioType =>
    ((allocateIOZone e a h spins lifetime ioType).run (exec e) d).map (·.2)
  | .call o => (exec e o d).map (·.2)

def WriterAction.Valid (e : Setup) (d : Zbd) : WriterAction → Prop
  | .allocate _ _ _ _ _ => True
  | .call o => o.OfWriter e d

/-- More zones than the reserve are empty and free, or at most the reserve is empty and an open zone
can be matched. -/
def Zbd.Provides (e : Setup) (h : Handle) (ioType : IOType) (d : Zbd) : Prop :=
  e.reserveZoneCount < (d.spare e).card ∨
    d.getEmptyZoneCount e ≤ e.reserveZoneCount ∧ d.Matchable e h ioType

def WriterAction.Provided (e : Setup) (d : Zbd) : WriterAction → Prop
  | .allocate _ h _ _ ioType => d.Provides e h ioType
  | .call _ => True

theorem Zbd.Provides.lt_of_opens (hprovides : d.Provides e h ioType) (hd : d.Ready e)
    (hrun : (allocateIOZone e a h spins lifetime ioType).run (exec e) d = some ((.OK, some z), t))
    (hz : d.Opens e z) : e.reserveZoneCount < (d.spare e).card := by
  rcases hprovides with hmore | ⟨hfew, hmatch⟩
  · exact hmore
  · exact absurd hmatch ((hd.opens_iff lifetime ioType hfew hrun).mp hz)

theorem Zbd.Provides.spare {r : Status × Option ℕ} (hprovides : d.Provides e h ioType)
    (hd : d.Ready e)
    (hrun : (allocateIOZone e a h spins lifetime ioType).run (exec e) d = some (r, t)) :
    min e.reserveZoneCount (d.spare e).card ≤ (t.spare e).card := by
  obtain ⟨hok, -, -, hleaves⟩ := allocateIOZone_allocated lifetime ioType hd.toAtRest spins r t hrun
  have hothers {z : ℕ} (hz : d.Opens e z) (hne : r.2 ≠ some z) : t.Opens e z :=
    hleaves.opens hz hne
  by_cases htaken : ∃ z, r.2 = some z ∧ d.Opens e z
  · obtain ⟨z, hz, hopens⟩ := htaken
    have hr : r = (.OK, some z) := Prod.ext (hok (by simp [hz])) hz
    have hmore := hprovides.lt_of_opens lifetime ioType hd (hr ▸ hrun) hopens
    have hsub : (d.spare e).erase z ⊆ t.spare e := by
      intro y hy
      obtain ⟨hne, hmem⟩ := mem_erase.mp hy
      apply mem_spare.mpr
      apply hothers (mem_spare.mp hmem)
      rw [hz]
      exact fun h => hne (some.inj h).symm
    have hcard := card_le_card hsub
    rw [card_erase_of_mem (mem_spare.mpr hopens)] at hcard
    omega
  · have hsub : d.spare e ⊆ t.spare e := by
      intro y hy
      have hopens := mem_spare.mp hy
      exact mem_spare.mpr (hothers hopens fun hr => htaken ⟨y, hr, hopens⟩)
    exact (min_le_right _ _).trans (card_le_card hsub)

section Writers

variable {o : Call} {r : o.Res} (hr : exec e o d = some (r, t)) (ho : o.OfWriter e d)
include hr ho

theorem Call.OfWriter.free (hz : z < e.nrZones) (hfree : (d.zones z).busy = false) :
    (t.zones z).busy = false ∧ (t.zones z).wp = (d.zones z).wp := by
  by_cases hzone : o.zone = some z
  · cases o with
    | acquire | reset | finish =>
      cases hzone
      exact absurd hz (not_lt.mpr ho)
    | release a y =>
      cases hzone
      rw [release_zone (some.inj hr)]
      exact ⟨rfl, rfl⟩
    | append a y data =>
      cases hzone
      rcases ho with hmeta | hbusy
      · exact absurd hz (not_lt.mpr hmeta)
      · rw [hfree] at hbusy
        cases hbusy
    | tag y lifetime policy level =>
      cases hzone
      cases hr
      simpa [Zbd.tag, Zbd.setZone] using hfree
    | use y f =>
      cases hzone
      cases hr
      simpa [Zbd.use, Zbd.setZone] using hfree
    | _ => cases hzone
  · rw [exec_zones_of_ne hr hzone]
    exact ⟨hfree, rfl⟩

theorem Call.OfWriter.blank (hwp : ∀ z, e.start z ≤ (d.zones z).wp) (hz : z < e.nrZones)
    (hblank : (d.zones z).isEmpty (e.start z) = true → (d.zones z).usedCapacity = 0)
    (hempty : (t.zones z).isEmpty (e.start z) = true) : (t.zones z).usedCapacity = 0 := by
  by_cases hzone : o.zone = some z
  · cases o with
    | acquire | reset | finish =>
      cases hzone
      exact absurd hz (not_lt.mpr ho)
    | release a y =>
      cases hzone
      rw [release_zone (some.inj hr)] at hempty ⊢
      exact hblank hempty
    | append a y data =>
      cases hzone
      obtain ⟨n, hn⟩ := append_zone (some.inj hr)
      rw [hn] at hempty ⊢
      have hstart := hwp z
      have hmoved : (d.zones z).wp + n = e.start z := of_decide_eq_true hempty
      have hsame : (d.zones z).wp = e.start z := by omega
      exact hblank (decide_eq_true hsame)
    | tag y lifetime policy level =>
      cases hzone
      cases hr
      simp only [Zbd.tag, Zbd.setZone, update_self] at hempty ⊢
      exact hblank hempty
    | use y f =>
      cases hzone
      cases hr
      simp only [Zbd.use, Zbd.setZone, update_self] at hempty
      have hwritten : (d.zones z).isEmpty (e.start z) = false := ho
      have hblank : (d.zones z).isEmpty (e.start z) = true := hempty
      rw [hblank] at hwritten
      cases hwritten
    | _ => cases hzone
  · rw [exec_zones_of_ne hr hzone] at hempty ⊢
    exact hblank hempty

theorem Call.OfWriter.onIoZones (hd : OnIoZones e d) : OnIoZones e t := by
  have hsame (hbooks : SameBooks d t) : OnIoZones e t := by
    intro g x hx
    have hextents : (t.bodies g).extents = (d.bodies g).extents := congrFun hbooks.extents g
    rw [hextents] at hx
    exact hd g x hx
  cases o with
  | use z f =>
    cases hr
    exact hd
  | body h f =>
    cases hr
    intro g x hx
    by_cases hg : g = h
    · subst hg
      simp only [Zbd.onBody, Zbd.setBody, update_self] at hx
      exact ho x hx
    · simp only [Zbd.onBody, Zbd.setBody, update_of_ne hg] at hx
      exact hd g x hx
  | _ => exact hsame (exec_sparesBooks rfl hr)

theorem Zbd.Ready.call (hd : d.Ready e) : t.Ready e := by
  have hframed := exec_framed hr
  have hpos : t.zonePos = d.zonePos := by
    apply hframed.zonePos
    rintro n rfl
    exact ho
  have hlevelwise : t.locked .levelwiseFiles = false := by
    apply hframed.levelwise _ hd.levelwise
    rintro rfl
    exact ho rfl
  have hrest : t.AtRest e :=
    ⟨by rw [hpos]; exact hd.zonePos, hlevelwise, ho.onIoZones hr hd.onIoZones⟩
  exact ⟨hrest, fun z => exec_start_le_wp hr (hd.wp z),
    fun z hz => ho.blank hr hd.wp hz (hd.blank z hz)⟩

theorem Call.OfWriter.spare : d.spare e ⊆ t.spare e := by
  intro z hz
  obtain ⟨hmem, hfree, hempty⟩ := mem_spare.mp hz
  obtain ⟨hfree', hwp⟩ := ho.free hr (List.mem_range.mp hmem) hfree
  apply mem_spare.mpr
  refine ⟨hmem, hfree', ?_⟩
  rw [Zone.isEmpty, hwp]
  exact hempty

end Writers

theorem writerStep_spare (hd : d.Ready e) (hvalid : x.Valid e d)
    (hprovided : x.Provided e d) (hstep : writerStep e d x = some t) :
    t.Ready e ∧ min e.reserveZoneCount (d.spare e).card ≤ (t.spare e).card := by
  cases x with
  | allocate a h spins lifetime ioType =>
    obtain ⟨⟨r, t⟩, hrun, rfl⟩ := map_eq_some_iff.mp hstep
    exact ⟨hd.allocate lifetime ioType hrun, hprovided.spare lifetime ioType hd hrun⟩
  | call o =>
    obtain ⟨⟨r, t⟩, hr, rfl⟩ := map_eq_some_iff.mp hstep
    have hsub := Call.OfWriter.spare hr hvalid
    exact ⟨hd.call hr hvalid, (min_le_right _ _).trans (card_le_card hsub)⟩

/-- In a run of writers whose allocations are made while more zones than the reserve are empty and
free, or while at most the reserve is empty and an open zone can be matched, the number of empty
zones does not fall below the reserve. When at most the reserve is empty, an allocation opens an
empty zone exactly if no open zone can be matched. -/
theorem reserve_respected {d₀ : Zbd} (hd₀ : d₀.Ready e)
    (hrun : Reaches (writerStep e) (fun d x => x.Valid e d ∧ x.Provided e d) d₀ d) :
    min e.reserveZoneCount (d₀.spare e).card ≤ d.getEmptyZoneCount e ∧
      (d.getEmptyZoneCount e ≤ e.reserveZoneCount → ∀ a h lifetime ioType spins z t,
        (allocateIOZone e a h spins lifetime ioType).run (exec e) d = some ((.OK, some z), t) →
          (d.Opens e z ↔ ¬ d.Matchable e h ioType)) := by
  have hinv : d.Ready e ∧ min e.reserveZoneCount (d₀.spare e).card ≤ (d.spare e).card := by
    apply hrun.keeps ⟨hd₀, min_le_right _ _⟩
    rintro x v w ⟨hv, hmin⟩ ⟨hvalid, hprovided⟩ hstep
    obtain ⟨hw, hle⟩ := writerStep_spare hv hvalid hprovided hstep
    exact ⟨hw, by omega⟩
  have hcount := d.card_spare_le e
  refine ⟨by omega, fun hfew a h lifetime ioType spins z t hrun => ?_⟩
  exact hinv.1.opens_iff lifetime ioType hfew hrun

def reserveSetup : Setup := { roomySetup with reserveZoneCount := 1 }

theorem ready_smallDevice : smallDevice.Ready reserveSetup where
  zonePos := by decide
  levelwise := rfl
  onIoZones g x hx := by cases hx
  wp z := le_rfl
  blank z _ _ := rfl

/-- The first writer takes one of two empty zones, writes to it and lets it go. The other zone is in
reserve, and the second writer is given the first zone again. -/
theorem reserve_respected_smallDevice : ∃ d,
    Reaches (writerStep reserveSetup)
      (fun d x => x.Valid reserveSetup d ∧ x.Provided reserveSetup d) smallDevice d ∧
    (d.zones 0).busy = true ∧ (d.zones 0).usedCapacity = 16 ∧
    min 1 (smallDevice.spare reserveSetup).card ≤ d.getEmptyZoneCount reserveSetup := by
  let e := reserveSetup
  let first : WriterAction := .allocate me 1 0 .short .data
  let second : WriterAction := .allocate (.thread 1) 2 0 .short .data
  have hruns : ((writerStep e smallDevice first).bind fun d₁ =>
      (writerStep e d₁ (.call (.append me 0 (replicate 16 0)))).bind fun d₂ =>
        (writerStep e d₂ (.call (.use 0 (· + 16)))).bind fun d₃ =>
          (writerStep e d₃ (.call (.release me 0))).bind fun d₄ =>
            (writerStep e d₄ second).map fun d =>
              decide ((d₁.zones 0).busy = true ∧ (d₂.zones 0).isEmpty (e.start 0) = false ∧
                (d₄.getEmptyZoneCount e ≤ 1 ∧ (d₄.zones 0).busy = false ∧
                  (d₄.zones 0).eligible (e.minCapacity (d₄.place.info 2)) = true ∧
                  ¬ (d₄.zones 0).capacity < (d₄.zones 0).maxCapacity * e.finishThreshold / 100) ∧
                (d.zones 0).busy = true ∧ (d.zones 0).usedCapacity = 16)) = some true := by
    decide +kernel
  obtain ⟨d₁, hd₁, hruns⟩ := bind_eq_some_iff.mp hruns
  obtain ⟨d₂, hd₂, hruns⟩ := bind_eq_some_iff.mp hruns
  obtain ⟨d₃, hd₃, hruns⟩ := bind_eq_some_iff.mp hruns
  obtain ⟨d₄, hd₄, hruns⟩ := bind_eq_some_iff.mp hruns
  obtain ⟨d, hd, hruns⟩ := map_eq_some_iff.mp hruns
  obtain ⟨hbusy, hdata, ⟨hfew, hfree, hroom, hkept⟩, hheld, hused⟩ := of_decide_eq_true hruns
  have hmore : 1 < (smallDevice.spare e).card := by decide +kernel
  have hmatch : d₄.Matchable e 2 .data :=
    ⟨0, ⟨by decide, hfree, hroom⟩, .inr fun hfinish => hkept hfinish.2.2.2⟩
  have hreach : Reaches (writerStep e) (fun d x => x.Valid e d ∧ x.Provided e d) smallDevice d :=
    ((((Reaches.single (a := first) ⟨trivial, .inl hmore⟩ hd₁).trans
      (Reaches.single ⟨.inr hbusy, trivial⟩ hd₂)).trans
      (Reaches.single ⟨hdata, trivial⟩ hd₃)).trans (Reaches.single ⟨trivial, trivial⟩ hd₄)).trans
      (Reaches.single (a := second) ⟨trivial, .inr ⟨hfew, hmatch⟩⟩ hd)
  exact ⟨d, hreach, hheld, hused, (reserve_respected ready_smallDevice hreach).1⟩

/-- Two writers one after the other: the second one takes the zone in reserve and writes to it, and
no zone is empty any more. -/
theorem reserve_taken : ∃ d t u : Zbd,
    Reaches (writerStep reserveSetup) (fun d x => x.Valid reserveSetup d) smallDevice d ∧
    d.getEmptyZoneCount reserveSetup ≤ reserveSetup.reserveZoneCount ∧
    d.Opens reserveSetup 1 ∧
    (allocateIOZone reserveSetup (.thread 1) 2 0 .short .data).run (exec reserveSetup) d =
      some ((.OK, some 1), t) ∧
    Reaches (writerStep reserveSetup) (fun d x => x.Valid reserveSetup d) t u ∧
    u.getEmptyZoneCount reserveSetup < reserveSetup.reserveZoneCount := by
  let e := reserveSetup
  let first : WriterAction := .allocate me 1 0 .short .data
  let write (h : Handle) (z : ℕ) : WriterAction := .call (.append (.file h) z (replicate 16 0))
  have hruns : ((writerStep e smallDevice first).bind fun d₁ =>
      (writerStep e d₁ (write 1 0)).bind fun d =>
        ((allocateIOZone e (.thread 1) 2 0 .short .data).run (exec e) d).bind fun r =>
          (writerStep e r.2 (write 2 1)).map fun u =>
            decide ((d₁.zones 0).busy = true ∧ d.getEmptyZoneCount e ≤ 1 ∧
              ((d.zones 1).busy = false ∧ (d.zones 1).isEmpty (e.start 1) = true) ∧
              r.1 = (.OK, some 1) ∧ (r.2.zones 1).busy = true ∧ u.getEmptyZoneCount e < 1)) =
      some true := by
    decide +kernel
  obtain ⟨d₁, hd₁, hruns⟩ := bind_eq_some_iff.mp hruns
  obtain ⟨d, hd, hruns⟩ := bind_eq_some_iff.mp hruns
  obtain ⟨⟨r, t⟩, hr, hruns⟩ := bind_eq_some_iff.mp hruns
  obtain ⟨u, hu, hruns⟩ := map_eq_some_iff.mp hruns
  obtain ⟨hbusy, hcount, hopens, rfl, hheld, hfinal⟩ := of_decide_eq_true hruns
  have hwrites : (write 1 0).Valid e d₁ := .inr hbusy
  have hwrites' : (write 2 1).Valid e t := .inr hheld
  have hfirst : first.Valid e smallDevice := trivial
  refine ⟨d, t, u, ?_, hcount, ⟨by decide, hopens⟩, hr, Reaches.single hwrites' hu, hfinal⟩
  exact (Reaches.single hfirst hd₁).trans (Reaches.single hwrites hd)

end ZenFs.Device
