import ZenFs.Device.Books
import ZenFs.Device.OutOfSpace

/-!
What a call of `AllocateIOZone`, run in one go, leaves behind.

The zone it returns is held and is empty or has room. Zones that have data may have been finished;
extents and counters are as they were.
-/

namespace ZenFs.Device

open Library Task Judgement Option Zbd

variable {L : Task.Judgement Call.Res} {best m spins : ℕ} {o : Call} {r : Status × Option ℕ}
variable {s u : Zbd} {zone : Option ℕ}
variable {e : Setup} {a : Holder} {h : Handle} {d t : Zbd}

/-- No thread is in the middle of a search, the extents lie in IO zones, and the search position is
one of a zone. -/
structure Zbd.AtRest (e : Setup) (d : Zbd) : Prop where
  zonePos : 0 < e.nrZones → d.zonePos < e.nrZones
  levelwise : d.locked .levelwiseFiles = false
  onIoZones : OnIoZones e d

/-- Extents, counters and log are those of `d`, and the write pointers lie in their zones. -/
structure Balanced (e : Setup) (d t : Zbd) : Prop where
  books : SameBooks d t
  wp : ∀ z, e.start z ≤ (t.zones z).wp
  bodies : t.bodies = d.bodies
  metaLog : t.metaLog = d.metaLog

abbrev balanced (e : Setup) (d : Zbd) : Judgement Call.Res := .keeps (exec e) (Balanced e d)

theorem balanced_call (ho : o.sparesBooks = true) (hbodies : o.sparesBodies = true)
    (hlog : ∀ l, o ≠ .setMetaLog l) : (balanced e d).Calls o := by
  intro s r t hs hr
  have hframed := exec_framed hr
  exact ⟨⟨hs.books.trans (exec_sparesBooks ho hr), fun z => exec_start_le_wp hr (hs.wp z),
    (hframed.bodies hbodies).trans hs.bodies, (hframed.metaLog hlog).trans hs.metaLog⟩, trivial⟩

theorem handles_balanced : Handles a (balanced e d) := by
  constructor
  iterate 3 on_goal 1 => constructor
  all_goals
    intros
    exact balanced_call rfl rfl nofun

theorem places_balanced : Places e h (balanced e d) where
  raiseForEmptyZone _ := balanced_call rfl rfl nofun
  raiseMaxLevel := balanced_call rfl rfl nofun
  setAllocSize _ := balanced_call rfl rfl nofun
  policies := .mono (balanced_call rfl rfl nofun)
    fun _ _ _ _ _ _ _ => balanced_call rfl rfl nofun

theorem allocateIOZone_balanced (hwp : ∀ z, e.start z ≤ (d.zones z).wp) (spins : ℕ)
    (lifetime : Lifetime) (ioType : IOType) :
    (allocateIOZone e a h spins lifetime ioType).Ends (exec e) d fun _ t => Balanced e d t := by
  have hallocates : Allocates e a h (balanced e d) := ⟨handles_balanced, places_balanced⟩
  have hbalanced : Balanced e d d := ⟨sameBooks_of_eq rfl rfl, hwp, rfl, rfl⟩
  have hadmits := allocateIOZone_admits hallocates spins lifetime ioType
  exact (Keeps.ends hadmits hbalanced).mono fun _ _ ht => ht.1

theorem readyToMatch_admits (hhandles : Handles a L)
    (hplaces : L.Calls (.place fun d => (d.place.raiseMaxLevel (d.place.info h).level, [])))
    (ioType : IOType) : L.Admits (readyToMatch e a h ioType) := by
  have hfinish : L.Admits (if ioType ≠ .wal then applyFinishThreshold e a else pure .OK) := by
    split
    · exact applyFinishThreshold_admits hhandles.toRecycles
    · exact admits_ret _
  apply admits_bind (place_admits hplaces)
  intro _
  refine admits_then hhandles.look fun u => ?_
  exact admits_then hfinish fun _ => admits_bind (hhandles.wait _) fun _ => admits_ret _

theorem ComesToMatch.sameBooks {ioType : IOType} (hcome : ComesToMatch e a h ioType d t)
    (hwp : ∀ z, e.start z ≤ (d.zones z).wp) : SameBooks d t := by
  have hready : (balanced e d).Admits (readyToMatch e a h ioType) :=
    readyToMatch_admits handles_balanced places_balanced.raiseMaxLevel ioType
  obtain ⟨-, s, -, hs⟩ := hcome
  have hbalanced : Balanced e d (d.setLocked .alloc true) :=
    ⟨sameBooks_of_eq rfl rfl, hwp, rfl, rfl⟩
  exact (Keeps.ends hready hbalanced s t hs).1.books

theorem ComesToMatch.info {ioType : IOType} (hcome : ComesToMatch e a h ioType d t) :
    t.place.info = d.place.info := by
  have hraise : ∀ u : Zbd, u.place.info = d.place.info →
      (u.place.raiseMaxLevel (u.place.info h).level).info = d.place.info := by
    intro u hu
    rw [Placement.raiseMaxLevel]
    split <;> exact hu
  have hready : (placed e fun p => p.info = d.place.info).Admits (readyToMatch e a h ioType) :=
    readyToMatch_admits handles_placed (placed_place hraise) ioType
  obtain ⟨-, s, -, hs⟩ := hcome
  exact (Keeps.ends hready (s := d.setLocked .alloc true) rfl s t hs).1

variable (lifetime : Lifetime) (ioType : IOType)

theorem Zbd.AtRest.match_ends (hd : d.AtRest e) (hcome : ComesToMatch e a h ioType d t) :
    (matchForFile e a h lifetime).Ends (exec e) t fun r u =>
      r.1 = .OK ∧ Found e a (e.minCapacity (t.place.info h)) t r.2.2 u ∧ (r.2.2 = none →
        lifetimeDiffCouldBeWorse ≤ r.2.1 ∧ ∀ z, ¬ t.Offers e (e.minCapacity (t.place.info h)) z) := by
  apply matchForFile_ends
  · rw [hcome.settled.levelwise, hd.levelwise]
  · rw [OnIoZones, hcome.settled.bodies]
    exact hd.onIoZones

/-- A zone comes with `OK` and is empty or has room, and no other zone got another holder. -/
structure Allocated (e : Setup) (d : Zbd) (r : Status × Option ℕ) (t : Zbd) : Prop where
  ok : r.2 ≠ none → r.1 = .OK
  ioZone : ∀ z, r.2 = some z → z < e.nrZones
  room : ∀ z, r.2 = some z →
    (t.zones z).isEmpty (e.start z) = true ∨ 0 < (t.zones z).capacity
  leaves : d.Leaves e r.2 t

theorem Allocated.after (hs : d.Leaves e none s) (ht : Allocated e s r t) : Allocated e d r t :=
  ⟨ht.ok, ht.ioZone, ht.room, hs.trans ht.leaves⟩

theorem reconsider_none_allocated (spins best : ℕ)
    (hpos : 0 < e.nrZones → d.zonePos < e.nrZones) :
    (reconsider e a h spins lifetime best none).Ends (exec e) d fun r t =>
      Allocated e d r t ∧ ∀ z, r.2 = some z → (t.zones z).isEmpty (e.start z) = true := by
  refine (reconsider_none_ends spins lifetime best hpos).mono fun r t hr => ?_
  have hempty : ∀ z, r.2 = some z → (t.zones z).isEmpty (e.start z) = true := by
    intro z hz
    rw [hr.leaves.isEmpty]
    exact (hr.found z hz).2.2
  exact ⟨⟨hr.status, fun z hz => List.mem_range.mp (hr.found z hz).1,
    fun z hz => .inl (hempty z hz), hr.leaves⟩, hempty⟩

def Zbd.Takes (d : Zbd) (e : Setup) (n z : ℕ) : Prop :=
  (d.zones z).isEmpty (e.start z) = true ∨ n ≤ (d.zones z).capacity

theorem afterMatch_allocated (spins : ℕ)
    (hfound : Found e a m t zone u) (hbad : zone = none → lifetimeDiffCouldBeWorse ≤ best)
    (hpos : 0 < e.nrZones → t.zonePos < e.nrZones) :
    (afterMatch e a h spins lifetime (.OK, best, zone)).Ends (exec e) u fun r v =>
      Allocated e t r v ∧ ∀ z, r.2 = some z → v.Takes e m z := by
  obtain ⟨p, rfl⟩ := hfound.device
  have hplace : t.Leaves e none (t.setPlace p) := leaves_of_eq rfl id rfl
  have hio {z : ℕ} (hz : zone = some z) : z < e.nrZones :=
    List.mem_range.mp (hfound.offers z hz).1
  have hroom {z : ℕ} (hz : zone = some z) :
      0 < (t.zones z).capacity ∧ m ≤ (t.zones z).capacity := by
    have heligible := (hfound.offers z hz).2.2
    simp only [Zone.eligible, Zone.isFull, Bool.and_eq_true, Bool.not_eq_true',
      decide_eq_false_iff_not, decide_eq_true_eq] at heligible
    exact ⟨Nat.pos_of_ne_zero heligible.1.2, heligible.2⟩
  have hnone (best : ℕ) : (reconsider e a h spins lifetime best none).Ends (exec e)
      (t.setPlace p) fun r v => Allocated e t r v ∧ ∀ z, r.2 = some z → v.Takes e m z :=
    (reconsider_none_allocated (d := t.setPlace p) lifetime spins best hpos).mono
      fun _ _ hr => ⟨hr.1.after hplace, fun z hz => .inl (hr.2 z hz)⟩
  obtain hgood | hworse := lt_or_ge best lifetimeDiffCouldBeWorse
  · have hafter : afterMatch e a h spins lifetime (.OK, best, zone) = Task.ret (.OK, zone) := by
      cases zone with
      | none => exact absurd (hbad rfl) (not_le.mpr hgood)
      | some z =>
        rw [afterMatch, if_neg (not_le.mpr hgood)]
        rfl
    rw [hafter]
    have hheld {z : ℕ} (hz : zone = some z) :
        (((t.setPlace p).hold a zone).zones z).capacity = (t.zones z).capacity := by
      subst hz
      rw [Zbd.hold_zones_self]
      rfl
    refine .ret ⟨⟨fun _ => rfl, fun z => hio, fun z hz => .inr ?_,
      hplace.trans (leaves_hold)⟩, fun z hz => .inr ?_⟩
    · rw [hheld hz]
      exact (hroom hz).1
    · rw [hheld hz]
      exact (hroom hz).2
  · rw [afterMatch_of_bad lifetime hworse]
    cases zone with
    | none => exact hnone best
    | some z =>
      have hfree : ((t.setPlace p).zones z).busy = false := (hfound.offers z rfl).2.1
      intro r v hrun
      obtain ⟨-, w, hkept, hleaves, hcapacity⟩ | ⟨-, hback⟩ :=
        reconsider_some_run best e a h lifetime hfree spins
      · rw [hkept] at hrun
        cases hrun
        have hkeeps : (v.zones z).capacity = (t.zones z).capacity := hcapacity
        refine ⟨⟨fun _ => rfl, fun z => hio, ?_, hplace.trans hleaves⟩, ?_⟩
        · rintro _ ⟨⟩
          rw [hkeeps]
          exact .inr (hroom rfl).1
        · rintro _ ⟨⟩
          exact .inr (hkeeps ▸ (hroom rfl).2)
      · exact hnone best r v (hback.symm.trans hrun)

/-- Whatever is found on the way, an allocation ends as `Allocated` says. -/
theorem allocateIOZone_allocated (hd : d.AtRest e) (spins : ℕ) :
    (allocateIOZone e a h spins lifetime ioType).Ends (exec e) d (Allocated e d) := by
  intro r v hrun
  cases hlock : d.locked .alloc with
  | true =>
    have hexec : exec e (.lock .alloc) d = none := if_pos hlock
    have hstuck := (run_call_bind_none hexec).symm.trans hrun
    cases hstuck
  | false =>
    rw [allocateIOZone_run spins lifetime ioType hlock, allocateIOZoneLocked_eq, run_bind] at hrun
    obtain ⟨⟨r, w⟩, hbody, hv⟩ := bind_eq_some_iff.mp hrun
    cases hv
    have hunlock : w.Leaves e none (w.setLocked .alloc false) :=
      leaves_of_eq rfl id (by simp [Zbd.setLocked])
    have hlocked : d.Leaves e none (d.setLocked .alloc true) :=
      leaves_of_eq rfl id (by simp [Zbd.setLocked])
    obtain ⟨⟨s, t⟩, hs, hrest⟩ := bind_eq_some_iff.mp hbody
    have hready := hlocked.trans (readyToMatch_settled ioType s t hs).leaves
    cases hok : s.ok with
    | false =>
      simp only [hok] at hrest
      obtain ⟨rfl, rfl⟩ := hrest
      exact ⟨fun h => absurd rfl h, (by rintro _ ⟨⟩), (by rintro _ ⟨⟩), hready.trans hunlock⟩
    | true =>
      simp only [hok, Bool.not_true, Bool.false_eq_true, if_false, run_bind] at hrest
      obtain ⟨⟨⟨s', best, zone⟩, u⟩, hr, hafter⟩ := bind_eq_some_iff.mp hrest
      have hcome : ComesToMatch e a h ioType d t := ⟨hlock, s, hok, hs⟩
      obtain ⟨rfl, hfound, hbad⟩ := hd.match_ends lifetime ioType hcome _ u hr
      have hpos := hready.zonePos hd.zonePos
      have halloc := (afterMatch_allocated lifetime spins hfound (fun h => (hbad h).1) hpos r w
        hafter).1
      exact ⟨halloc.ok, halloc.ioZone, halloc.room, (hready.trans halloc.leaves).andThen hunlock⟩

theorem Zbd.AtRest.allocate (hd : d.AtRest e) (hwp : ∀ z, e.start z ≤ (d.zones z).wp)
    (hrun : (allocateIOZone e a h spins lifetime ioType).run (exec e) d = some (r, t)) :
    t.AtRest e := by
  have hleaves := (allocateIOZone_allocated lifetime ioType hd spins r t hrun).leaves
  have hbalanced := allocateIOZone_balanced hwp spins lifetime ioType r t hrun
  constructor
  · exact hleaves.zonePos hd.zonePos
  · rw [hleaves.levelwise, hd.levelwise]
  · rw [OnIoZones, hbalanced.bodies]
    exact hd.onIoZones

end ZenFs.Device
