import ZenFs.Device.Search

/-!
The search for an empty zone, and the finishing of zones until a token is free, run in one go.

Whichever allocator is configured, an empty zone is found exactly if there is one that nobody
holds.
-/

namespace ZenFs.Device

open Library Task List Zbd Nat

variable {level : ℤ} {s : Zbd} {sorted : List ℕ} {z : ℕ}
variable {e : Setup} {a : Holder} {d : Zbd}

def Zbd.Opens (d : Zbd) (e : Setup) (z : ℕ) : Prop :=
  z ∈ e.ioZones ∧ (d.zones z).busy = false ∧ (d.zones z).isEmpty (e.start z) = true

/-- Between `d` and `t` at most the zone `zone` got another holder, no zone was written or reset,
and only zones that have data and that nobody held were finished. -/
structure Zbd.Leaves (e : Setup) (zone : Option ℕ) (d t : Zbd) : Prop where
  busy : ∀ y, zone ≠ some y → (t.zones y).busy = (d.zones y).busy
  held : ∀ y, zone = some y → (t.zones y).busy = true
  isEmpty : ∀ y, (t.zones y).isEmpty (e.start y) = (d.zones y).isEmpty (e.start y)
  capacity : ∀ y, (t.zones y).capacity = (d.zones y).capacity ∨
    (d.zones y).busy = false ∧ (t.zones y).capacity = 0 ∧
      (t.zones y).isEmpty (e.start y) = false
  zonePos : (0 < e.nrZones → d.zonePos < e.nrZones) → 0 < e.nrZones → t.zonePos < e.nrZones
  levelwise : t.locked .levelwiseFiles = d.locked .levelwiseFiles

structure Taken (e : Setup) (d : Zbd) (r : Status × Option ℕ) (t : Zbd) : Prop where
  ok : r.1 = .OK
  found : ∀ z, r.2 = some z → d.Opens e z
  complete : r.2 = none → ∀ z, ¬ d.Opens e z
  leaves : d.Leaves e r.2 t

def Taking (e : Setup) (d : Zbd) (m : DevTask (Status × Option ℕ)) : Prop :=
  m.Returns (exec e) d (Taken e d)

theorem returns_acquire_busy {α : Type} {f : Bool → DevTask α} {Q : α → Zbd → Prop}
    (hbusy : (d.zones z).busy = true) (h : (f false).Returns (exec e) d Q) :
    (acquire a z >>= f).Returns (exec e) d Q :=
  returns_call (congrArg some (Zbd.acquire_of_busy hbusy)) h

theorem returns_acquire_free {α : Type} {f : Bool → DevTask α} {Q : α → Zbd → Prop}
    (hfree : (d.zones z).busy = false)
    (h : (f true).Returns (exec e) (d.hold a (some z)) Q) :
    (acquire a z >>= f).Returns (exec e) d Q :=
  returns_call (congrArg some (Zbd.acquire_of_free hfree)) h

variable {t : Zbd}

theorem returns_checkRelease {α : Type} {f : Status → DevTask α} {Q : α → Zbd → Prop}
    (hrelease : d.release a z = (true, t)) (h : (f .OK).Returns (exec e) t Q) :
    (checkRelease e a z >>= f).Returns (exec e) d Q :=
  Task.Returns.bind ⟨_, _, checkRelease_run hrelease, h⟩

theorem hold_isEmpty {kept : Option ℕ} (z start : ℕ) :
    ((d.hold a kept).zones z).isEmpty start = (d.zones z).isEmpty start := by
  obtain ⟨b, hb⟩ := (d.alike_refl.hold a kept).zones z
  rw [hb]
  rfl

theorem Zbd.leaves_of_eq (hzones : t.zones = d.zones)
    (hpos : (0 < e.nrZones → d.zonePos < e.nrZones) → 0 < e.nrZones → t.zonePos < e.nrZones)
    (hlock : t.locked .levelwiseFiles = d.locked .levelwiseFiles) : d.Leaves e none t where
  busy y _ := by rw [hzones]
  held := nofun
  isEmpty y := by rw [hzones]
  capacity y := .inl (by rw [hzones])
  zonePos := hpos
  levelwise := hlock

theorem Zbd.leaves_refl (e : Setup) (d : Zbd) : d.Leaves e none d :=
  leaves_of_eq rfl id rfl

variable {zone : Option ℕ}

theorem Zbd.Leaves.trans (hs : d.Leaves e none s)
    (ht : s.Leaves e zone t) : d.Leaves e zone t where
  busy y hy := (ht.busy y hy).trans (hs.busy y nofun)
  held := ht.held
  isEmpty y := (ht.isEmpty y).trans (hs.isEmpty y)
  capacity y := by
    rcases ht.capacity y with hsame | ⟨hfree, hfull, hdata⟩
    · rw [hsame, ht.isEmpty]
      exact hs.capacity y
    · exact .inr ⟨(hs.busy y nofun).symm.trans hfree, hfull, hdata⟩
  zonePos hpos := ht.zonePos (hs.zonePos hpos)
  levelwise := ht.levelwise.trans hs.levelwise

theorem Zbd.Leaves.andThen (hs : d.Leaves e zone s) (ht : s.Leaves e none t) :
    d.Leaves e zone t where
  busy y hy := (ht.busy y nofun).trans (hs.busy y hy)
  held y hy := (ht.busy y nofun).trans (hs.held y hy)
  isEmpty y := (ht.isEmpty y).trans (hs.isEmpty y)
  capacity y := by
    rcases ht.capacity y with hsame | ⟨hfree, hfull, hdata⟩
    · rw [hsame, ht.isEmpty]
      exact hs.capacity y
    · by_cases hy : zone = some y
      · rw [hs.held y hy] at hfree
        cases hfree
      · exact .inr ⟨(hs.busy y hy).symm.trans hfree, hfull, hdata⟩
  zonePos hpos := ht.zonePos (hs.zonePos hpos)
  levelwise := ht.levelwise.trans hs.levelwise

theorem Zbd.leaves_hold : d.Leaves e zone (d.hold a zone) where
  busy y hy := by rw [Zbd.hold_zones_of_ne hy]
  held y hy := Zbd.hold_busy.mpr (.inr hy)
  isEmpty y := hold_isEmpty y _
  capacity y := by
    obtain ⟨b, hb⟩ := (d.alike_refl.hold a zone).zones y
    exact .inl (by rw [hb])
  zonePos hpos := by cases zone <;> exact hpos
  levelwise := by rw [Zbd.hold_locked]

theorem Zbd.Leaves.opens (h : d.Leaves e zone t)
    (hz : d.Opens e z) (hne : zone ≠ some z) : t.Opens e z :=
  ⟨hz.1, by rw [h.busy z hne]; exact hz.2.1, by rw [h.isEmpty]; exact hz.2.2⟩

structure FirstEmpty (e : Setup) (a : Holder) (d : Zbd) (l : List ℕ)
    (r : Status × Option (ℕ × ℕ)) (t : Zbd) : Prop where
  ok : r.1 = .OK
  device : t = d.hold a (r.2.map (·.1))
  found : ∀ z, r.2.map (·.1) = some z →
    z ∈ l ∧ (d.zones z).busy = false ∧ (d.zones z).isEmpty (e.start z) = true
  complete : r.2 = none →
    ∀ z ∈ l, (d.zones z).busy = false → (d.zones z).isEmpty (e.start z) = false

/-- What comes with the zone is how many zones were passed, of which none is empty and free. -/
def CountsPassed (e : Setup) (d : Zbd) (l : List ℕ) (passed : ℕ) (r : Status × Option (ℕ × ℕ)) :
    Prop :=
  ∀ z k, r.2 = some (z, k) → ∃ i, k = passed + i ∧ l[i]? = some z ∧
    ∀ j < i, ∀ y, l[j]? = some y → (d.zones y).busy = false → (d.zones y).isEmpty (e.start y) = false

theorem firstEmptyZone_counts (l : List ℕ) (passed : ℕ) : (firstEmptyZone e a l passed).Returns
    (exec e) d fun r t => FirstEmpty e a d l r t ∧ CountsPassed e d l passed r := by
  induction l generalizing passed with
  | nil => exact .ret ⟨⟨rfl, rfl, nofun, by simp⟩, nofun⟩
  | cons z rest ih =>
    have hrest (hz : (d.zones z).busy = false → (d.zones z).isEmpty (e.start z) = false) :
        (firstEmptyZone e a rest (passed + 1)).Returns (exec e) d fun r t =>
          FirstEmpty e a d (z :: rest) r t ∧ CountsPassed e d (z :: rest) passed r := by
      apply (ih (passed + 1)).mono
      rintro r t ⟨⟨hok, ht, hsome, hnone⟩, hcount⟩
      refine ⟨⟨hok, ht, fun y hy => ⟨mem_cons_of_mem _ (hsome y hy).1, (hsome y hy).2⟩,
        fun hr => forall_mem_cons.mpr ⟨hz, hnone hr⟩⟩, fun x k hx => ?_⟩
      obtain ⟨i, rfl, hi, hpassed⟩ := hcount x k hx
      refine ⟨i + 1, by omega, hi, ?_⟩
      rintro (_ | j) hj y hy
      · cases hy
        exact hz
      · exact hpassed j (by omega) y hy
    cases hbusy : (d.zones z).busy with
    | true =>
      apply returns_acquire_busy hbusy
      exact hrest (by simp [hbusy])
    | false =>
      apply returns_acquire_free hbusy
      apply returns_look
      rw [hold_isEmpty]
      cases hempty : (d.zones z).isEmpty (e.start z) with
      | true =>
        refine .ret ⟨⟨rfl, rfl, ?_, nofun⟩, ?_⟩
        · rintro _ ⟨⟩
          exact ⟨mem_cons_self, hbusy, hempty⟩
        · rintro _ _ ⟨⟩
          exact ⟨0, rfl, rfl, nofun⟩
      | false =>
        apply returns_checkRelease (Zbd.release_hold hbusy)
        exact hrest fun _ => hempty

theorem firstEmptyZone_returns (l : List ℕ) (passed : ℕ) :
    (firstEmptyZone e a l passed).Returns (exec e) d (FirstEmpty e a d l) :=
  (firstEmptyZone_counts l passed).mono fun _ _ h => h.1

structure Cheapest (a : Holder) (d : Zbd) (test : ℕ → Zone → Bool) (k : Zone → ℕ) (l : List ℕ)
    (kept : Option ℕ) (r : Status × Option ℕ) (t : Zbd) : Prop where
  ok : r.1 = .OK
  device : t = d.hold a r.2
  found : ∀ z, r.2 = some z →
    (z ∈ l ∨ kept = some z) ∧ (d.zones z).busy = false ∧ test z (d.zones z) = true
  complete : r.2 = none →
    kept = none ∧ ∀ z ∈ l, (d.zones z).busy = false → test z (d.zones z) = false
  least : ∀ z, r.2 = some z → ∀ y, y ∈ l ∨ kept = some y → (d.zones y).busy = false →
    test y (d.zones y) = true → k (d.zones z) ≤ k (d.zones y)

/-- The loop ends with a zone that passes the test, and no other one is cheaper. -/
theorem cheapestZone_returns {test : ℕ → Zone → Bool} {better : Zone → Zone → Bool} {k : Zone → ℕ}
    (htest : ∀ z zone b, test z { zone with busy := b } = test z zone)
    (hk : ∀ zone b, k { zone with busy := b } = k zone)
    (hbetter : ∀ y z, if better y z then k z ≤ k y else k y ≤ k z) (l : List ℕ)
    {kept : Option ℕ}
    (hkept : ∀ z, kept = some z → (d.zones z).busy = false ∧ test z (d.zones z) = true) :
    (cheapestZone e a test better l kept).Returns (exec e) (d.hold a kept)
      (Cheapest a d test k l kept) := by
  induction l generalizing kept with
  | nil =>
    refine .ret ⟨rfl, rfl, fun z hz => ⟨.inr hz, hkept z hz⟩, fun hr => ⟨hr, by simp⟩, ?_⟩
    intro z hz y hy _ _
    cases hz.symm.trans (hy.resolve_left nofun)
    exact le_rfl
  | cons z rest ih =>
    -- the zone was passed over: it is busy, fails the test, or the one kept is as good
    have hpass (hz : (d.zones z).busy = false → test z (d.zones z) = true →
          ∃ y, kept = some y ∧ k (d.zones y) ≤ k (d.zones z)) :
        (cheapestZone e a test better rest kept).Returns (exec e) (d.hold a kept)
          (Cheapest a d test k (z :: rest) kept) := by
      apply (ih hkept).mono
      rintro r t ⟨hok, ht, hsome, hnone, hleast⟩
      refine ⟨hok, ht, fun y hy => ⟨(hsome y hy).1.imp_left (mem_cons_of_mem _),
        (hsome y hy).2⟩, fun hr => ?_, fun x hx y hy hfree hy' => ?_⟩
      · obtain ⟨rfl, hrest⟩ := hnone hr
        refine ⟨rfl, forall_mem_cons.mpr ⟨fun hfree => ?_, hrest⟩⟩
        rw [← Bool.not_eq_true]
        intro htrue
        obtain ⟨y, ⟨⟩, -⟩ := hz hfree htrue
      · rw [mem_cons, or_assoc] at hy
        obtain rfl | hy := hy
        · obtain ⟨w, hw, hle⟩ := hz hfree hy'
          exact (hleast x hx w (.inr hw) (hkept w hw).1 (hkept w hw).2).trans hle
        · exact hleast x hx y hy hfree hy'
    have hmeasure {d : Zbd} (kept : Option ℕ) (y : ℕ) :
        k ((d.hold a kept).zones y) = k (d.zones y) := by
      obtain ⟨b, hb⟩ := (d.alike_refl.hold a kept).zones y
      rw [hb, hk]
    by_cases hbusy : (d.zones z).busy = true ∨ kept = some z
    · apply returns_acquire_busy (Zbd.hold_busy.mpr hbusy)
      apply hpass
      intro hfree _
      exact ⟨z, hbusy.resolve_left (by simp [hfree]), le_rfl⟩
    · have hfree : (d.zones z).busy = false := by simpa using (not_or.mp hbusy).1
      have hheld : ((d.hold a kept).zones z).busy = false := by
        rw [← Bool.not_eq_true, Zbd.hold_busy]
        exact hbusy
      -- the zone takes the place of the one kept so far
      have htake (hz : test z (d.zones z) = true)
          (hle : ∀ y, kept = some y → k (d.zones z) ≤ k (d.zones y)) :
          (cheapestZone e a test better rest (some z)).Returns (exec e) (d.hold a (some z))
            (Cheapest a d test k (z :: rest) kept) := by
        apply (ih (by rintro _ ⟨⟩; exact ⟨hfree, hz⟩)).mono
        rintro r t ⟨hok, ht, hsome, hnone, hleast⟩
        refine ⟨hok, ht, fun y hy => ⟨.inl ?_, (hsome y hy).2⟩, fun hr => (nomatch (hnone hr).1),
          fun x hx y hy hfree' hy' => ?_⟩
        · obtain hmem | ⟨⟨⟩⟩ := (hsome y hy).1
          · exact mem_cons_of_mem _ hmem
          · exact mem_cons_self
        · have hx := hleast x hx
          obtain hy | hy := hy
          · exact hx y ((mem_cons.mp hy).symm.imp_right fun h => congrArg some h.symm) hfree' hy'
          · exact (hx z (.inr rfl) hfree hz).trans (hle y hy)
      have hlook : test z (((d.hold a kept).hold a (some z)).zones z) = test z (d.zones z) := by
        rw [Zbd.hold_zones_self, htest, Zbd.hold_zones_of_ne fun hk => hbusy (.inr hk)]
      apply returns_acquire_free hheld
      apply returns_look
      rw [hlook]
      cases hz : test z (d.zones z) with
      | false =>
        apply returns_checkRelease (Zbd.release_hold hheld)
        exact hpass fun _ htrue => nomatch hz.symm.trans htrue
      | true =>
        cases kept with
        | none => exact htake hz nofun
        | some y =>
          have hne : y ≠ z := fun hy => hbusy (.inr (congrArg some hy))
          have hle := hbetter (((d.hold a (some y)).hold a (some z)).zones y)
            (((d.hold a (some y)).hold a (some z)).zones z)
          simp only [hmeasure] at hle
          simp only [Bool.not_true, Bool.false_eq_true, if_false]
          split at hle
          · next hbetter =>
            rw [if_pos hbetter]
            apply returns_checkRelease (Zbd.release_hold_of_ne (hkept y rfl).1 hne)
            exact htake hz (by rintro _ ⟨⟩; exact hle)
          · next hbetter =>
            rw [if_neg hbetter]
            apply returns_checkRelease (Zbd.release_hold hheld)
            exact hpass fun _ _ => ⟨y, rfl, hle⟩

variable {r : Status × Option ℕ}

theorem taken_of_mem {l : List ℕ}
    (hl : ∀ z, z ∈ l ↔ z ∈ e.ioZones) (hok : r.1 = .OK)
    (hfound : ∀ z, r.2 = some z →
      z ∈ l ∧ (d.zones z).busy = false ∧ (d.zones z).isEmpty (e.start z) = true)
    (hcomplete : r.2 = none → ∀ z ∈ l, (d.zones z).busy = false →
      (d.zones z).isEmpty (e.start z) = false)
    (hleaves : d.Leaves e r.2 t) : Taken e d r t where
  ok := hok
  found z hz := by
    obtain ⟨hmem, hopens⟩ := hfound z hz
    exact ⟨(hl z).mp hmem, hopens⟩
  complete hnone z := by
    rintro ⟨hmem, hfree, hempty⟩
    rw [hcomplete hnone z ((hl z).mpr hmem) hfree] at hempty
    cases hempty
  leaves := hleaves

theorem Taken.of_zones (h : Taken e s r t)
    (hzones : s.zones = d.zones) (hpos : s.zonePos = d.zonePos) (hlock : s.locked = d.locked) :
    Taken e d r t := by
  have hopens (z : ℕ) : s.Opens e z ↔ d.Opens e z := by rw [Zbd.Opens, Zbd.Opens, hzones]
  have hleaves : d.Leaves e none s :=
    leaves_of_eq hzones (fun hlt hsome => hpos ▸ hlt hsome) (by rw [hlock])
  exact ⟨h.ok, fun z hz => (hopens z).mp (h.found z hz),
    fun hnone z hz => h.complete hnone z ((hopens z).mpr hz), hleaves.trans h.leaves⟩

theorem firstEmptyZone_taking {l : List ℕ} (hl : ∀ z, z ∈ l ↔ z ∈ e.ioZones) :
    Taking e d (do
      let (s, found) ← firstEmptyZone e a l 0
      return (s, found.map (·.1))) := by
  apply (firstEmptyZone_returns l 0).seq
  rintro ⟨s, found⟩ t ⟨hok, rfl, hfound, hcomplete⟩
  apply Returns.ret
  exact taken_of_mem hl hok hfound (fun hnone => hcomplete (Option.map_eq_none_iff.mp hnone))
    (leaves_hold)

theorem allocateEmptyZoneDefault_taking : Taking e d (allocateEmptyZoneDefault e a) :=
  firstEmptyZone_taking fun _ => Iff.rfl

theorem allocateEmptyZoneRandom_taking : Taking e d (allocateEmptyZoneRandom e a) :=
  returns_call rfl ((firstEmptyZone_taking
    fun _ => (e.shuffle_perm _ _).mem_iff).mono fun _ _ h => h.of_zones rfl rfl rfl)

theorem leastWear_cheapest : (allocateEmptyZoneLeastWear e a).Returns (exec e) d
    (Cheapest a d (fun z zone => zone.isEmpty (e.start z)) Zone.resetCount e.ioZones none) := by
  refine cheapestZone_returns (d := d) (fun _ _ _ => rfl) (fun _ _ => rfl) (fun y z => ?_) _ nofun
  simp only [Bool.not_eq_true', decide_eq_false_iff_not, not_lt]
  split <;> omega

theorem allocateEmptyZoneLeastWear_taking : Taking e d (allocateEmptyZoneLeastWear e a) := by
  apply leastWear_cheapest.mono
  rintro r t ⟨hok, rfl, hfound, hcomplete, -⟩
  refine taken_of_mem (fun _ => Iff.rfl) hok (fun z hz => ⟨?_, (hfound z hz).2⟩)
    (fun hnone => (hcomplete hnone).2) (leaves_hold)
  simpa using (hfound z hz).1

/-- What `n` rounds of the sequential search end with: they go through the zones in turn, from
the one the last call stopped at. -/
structure NextEmpty (e : Setup) (d : Zbd) (n : ℕ) (r : Status × Option ℕ) (t : Zbd) : Prop where
  ok : r.1 = .OK
  found : ∀ z, r.2 = some z →
    z < e.nrZones ∧ (d.zones z).busy = false ∧ (d.zones z).isEmpty (e.start z) = true
  complete : r.2 = none → ∀ k < n, ∀ z, z = (d.zonePos + k) % e.nrZones →
    (d.zones z).busy = false → (d.zones z).isEmpty (e.start z) = false
  leaves : d.Leaves e r.2 t

theorem leaves_setZonePos (d : Zbd) :
    d.Leaves e none { d with zonePos := (d.zonePos + 1) % e.nrZones } :=
  leaves_of_eq rfl (fun _ hsome => mod_lt _ hsome) rfl

theorem NextEmpty.cons {n : ℕ} (hpos : d.zonePos < e.nrZones)
    (hz : (d.zones d.zonePos).busy = false →
      (d.zones d.zonePos).isEmpty (e.start d.zonePos) = false)
    (h : NextEmpty e { d with zonePos := (d.zonePos + 1) % e.nrZones } n r t) :
    NextEmpty e d (n + 1) r t := by
  refine ⟨h.ok, h.found, fun hnone k hk z => ?_, (leaves_setZonePos d).trans h.leaves⟩
  cases k with
  | zero =>
    rw [add_zero, mod_eq_of_lt hpos]
    rintro rfl
    exact hz
  | succ k =>
    intro hk'
    apply h.complete hnone k (by omega)
    rw [hk', mod_add_mod, add_right_comm, add_assoc]

theorem sequentialRounds_returns (n : ℕ) (hpos : d.zonePos < e.nrZones) :
    (sequentialRounds e a n).Returns (exec e) d (NextEmpty e d n) := by
  induction n generalizing d with
  | zero => exact .ret ⟨rfl, nofun, by simp, d.leaves_refl e⟩
  | succ n ih =>
    have hnext : (if d.zonePos + 1 ≥ e.nrZones then 0 else d.zonePos + 1) =
        (d.zonePos + 1) % e.nrZones := by
      split
      · rw [show d.zonePos + 1 = e.nrZones by omega, mod_self]
      · rw [mod_eq_of_lt (by omega)]
    let next : Zbd := { d with zonePos := (d.zonePos + 1) % e.nrZones }
    have hrest (hz : (d.zones d.zonePos).busy = false →
        (d.zones d.zonePos).isEmpty (e.start d.zonePos) = false) :
        (sequentialRounds e a n).Returns (exec e) next (NextEmpty e d (n + 1)) :=
      (ih (mod_lt _ (by omega))).mono fun _ _ hr => hr.cons hpos hz
    apply returns_look
    dsimp only
    rw [hnext]
    cases hbusy : (d.zones d.zonePos).busy with
    | true =>
      apply returns_acquire_busy (d := next) hbusy
      exact hrest (by simp [hbusy])
    | false =>
      apply returns_acquire_free (d := next) hbusy
      apply returns_look
      rw [hold_isEmpty]
      cases hempty : (next.zones d.zonePos).isEmpty (e.start d.zonePos) with
      | true =>
        refine .ret ⟨rfl, ?_, nofun, (leaves_setZonePos d).trans (leaves_hold)⟩
        rintro _ ⟨⟩
        exact ⟨hpos, hbusy, hempty⟩
      | false =>
        apply returns_checkRelease (Zbd.release_hold (d := next) hbusy)
        exact hrest fun _ => hempty

theorem allocateEmptyZoneSequential_taking (hpos : 0 < e.nrZones → d.zonePos < e.nrZones) :
    Taking e d (allocateEmptyZoneSequential e a) := by
  rw [allocateEmptyZoneSequential]
  obtain hzero | hsome := Nat.eq_zero_or_pos e.nrZones
  · rw [hzero]
    apply Returns.ret
    exact taken_of_mem (fun _ => Iff.rfl) rfl nofun (by simp [Setup.ioZones, hzero]) (d.leaves_refl e)
  · apply (sequentialRounds_returns e.nrZones (hpos hsome)).mono
    rintro r t ⟨hok, hfound, hcomplete, hleaves⟩
    refine taken_of_mem (fun _ => Iff.rfl) hok (fun z hz => ?_) (fun hnone z hz => ?_) hleaves
    · rw [Setup.ioZones, mem_range]
      exact hfound z hz
    · -- the round in which the zone is looked at
      have hz : z < e.nrZones := mem_range.mp hz
      apply hcomplete hnone ((z + e.nrZones - d.zonePos) % e.nrZones) (mod_lt _ hsome) z
      rw [add_mod_mod, show d.zonePos + (z + e.nrZones - d.zonePos) = z + e.nrZones by omega,
        add_mod_right, mod_eq_of_lt hz]

theorem allocateAroundInterval_taking {below above : List ℕ} (hbelow : ∀ z ∈ below, z ∈ e.ioZones)
    (habove : ∀ z ∈ above, z ∈ e.ioZones) :
    Taking e d (allocateAroundInterval e a below above) := by
  apply (firstEmptyZone_returns above 0).seq
  rintro ⟨_, upper⟩ t ⟨rfl, rfl, hupper, -⟩
  apply (firstEmptyZone_returns below 0).seq
  rintro ⟨_, lower⟩ t ⟨rfl, rfl, hlower, -⟩
  have hopensUpper (z k : ℕ) (hz : upper = some (z, k)) : d.Opens e z := by
    obtain ⟨hmem, hopens⟩ := hupper z (by rw [hz]; rfl)
    exact ⟨habove z hmem, hopens⟩
  have hopensLower (y k : ℕ) (hy : lower = some (y, k)) :
      d.Opens e y ∧ upper.map (·.1) ≠ some y := by
    obtain ⟨hmem, hfree, hempty⟩ := hlower y (by rw [hy]; rfl)
    rw [hold_isEmpty] at hempty
    rw [← Bool.not_eq_true, Zbd.hold_busy, not_or, Bool.not_eq_true] at hfree
    exact ⟨⟨hbelow y hmem, hfree.1, hempty⟩, hfree.2⟩
  have htaken {z : ℕ} (hz : d.Opens e z) : Taken e d (.OK, some z) (d.hold a (some z)) :=
    ⟨rfl, by rintro _ ⟨⟩; exact hz, nofun, leaves_hold⟩
  cases lower with
  | none =>
    cases upper with
    | none => exact allocateEmptyZoneDefault_taking
    | some upper => exact .ret (htaken (hopensUpper _ _ rfl))
  | some lower =>
    obtain ⟨hopens, hne⟩ := hopensLower _ _ rfl
    cases upper with
    | none => exact .ret (htaken hopens)
    | some upper =>
      have hother := hopensUpper _ _ rfl
      have hne : upper.1 ≠ lower.1 := fun h => hne (congrArg some h)
      dsimp only
      rw [if_neg (by decide)]
      split
      · apply returns_checkRelease (Zbd.release_hold_of_ne hother.2.1 hne)
        exact .ret (htaken hopens)
      · have hfree : ((d.hold a (some upper.1)).zones lower.1).busy = false := by
          rw [Zbd.hold_zones_of_ne (by simpa using hne)]
          exact hopens.2.1
        apply returns_checkRelease (Zbd.release_hold hfree)
        exact .ret (htaken hother)

theorem allocateNearInterval_taking (hsorted : ∀ z ∈ sorted, z ∈ e.ioZones)
    (lower upper : ℕ) : Taking e d (allocateNearInterval e a sorted lower upper) := by
  apply (firstEmptyZone_returns _ 0).seq
  rintro ⟨_, found⟩ t ⟨rfl, rfl, hfound, -⟩
  cases found with
  | some found =>
    obtain ⟨hmem, hopens⟩ := hfound found.1 rfl
    refine .ret ⟨rfl, ?_, nofun, leaves_hold⟩
    rintro _ ⟨⟩
    exact ⟨hsorted _ (mem_of_mem_take (mem_of_mem_drop hmem)), hopens⟩
  | none =>
    apply allocateAroundInterval_taking
    · exact fun z hz => hsorted z (mem_of_mem_take (mem_reverse.mp hz))
    · exact fun z hz => hsorted z (mem_of_mem_drop hz)

theorem allocateEmptyZoneHotnessBased_taking (level : ℤ) :
    Taking e d (allocateEmptyZoneHotnessBased e a level) := by
  rw [allocateEmptyZoneHotnessBased]
  split
  · exact allocateEmptyZoneLeastWear_taking
  · exact returns_look (allocateNearInterval_taking (fun _ => (mem_insertionSort _).mp) _ _)

theorem allocateEmptyZone_taking (hpos : 0 < e.nrZones → d.zonePos < e.nrZones) :
    Taking e d (allocateEmptyZone e a level) := by
  have hplace (p : Placement) {m : DevTask (Status × Option ℕ)} (hm : Taking e (d.setPlace p) m) :
      m.Returns (exec e) (d.setPlace p) (Taken e d) :=
    hm.mono fun _ _ h => h.of_zones rfl rfl rfl
  apply returns_call rfl
  cases e.emptyZoneAllocator with
  | default => exact hplace _ allocateEmptyZoneDefault_taking
  | sequential | userDefined => exact hplace _ (allocateEmptyZoneSequential_taking hpos)
  | random => exact hplace _ allocateEmptyZoneRandom_taking
  | leastWear => exact hplace _ allocateEmptyZoneLeastWear_taking
  | hotnessBased => exact hplace _ (allocateEmptyZoneHotnessBased_taking level)

end ZenFs.Device
