import ZenFs.Device.Matches
import ZenFs.Device.Openings

/-!
`AllocateIOZone` run in one go: when it answers `OK` without a zone.

A zone that was matched with a bad score is given back when enough zones are empty. The count
of empty zones has the ones that somebody else holds in it, so the search for an empty zone
that follows may find none.
-/

namespace ZenFs.Device

open Library Task Zbd Finset Nat

variable {P : Option ℕ → Prop} {best m : ℕ} {ioType : IOType} {kept zone : Option ℕ} {level : ℤ}
variable {o : Call} {policy : Policy} {u v : Zbd} {r : o.Res}
variable {e : Setup} {a : Holder} {h : Handle} {d t : Zbd}

/-! ### Finishing zones -/

/-- The zones `FinishCheapestIOZone` chooses from. -/
def Zbd.finishable (d : Zbd) (e : Setup) : Finset ℕ :=
  {z ∈ Finset.range e.nrZones | (d.zones z).busy = false ∧
    !((d.zones z).isEmpty (e.start z) || (d.zones z).isFull)}

/-- How many zones have to be finished until a token for an active zone is free. -/
def Zbd.tokensShort (d : Zbd) (e : Setup) : ℕ :=
  (d.activeIoZones - e.maxNrActiveIoZones + 1).toNat

/-- Zones can be finished until a token for an active zone is free: there are enough of them
and the backend finishes them. -/
structure Zbd.CanFreeToken (d : Zbd) (e : Setup) : Prop where
  zones : d.tokensShort e ≤ (d.finishable e).card
  backend : ∀ i < d.tokensShort e, (e.backend (d.backendCalls + i)).status.ok = true

/-- What finishing zones leaves alone. -/
structure Zbd.Settled (e : Setup) (d t : Zbd) : Prop where
  busy : ∀ z, (t.zones z).busy = (d.zones z).busy
  isEmpty : ∀ z, (t.zones z).isEmpty (e.start z) = (d.zones z).isEmpty (e.start z)
  capacity : ∀ z, (t.zones z).capacity = (d.zones z).capacity ∨
    (d.zones z).busy = false ∧ (t.zones z).capacity = 0 ∧
      (t.zones z).isEmpty (e.start z) = false
  zonePos : t.zonePos = d.zonePos
  bodies : t.bodies = d.bodies
  levelwise : t.locked .levelwiseFiles = d.locked .levelwiseFiles

theorem Zbd.settled_of_eq (hzones : t.zones = d.zones) (hpos : t.zonePos = d.zonePos)
    (hbodies : t.bodies = d.bodies)
    (hlock : t.locked .levelwiseFiles = d.locked .levelwiseFiles) : d.Settled e t :=
  ⟨fun _ => by rw [hzones], fun _ => by rw [hzones], fun _ => .inl (by rw [hzones]), hpos, hbodies,
    hlock⟩

theorem Zbd.settled_refl (e : Setup) (d : Zbd) : d.Settled e d :=
  settled_of_eq rfl rfl rfl rfl

theorem Zbd.Settled.trans {s : Zbd} (hs : d.Settled e s) (ht : s.Settled e t) :
    d.Settled e t where
  busy z := (ht.busy z).trans (hs.busy z)
  isEmpty z := (ht.isEmpty z).trans (hs.isEmpty z)
  capacity z := by
    rcases ht.capacity z with hsame | ⟨hfree, hfull, hdata⟩
    · rw [hsame, ht.isEmpty]
      exact hs.capacity z
    · exact .inr ⟨(hs.busy z).symm.trans hfree, hfull, hdata⟩
  zonePos := ht.zonePos.trans hs.zonePos
  bodies := ht.bodies.trans hs.bodies
  levelwise := ht.levelwise.trans hs.levelwise

theorem Zbd.Settled.opens_iff (h : d.Settled e t) (z : ℕ) : t.Opens e z ↔ d.Opens e z := by
  rw [Zbd.Opens, Zbd.Opens, h.busy, h.isEmpty]

theorem Zbd.Settled.leaves (h : d.Settled e t) : d.Leaves e none t :=
  ⟨fun y _ => h.busy y, nofun, h.isEmpty, h.capacity, fun hpos => h.zonePos ▸ hpos, h.levelwise⟩

variable {z : ℕ}

theorem Zbd.settled_finish (hfree : (d.zones z).busy = false)
    (hz : (d.zones z).isEmpty (e.start z) = false) : d.Settled e (d.finish e z).2 := by
  have hsize : 0 < e.zoneSize := (e.capacity_pos z).trans_le (e.capacity_le z)
  rw [Zbd.finish]
  split
  · exact settled_of_eq rfl rfl rfl rfl
  · refine ⟨fun y => ?_, fun y => ?_, fun y => ?_, rfl, rfl, rfl⟩ <;>
      by_cases hy : y = z
    · subst hy
      simp [Zbd.setZone]
    · simp [Zbd.setZone, Zbd.calledBackend, hy]
    · subst hy
      rw [hz]
      simp [Zbd.setZone, Zone.isEmpty, hsize.ne']
    · simp [Zbd.setZone, Zbd.calledBackend, hy]
    · subst hy
      simp [Zbd.setZone, Zone.isEmpty, hsize.ne', hfree]
    · simp [Zbd.setZone, Zbd.calledBackend, hy]

theorem Zbd.finish_hold (z : ℕ) : (d.hold a (some z)).finish e z =
    ((d.finish e z).1, (d.finish e z).2.hold a (some z)) := by
  have hanswer : (d.hold a (some z)).answer e = d.answer e := rfl
  rw [Zbd.finish, Zbd.finish, hanswer]
  split <;> simp [Zbd.hold, Zbd.calledBackend, Zbd.setZone]

theorem Zbd.finish_busy (hz : (d.zones z).busy = false) :
    ((d.finish e z).2.zones z).busy = false := by
  rw [Zbd.finish]
  split
  · exact hz
  · simpa [Zbd.setZone] using hz

theorem Zbd.mem_finishable : z ∈ d.finishable e ↔ z < e.nrZones ∧
    (d.zones z).busy = false ∧ (d.zones z).isEmpty (e.start z) = false ∧
      (d.zones z).isFull = false := by
  simp [finishable]

def Zbd.finishedOne (d : Zbd) (e : Setup) (z : ℕ) : Zbd :=
  { (d.finish e z).2 with activeIoZones := (d.finish e z).2.activeIoZones - 1 }

/-- How `FinishCheapestIOZone` ends. -/
inductive FinishesOne (e : Setup) (d : Zbd) : Status → Zbd → Prop
  | idle (hnone : d.finishable e = ∅) : FinishesOne e d .OK d
  | failed (z : ℕ) (hz : z ∈ d.finishable e) (herror : (d.answer e).status.ok = false) :
      FinishesOne e d (d.answer e).status d.calledBackend
  | finished (z : ℕ) (hz : z ∈ d.finishable e) (hok : (d.answer e).status.ok = true) :
      FinishesOne e d .OK (d.finishedOne e z)

theorem finishCheapestIOZone_finishes :
    (finishCheapestIOZone e a).Returns (exec e) d (FinishesOne e d) := by
  apply (cheapestZone_returns (k := (·.capacity)) (fun _ _ _ => rfl) (fun _ _ => rfl)
    (fun y z => by simp only [gt_iff_lt, decide_eq_true_eq]; split <;> omega) e.ioZones (by simp)).seq
  rintro ⟨_, victim⟩ t ⟨rfl, rfl, hfound, hcomplete, -⟩
  cases victim with
  | none =>
    refine .ret (.idle (eq_empty_of_forall_notMem fun z hz => ?_))
    obtain ⟨hlt, hfree, hempty, hfull⟩ := mem_finishable.mp hz
    have htest := (hcomplete rfl).2 z (List.mem_range.mpr hlt) hfree
    simp [hempty, hfull] at htest
  | some z =>
    obtain ⟨hmem, hfree, htest⟩ := hfound z rfl
    have hz : z ∈ d.finishable e :=
      mem_finishable.mpr ⟨by simpa [Setup.ioZones] using hmem, hfree, by simpa using htest⟩
    apply returns_call (o := .finish a z) (congrArg some (finish_hold z))
    apply returns_checkRelease (Zbd.release_hold (finish_busy hfree))
    cases hok : (d.answer e).status.ok with
    | false =>
      have hfinish : d.finish e z = ((d.answer e).status, d.calledBackend) := by
        rw [Zbd.finish, if_pos (by simp [hok])]
      rw [hfinish]
      rw [hok]
      exact .ret (.failed z hz hok)
    | true =>
      have hstatus : (d.finish e z).1 = .OK := by
        rw [Zbd.finish, if_neg (by simp [hok])]
      rw [hstatus]
      apply returns_call rfl
      exact .ret (.finished z hz hok)

section FinishedOne

variable (hz : z ∈ d.finishable e) (hok : (d.answer e).status.ok = true)

include hok

theorem finish_of_ok : d.finish e z = (.OK, d.calledBackend.setZone z { d.zones z with
    capacity := 0, wp := e.start z + e.zoneSize }) := by
  rw [Zbd.finish, if_neg (by simp [hok])]

theorem finishedOne_activeIoZones :
    (d.finishedOne e z).activeIoZones = d.activeIoZones - 1 := by
  rw [finishedOne, finish_of_ok hok]
  rfl

theorem finishedOne_backendCalls : (d.finishedOne e z).backendCalls = d.backendCalls + 1 := by
  rw [finishedOne, finish_of_ok hok]
  rfl

theorem finishedOne_zones : (d.finishedOne e z).zones = Function.update d.zones z
    { d.zones z with capacity := 0, wp := e.start z + e.zoneSize } := by
  rw [finishedOne, finish_of_ok hok]
  rfl

theorem finishedOne_finishable :
    (d.finishedOne e z).finishable e = (d.finishable e).erase z := by
  ext y
  rw [mem_erase, mem_finishable, mem_finishable, finishedOne_zones hok]
  by_cases hy : y = z
  · subst hy
    simp [Zone.isFull]
  · simp [hy]

theorem tokensShort_finishedOne (hshort : (e.maxNrActiveIoZones : ℤ) ≤ d.activeIoZones) :
    d.tokensShort e = (d.finishedOne e z).tokensShort e + 1 := by
  rw [tokensShort, tokensShort, finishedOne_activeIoZones hok]
  omega

include hz

theorem card_finishable_finishedOne :
    ((d.finishedOne e z).finishable e).card + 1 = (d.finishable e).card := by
  rw [finishedOne_finishable hok, card_erase_add_one hz]

omit hok in
theorem settled_finishedOne : d.Settled e (d.finishedOne e z) := by
  obtain ⟨-, hfree, hdata, -⟩ := mem_finishable.mp hz
  exact (settled_finish hfree hdata).trans (settled_of_eq rfl rfl rfl rfl)

theorem canFreeToken_finishedOne (hshort : (e.maxNrActiveIoZones : ℤ) ≤ d.activeIoZones) :
    (d.finishedOne e z).CanFreeToken e ↔ d.CanFreeToken e := by
  have htokens := tokensShort_finishedOne (z := z) hok hshort
  have hcard := card_finishable_finishedOne hz hok
  have hcalls := finishedOne_backendCalls (z := z) hok
  constructor
  · rintro ⟨hzones, hbackend⟩
    refine ⟨by omega, fun i hi => ?_⟩
    cases i with
    | zero => exact hok
    | succ i =>
      have h := hbackend i (by omega)
      rw [hcalls, add_assoc, add_comm 1 i] at h
      exact h
  · rintro ⟨hzones, hbackend⟩
    refine ⟨by omega, fun i hi => ?_⟩
    rw [hcalls, add_assoc, add_comm 1 i]
    exact hbackend (i + 1) (by omega)

end FinishedOne

/-! ### Waiting for a token -/

theorem getActiveIOZoneTokenIfAvailable_of_lt
    (hlt : d.activeIoZones < e.maxNrActiveIoZones) :
    exec e .getActiveIOZoneTokenIfAvailable d =
      some (true, { d with activeIoZones := d.activeIoZones + 1 }) := if_pos hlt

theorem getActiveIOZoneTokenIfAvailable_of_le
    (hle : (e.maxNrActiveIoZones : ℤ) ≤ d.activeIoZones) :
    exec e .getActiveIOZoneTokenIfAvailable d = some (false, d) := if_neg (not_lt.mpr hle)

theorem canFreeToken_of_lt (hlt : d.activeIoZones < e.maxNrActiveIoZones) : d.CanFreeToken e := by
  have hzero : d.tokensShort e = 0 := by
    rw [tokensShort]
    omega
  exact ⟨by omega, by omega⟩

variable {α : Type}

theorem ends_call {f : o.Res → DevTask α} {Q : α → Zbd → Prop}
    (hf : ∀ r t, exec e o d = some (r, t) → (f r).Ends (exec e) t Q) :
    (call o >>= f).Ends (exec e) d Q := Task.Ends.bind (Task.Ends.op hf)

theorem canFreeToken_setPlace (p : Placement) :
    (d.setPlace p).CanFreeToken e ↔ d.CanFreeToken e :=
  ⟨fun hfree => ⟨hfree.zones, hfree.backend⟩, fun hfree => ⟨hfree.zones, hfree.backend⟩⟩

theorem waitForActiveToken_ends (spins : ℕ) :
    (waitForActiveToken e a spins).Ends (exec e) d fun s t =>
      d.Settled e t ∧ (s.ok = true → d.CanFreeToken e) := by
  induction spins generalizing d with
  | zero => exact .call fun r => nomatch r
  | succ spins ih =>
    obtain hlt | hle := lt_or_ge d.activeIoZones (e.maxNrActiveIoZones : ℤ)
    · apply ends_call
      intro r t hr
      rw [getActiveIOZoneTokenIfAvailable_of_lt hlt] at hr
      cases hr
      exact .ret ⟨settled_of_eq rfl rfl rfl rfl, fun _ => canFreeToken_of_lt hlt⟩
    · apply ends_call
      intro r t hr
      rw [getActiveIOZoneTokenIfAvailable_of_le hle] at hr
      cases hr
      refine finishCheapestIOZone_finishes.ends.seq fun s t hs => ?_
      cases hs with
      | idle hnone => exact ih
      | failed z hz herror =>
        rw [herror]
        refine .ret ⟨settled_of_eq rfl rfl rfl rfl, fun hok => ?_⟩
        rw [hok] at herror
        cases herror
      | finished z hz hok =>
        refine (ih).mono fun s t hs => ?_
        exact ⟨(settled_finishedOne hz).trans hs.1,
          fun hok' => (canFreeToken_finishedOne hz hok hle).mp (hs.2 hok')⟩

theorem waitForActiveToken_frees (hfree : d.CanFreeToken e) :
    ∃ spins, (waitForActiveToken e a spins).Returns (exec e) d fun s _ => s = .OK := by
  induction hshort : d.tokensShort e generalizing d with
  | zero =>
    have hlt : d.activeIoZones < e.maxNrActiveIoZones := by
      rw [tokensShort] at hshort
      omega
    exact ⟨1, returns_call (getActiveIOZoneTokenIfAvailable_of_lt hlt) (.ret rfl)⟩
  | succ n ih =>
    have hle : (e.maxNrActiveIoZones : ℤ) ≤ d.activeIoZones := by
      rw [tokensShort] at hshort
      omega
    obtain ⟨s, t, hrun, hs⟩ := finishCheapestIOZone_finishes
    cases hs with
    | idle hnone =>
      have hzones := hfree.zones
      rw [hnone, card_empty] at hzones
      omega
    | failed z hz herror =>
      have hok : (d.answer e).status.ok = true := hfree.backend 0 (by omega)
      rw [hok] at herror
      cases herror
    | finished z hz hok =>
      have htokens := tokensShort_finishedOne (z := z) hok hle
      obtain ⟨spins, hspins⟩ :=
        ih ((canFreeToken_finishedOne hz hok hle).mpr hfree) (by omega)
      refine ⟨spins + 1, returns_call (getActiveIOZoneTokenIfAvailable_of_le hle) ?_⟩
      exact Task.Returns.bind ⟨.OK, _, hrun, hspins⟩

/-! ### Opening a new zone -/

/-- The task can answer `OK` with a result that satisfies `P`, for some number of rounds of its
loop. -/
def GivesWith (e : Setup) (d : Zbd) (m : ℕ → DevTask (Status × Option ℕ)) (P : Option ℕ → Prop) :
    Prop :=
  ∃ spins zone t, (m spins).run (exec e) d = some ((.OK, zone), t) ∧ P zone

theorem run_call_bind {f : o.Res → DevTask α}
    (hr : exec e o d = some (r, t)) : (call o >>= f).run (exec e) d = (f r).run (exec e) t := by
  rw [run_bind, call, op, run_call, hr]
  rfl

theorem run_call_bind_none {f : o.Res → DevTask α} (hr : exec e o d = none) :
    (call o >>= f).run (exec e) d = none := by
  rw [run_bind, call, op, run_call, hr]
  rfl

theorem Zbd.leaves_tag {lifetime : Lifetime} :
    d.Leaves e none (d.tag z lifetime policy level) := by
  have hzone (y : ℕ) : ∃ l p n, (d.tag z lifetime policy level).zones y =
      { d.zones y with lifetime := l, policy := p, level := n } := by
    by_cases hy : y = z
    · subst hy
      exact ⟨lifetime, policy, level, Function.update_self _ _ _⟩
    · exact ⟨_, _, _, Function.update_of_ne hy _ _⟩
  refine ⟨fun y _ => ?_, nofun, fun y => ?_, fun y => .inl ?_, id, rfl⟩ <;>
    obtain ⟨l, p, n, hy⟩ := hzone y <;> rw [hy]
  rfl

theorem openNewZone_taking (spins : ℕ) (lifetime : Lifetime)
    (hpos : 0 < e.nrZones → d.zonePos < e.nrZones) :
    Taking e d (openNewZone e a h spins lifetime true) := by
  apply (allocateEmptyZone_taking hpos).seq
  rintro ⟨_, zone⟩ t ⟨rfl, hfound, hcomplete, hleaves⟩
  cases zone with
  | none =>
    apply returns_call rfl
    apply returns_call rfl
    exact .ret ⟨rfl, hfound, hcomplete, hleaves.andThen (leaves_of_eq rfl id rfl)⟩
  | some z =>
    apply returns_look
    apply returns_call rfl
    exact .ret ⟨rfl, hfound, hcomplete, hleaves.andThen (leaves_tag)⟩

/-- Once it has waited for a token, the function goes on as if it had had one before. -/
theorem openNewZone_run_false (spins : ℕ) (lifetime : Lifetime) :
    (openNewZone e a h spins lifetime false).run (exec e) d =
      ((waitForActiveToken e a spins).run (exec e) d).bind fun r =>
        if r.1.ok then (openNewZone e a h spins lifetime true).run (exec e) r.2
        else some ((r.1, none), { r.2 with openIoZones := r.2.openIoZones - 1 }) := by
  rw [openNewZone, run_bind]
  congr 1
  funext r
  cases r.1.ok <;> rfl

/-- How the search for a new zone ends, once it is known that no open zone is used. -/
structure Renewed (e : Setup) (d : Zbd) (r : Status × Option ℕ) (t : Zbd) : Prop where
  status : r.2 ≠ none → r.1 = .OK
  leaves : d.Leaves e r.2 t
  found : ∀ z, r.2 = some z → d.Opens e z
  token : r.1 = .OK → d.CanFreeToken e
  complete : r.1 = .OK → r.2 = none → ∀ z, ¬ d.Opens e z

theorem reconsider_none_ends (spins : ℕ) (lifetime : Lifetime) (best : ℕ)
    (hpos : 0 < e.nrZones → d.zonePos < e.nrZones) :
    (reconsider e a h spins lifetime best none).Ends (exec e) d (Renewed e d) := by
  intro r t hrun
  obtain hlt | hle := lt_or_ge d.activeIoZones (e.maxNrActiveIoZones : ℤ)
  · let u : Zbd := { d with activeIoZones := d.activeIoZones + 1 }
    have hopen : (openNewZone e a h spins lifetime true).run (exec e) u = some (r, t) :=
      (run_call_bind (getActiveIOZoneTokenIfAvailable_of_lt hlt)).symm.trans hrun
    have htaken := (openNewZone_taking (d := u) spins lifetime hpos).ends _ t hopen
    have hu : d.Leaves e none u := leaves_of_eq rfl id rfl
    exact ⟨fun _ => htaken.ok, hu.trans htaken.leaves, htaken.found,
      fun _ => canFreeToken_of_lt hlt, fun _ => htaken.complete⟩
  · have hopen : (openNewZone e a h spins lifetime false).run (exec e) d = some (r, t) :=
      (run_call_bind (getActiveIOZoneTokenIfAvailable_of_le hle)).symm.trans hrun
    rw [openNewZone_run_false] at hopen
    obtain ⟨⟨s, u⟩, hwait, hopen⟩ := Option.bind_eq_some_iff.mp hopen
    obtain ⟨hsettled, hfree⟩ := waitForActiveToken_ends spins s u hwait
    cases hok : s.ok with
    | false =>
      simp only [hok] at hopen
      cases hopen
      have hs : s ≠ .OK := fun hs => by rw [hs] at hok; cases hok
      exact ⟨fun h => absurd rfl h, hsettled.leaves.andThen (leaves_of_eq rfl id rfl), nofun,
        fun h => absurd h hs, fun h => absurd h hs⟩
    | true =>
      simp only [hok] at hopen
      have htaken :=
        (openNewZone_taking spins lifetime (hsettled.zonePos ▸ hpos)).ends _ t hopen
      exact ⟨fun _ => htaken.ok, hsettled.leaves.trans htaken.leaves,
        fun z hz => (hsettled.opens_iff z).mp (htaken.found z hz), fun _ => hfree hok,
        fun _ hnone z hz => htaken.complete hnone z ((hsettled.opens_iff z).mpr hz)⟩

theorem reconsider_none_returns (lifetime : Lifetime) (best : ℕ)
    (hpos : 0 < e.nrZones → d.zonePos < e.nrZones) (hfree : d.CanFreeToken e) :
    ∃ spins zone t, (reconsider e a h spins lifetime best none).run (exec e) d =
      some ((.OK, zone), t) := by
  obtain hlt | hle := lt_or_ge d.activeIoZones (e.maxNrActiveIoZones : ℤ)
  · let u : Zbd := { d with activeIoZones := d.activeIoZones + 1 }
    obtain ⟨⟨s, zone⟩, t, hrun, rfl, -⟩ :=
      openNewZone_taking (d := u) 0 lifetime hpos
    exact ⟨0, zone, t, (run_call_bind (getActiveIOZoneTokenIfAvailable_of_lt hlt)).trans hrun⟩
  · obtain ⟨spins, s, u, hwait, rfl⟩ := waitForActiveToken_frees hfree
    obtain ⟨hsettled, -⟩ := waitForActiveToken_ends spins _ u hwait
    obtain ⟨⟨s, zone⟩, t, hrun, rfl, -⟩ :=
      openNewZone_taking spins lifetime (hsettled.zonePos ▸ hpos)
    refine ⟨spins, zone, t, (run_call_bind (getActiveIOZoneTokenIfAvailable_of_le hle)).trans ?_⟩
    rw [openNewZone_run_false, hwait]
    exact hrun

theorem reconsider_none_null_iff (lifetime : Lifetime) (best : ℕ)
    (hpos : 0 < e.nrZones → d.zonePos < e.nrZones) :
    GivesWith e d (reconsider e a h · lifetime best none) (· = none) ↔
      d.CanFreeToken e ∧ ∀ z, ¬ d.Opens e z := by
  constructor
  · rintro ⟨spins, zone, t, hrun, hzone⟩
    have hends := reconsider_none_ends spins lifetime best hpos _ t hrun
    exact ⟨hends.token rfl, hends.complete rfl hzone⟩
  · rintro ⟨hfree, hnone⟩
    obtain ⟨spins, zone, t, hrun⟩ :=
      reconsider_none_returns lifetime best hpos hfree
    have hends := reconsider_none_ends spins lifetime best hpos _ t hrun
    refine ⟨spins, zone, t, hrun, ?_⟩
    cases zone with
    | none => rfl
    | some z => exact absurd (hends.found z rfl) (hnone z)

/-! ### Giving a matched zone back -/

theorem getEmptyZoneCount_hold :
    (d.hold a kept).getEmptyZoneCount e = d.getEmptyZoneCount e := by
  simp only [getEmptyZoneCount, hold_isEmpty]

/-- What happens to a zone that was matched with a bad score, once it is known whether there
is a token. -/
def keepOrGiveBack (e : Setup) (a : Holder) (h : Handle) (spins : ℕ) (lifetime : Lifetime)
    (best z : ℕ) (gotToken : Bool) : DevTask (Status × Option ℕ) := do
  if !gotToken && best = lifetimeDiffCouldBeWorse then return (.OK, some z)
  else if (← look).getEmptyZoneCount e > e.reserveZoneCount then
    let s ← checkRelease e a z
    if !s.ok then
      putOpenIOZoneToken
      if gotToken then putActiveIOZoneToken
      return (s, none)
    else openNewZone e a h spins lifetime gotToken
  else
    if gotToken then putActiveIOZoneToken
    return (.OK, some z)

section GiveBack

variable (lifetime : Lifetime) (gotToken : Bool)

theorem keepOrGiveBack_keeps (spins : ℕ)
    (hkeep : (gotToken = false ∧ best = lifetimeDiffCouldBeWorse) ∨
      d.getEmptyZoneCount e ≤ e.reserveZoneCount) :
    (keepOrGiveBack e a h spins lifetime best z gotToken).Returns (exec e) d
      fun r t => r = (.OK, some z) ∧ d.Leaves e none t := by
  rw [keepOrGiveBack]
  split
  · exact .ret ⟨rfl, d.leaves_refl e⟩
  · next hnot =>
    have hcount : ¬ d.getEmptyZoneCount e > e.reserveZoneCount := by
      obtain hkeep | hcount := hkeep
      · simp [hkeep] at hnot
      · omega
    apply returns_look
    rw [if_neg hcount]
    cases gotToken with
    | false => exact .ret ⟨rfl, d.leaves_refl e⟩
    | true =>
      apply returns_call rfl
      exact .ret ⟨rfl, leaves_of_eq rfl id rfl⟩

theorem keepOrGiveBack_givesBack (spins : ℕ) (hz : (d.zones z).busy = false)
    (hnot : ¬ (gotToken = false ∧ best = lifetimeDiffCouldBeWorse))
    (hcount : e.reserveZoneCount < d.getEmptyZoneCount e) :
    (keepOrGiveBack e a h spins lifetime best z gotToken).run (exec e) (d.hold a (some z)) =
      (openNewZone e a h spins lifetime gotToken).run (exec e) d := by
  have hneg : ¬ (!gotToken && decide (best = lifetimeDiffCouldBeWorse)) = true := by
    simpa using hnot
  have hheld : (d.hold a (some z)).getEmptyZoneCount e > e.reserveZoneCount := by
    rw [getEmptyZoneCount_hold]
    exact hcount
  rw [keepOrGiveBack, if_neg hneg, run_bind, look_run, Option.bind_some, if_pos hheld, run_bind,
    checkRelease_run (Zbd.release_hold hz)]
  rfl

def KeepsMatch (e : Setup) (d : Zbd) (best : ℕ) : Prop :=
  ((e.maxNrActiveIoZones : ℤ) ≤ d.activeIoZones ∧ best = lifetimeDiffCouldBeWorse) ∨
    d.getEmptyZoneCount e ≤ e.reserveZoneCount

variable (best e a h) in
/-- A matched zone is kept, or it is given back and the search for a new zone goes on as if none
had been matched. -/
theorem reconsider_some_run (hz : (d.zones z).busy = false) (spins : ℕ) :
    (KeepsMatch e d best ∧ ∃ t, (reconsider e a h spins lifetime best (some z)).run (exec e)
        (d.hold a (some z)) = some ((.OK, some z), t) ∧ d.Leaves e (some z) t ∧
          (t.zones z).capacity = (d.zones z).capacity) ∨
      ¬ KeepsMatch e d best ∧
        (reconsider e a h spins lifetime best (some z)).run (exec e) (d.hold a (some z)) =
          (reconsider e a h spins lifetime best none).run (exec e) d := by
  -- once the token is asked for, both ways go on with the same answer
  obtain ⟨got, u, hgot, hactive, hzones, hleaves⟩ : ∃ (got : Bool) (u : Zbd),
      (∀ kept, exec e .getActiveIOZoneTokenIfAvailable (d.hold a kept) =
        some (got, u.hold a kept)) ∧
      (got = false ↔ (e.maxNrActiveIoZones : ℤ) ≤ d.activeIoZones) ∧
      u.zones = d.zones ∧ d.Leaves e none u := by
    obtain hlt | hle := lt_or_ge d.activeIoZones (e.maxNrActiveIoZones : ℤ)
    · refine ⟨true, { d with activeIoZones := d.activeIoZones + 1 }, fun kept => ?_,
        iff_of_false nofun (not_le.mpr hlt), rfl, leaves_of_eq rfl id rfl⟩
      cases kept <;> exact getActiveIOZoneTokenIfAvailable_of_lt hlt
    · refine ⟨false, d, fun kept => ?_, iff_of_true rfl hle, rfl, d.leaves_refl e⟩
      cases kept <;> exact getActiveIOZoneTokenIfAvailable_of_le hle
  have hsome : (reconsider e a h spins lifetime best (some z)).run (exec e) (d.hold a (some z)) =
      (keepOrGiveBack e a h spins lifetime best z got).run (exec e) (u.hold a (some z)) :=
    run_call_bind (hgot (some z))
  have hnone : (reconsider e a h spins lifetime best none).run (exec e) d =
      (openNewZone e a h spins lifetime got).run (exec e) u := run_call_bind (hgot none)
  have hfree : (u.zones z).busy = false := by rw [hzones, hz]
  have hcount : u.getEmptyZoneCount e = d.getEmptyZoneCount e := by
    rw [getEmptyZoneCount, getEmptyZoneCount, hzones]
  rw [KeepsMatch, ← hactive, ← hcount, hsome, hnone]
  by_cases hkeep : (got = false ∧ best = lifetimeDiffCouldBeWorse) ∨
      u.getEmptyZoneCount e ≤ e.reserveZoneCount
  · have hheld : (got = false ∧ best = lifetimeDiffCouldBeWorse) ∨
        (u.hold a (some z)).getEmptyZoneCount e ≤ e.reserveZoneCount := by
      rw [getEmptyZoneCount_hold]
      exact hkeep
    obtain ⟨_, t, hrun, rfl, hkept⟩ :=
      keepOrGiveBack_keeps (a := a) (h := h) (z := z) lifetime got spins hheld
    refine .inl ⟨hkeep, t, hrun, hleaves.trans ((leaves_hold).andThen hkept), ?_⟩
    rcases hkept.capacity z with hsame | ⟨hnot, -⟩
    · rw [hsame, Zbd.hold_zones_self, hzones]
    · rw [Zbd.hold_zones_self] at hnot
      cases hnot
  · obtain ⟨hnot, hlt⟩ := not_or.mp hkeep
    exact .inr ⟨hkeep, keepOrGiveBack_givesBack lifetime got spins hfree hnot (not_le.mp hlt)⟩

theorem reconsider_some_gives_iff (hP : ¬ P (some z))
    (hz : (d.zones z).busy = false) :
    GivesWith e (d.hold a (some z)) (reconsider e a h · lifetime best (some z)) P ↔
      ¬ KeepsMatch e d best ∧ GivesWith e d (reconsider e a h · lifetime best none) P := by
  constructor
  · rintro ⟨spins, zone, t, hrun, hzone⟩
    obtain ⟨-, u, hkept, -⟩ | ⟨hnot, hback⟩ :=
      reconsider_some_run best e a h lifetime hz spins
    · rw [hkept] at hrun
      cases hrun
      exact absurd hzone hP
    · exact ⟨hnot, spins, zone, t, hback.symm.trans hrun, hzone⟩
  · rintro ⟨hnot, spins, zone, t, hrun, hzone⟩
    obtain ⟨hkeep, -⟩ | ⟨-, hback⟩ :=
      reconsider_some_run best e a h lifetime hz spins
    · exact absurd hkeep hnot
    · exact ⟨spins, zone, t, hback.trans hrun, hzone⟩

end GiveBack

/-! ### Before the match -/

theorem ends_acquire {f : Bool → DevTask α} {Q : α → Zbd → Prop}
    (hbusy : (d.zones z).busy = true → (f false).Ends (exec e) d Q)
    (hfree : (d.zones z).busy = false → (f true).Ends (exec e) (d.hold a (some z)) Q) :
    (acquire a z >>= f).Ends (exec e) d Q := by
  apply ends_call
  intro r t hr
  cases hb : (d.zones z).busy with
  | true =>
    cases (Option.some.inj hr).symm.trans (Zbd.acquire_of_busy hb)
    exact hbusy hb
  | false =>
    cases (Option.some.inj hr).symm.trans (Zbd.acquire_of_free hb)
    exact hfree hb

theorem ends_checkRelease {f : Status → DevTask α} {Q : α → Zbd → Prop}
    (hrelease : d.release a z = (true, t)) (hf : (f .OK).Ends (exec e) t Q) :
    (checkRelease e a z >>= f).Ends (exec e) d Q := by
  have hreturns : (checkRelease e a z).Returns (exec e) d fun s u => s = .OK ∧ u = t :=
    ⟨_, _, checkRelease_run hrelease, rfl, rfl⟩
  refine hreturns.ends.seq ?_
  rintro _ _ ⟨rfl, rfl⟩
  exact hf

theorem finishBelowThreshold_settled (l : List ℕ) :
    (finishBelowThreshold e a l).Ends (exec e) d fun _ t => d.Settled e t := by
  induction l generalizing d with
  | nil => exact .ret (d.settled_refl e)
  | cons z rest ih =>
    refine ends_acquire (fun _ => ih) fun hfree => ends_call ?_
    rintro _ _ ⟨⟩
    dsimp only
    rw [hold_isEmpty]
    split
    · next hfinish =>
      have hdata : (d.zones z).isEmpty (e.start z) = false := by
        simp only [Bool.and_eq_true, Bool.not_eq_true', Bool.or_eq_false_iff] at hfinish
        exact hfinish.1.1
      have hsettled : d.Settled e (d.finish e z).2 := settled_finish hfree hdata
      have hback : ((d.finish e z).2.hold a (some z)).release a z = (true, (d.finish e z).2) :=
        Zbd.release_hold (finish_busy hfree)
      refine ends_call fun s t hs => ?_
      cases (Option.some.inj hs).symm.trans (finish_hold z)
      split
      · refine ends_call fun r u hr => ?_
        cases (Option.some.inj hr).symm.trans hback
        exact .ret hsettled
      · refine ends_checkRelease hback (ends_call ?_)
        rintro _ _ ⟨⟩
        have hfreed : d.Settled e (d.finishedOne e z) :=
          hsettled.trans (settled_of_eq rfl rfl rfl rfl)
        exact ih.mono fun _ t ht => hfreed.trans ht
    · exact ends_checkRelease (Zbd.release_hold hfree) ih

def Zbd.Finishes (d : Zbd) (e : Setup) (z : ℕ) : Prop :=
  (d.zones z).busy = false ∧ (d.zones z).isEmpty (e.start z) = false ∧
    (d.zones z).isFull = false ∧ (d.zones z).capacity < (d.zones z).maxCapacity * e.finishThreshold / 100

/-- It finishes these zones and changes no other one. -/
theorem finishBelowThreshold_zones (l : List ℕ) :
    (finishBelowThreshold e a l).Ends (exec e) d fun s t => s.ok = true → ∀ z,
      (¬ d.Finishes e z → t.zones z = d.zones z) ∧
        (z ∈ l → d.Finishes e z → (t.zones z).isFull = true) := by
  induction l generalizing d with
  | nil => exact .ret fun _ z => ⟨fun _ => rfl, nofun⟩
  | cons y rest ih =>
    -- A zone that is not finished now is left to the rest of the loop.
    have hskip (hy : ¬ d.Finishes e y) : (finishBelowThreshold e a rest).Ends (exec e) d fun s t =>
        s.ok = true → ∀ z, (¬ d.Finishes e z → t.zones z = d.zones z) ∧
          (z ∈ y :: rest → d.Finishes e z → (t.zones z).isFull = true) := by
      refine ih.mono fun s t ht hok z => ⟨(ht hok z).1, fun hz hfinish => ?_⟩
      rcases List.mem_cons.mp hz with rfl | hz
      · exact absurd hfinish hy
      · exact (ht hok z).2 hz hfinish
    refine ends_acquire (fun hbusy => hskip fun hy => by simp [hy.1] at hbusy) fun hfree =>
      ends_call ?_
    rintro _ _ ⟨⟩
    obtain ⟨b, hb⟩ := (d.alike_refl.hold a (some y)).zones y
    dsimp only
    rw [hb]
    split
    · next hfinish =>
      have hback : ((d.finish e y).2.hold a (some y)).release a y = (true, (d.finish e y).2) :=
        Zbd.release_hold (finish_busy hfree)
      refine ends_call fun s t hs => ?_
      cases (Option.some.inj hs).symm.trans (finish_hold y)
      split
      · next herr =>
        refine ends_call fun r u hr => .ret fun hok => ?_
        simp [hok] at herr
      · next hfinished =>
        have hzones : (d.finishedOne e y).zones = Function.update d.zones y
            { d.zones y with capacity := 0, wp := e.start y + e.zoneSize } := by
          apply finishedOne_zones
          by_contra herror
          rw [Zbd.finish, if_pos (by simpa using herror)] at hfinished
          exact herror (by simpa using hfinished)
        have hfull : ((d.finishedOne e y).zones y).isFull = true := by simp [hzones, Zone.isFull]
        have hdone : ¬ (d.finishedOne e y).Finishes e y := fun hy => by
          rw [hy.2.2.1] at hfull
          cases hfull
        have hother {z : ℕ} (hz : z ≠ y) : (d.finishedOne e y).zones z = d.zones z := by
          rw [hzones, Function.update_of_ne hz]
        have hfinishes : d.Finishes e y := by
          simp only [Bool.and_eq_true, Bool.not_eq_true', Bool.or_eq_false_iff,
            decide_eq_true_eq] at hfinish
          exact ⟨hfree, hfinish.1.1, hfinish.1.2, hfinish.2⟩
        refine ends_checkRelease hback (ends_call ?_)
        rintro _ _ ⟨⟩
        refine (ih (d := d.finishedOne e y)).mono fun s t ht hok z => ?_
        by_cases hz : z = y
        · subst hz
          refine ⟨fun hnot => absurd hfinishes hnot, fun _ _ => ?_⟩
          rw [(ht hok z).1 hdone]
          exact hfull
        · have hsame : (d.finishedOne e y).Finishes e z ↔ d.Finishes e z := by
            rw [Zbd.Finishes, Zbd.Finishes, hother hz]
          rw [← hother hz, ← hsame]
          refine ⟨(ht hok z).1, fun hmem => (ht hok z).2 ?_⟩
          exact (List.mem_cons.mp hmem).resolve_left hz
    · next hnot =>
      refine ends_checkRelease (Zbd.release_hold hfree) (hskip fun hy => hnot ?_)
      simp only [Bool.and_eq_true, Bool.not_eq_true', Bool.or_eq_false_iff, decide_eq_true_eq]
      exact ⟨⟨hy.2.1, hy.2.2.1⟩, hy.2.2.2⟩

/-- The part of `AllocateIOZone` before `GetBestOpenZoneMatch`. -/
def readyToMatch (e : Setup) (a : Holder) (h : Handle) (ioType : IOType) : DevTask Status := do
  place fun d => d.place.raiseMaxLevel (d.place.info h).level
  let deferred := (← look).deferredStatus
  if !deferred.ok then return deferred
  else
    let s ← (if ioType ≠ .wal then applyFinishThreshold e a else pure .OK)
    if !s.ok then return s
    else
      call (.waitForOpenIOZoneToken (ioType = .wal))
      return .OK

theorem readyToMatch_settled (ioType : IOType) :
    (readyToMatch e a h ioType).Ends (exec e) d fun _ t => d.Settled e t := by
  have hfinish (u : Zbd) : (if ioType ≠ .wal then applyFinishThreshold e a else pure .OK).Ends
      (exec e) u fun _ t => u.Settled e t := by
    split
    · rw [applyFinishThreshold]
      split
      · exact .ret (u.settled_refl e)
      · exact finishBelowThreshold_settled e.ioZones
    · exact .ret (u.settled_refl e)
  let u : Zbd := d.setPlace (d.place.raiseMaxLevel (d.place.info h).level)
  have hu : d.Settled e u := settled_of_eq rfl rfl rfl rfl
  refine ends_call ?_
  rintro _ _ ⟨⟩
  refine ends_call ?_
  rintro _ _ ⟨⟩
  dsimp only
  split
  · exact .ret hu
  · refine (hfinish u).seq fun s t ht => ?_
    split
    · exact .ret (hu.trans ht)
    · refine ends_call fun r v hv => ?_
      obtain ⟨-, hv⟩ := Option.ite_none_right_eq_some.mp hv
      cases hv
      exact .ret ((hu.trans ht).trans (settled_of_eq rfl rfl rfl rfl))

/-- Before a match only zones below the threshold change: they are finished. -/
theorem readyToMatch_zones (ioType : IOType) :
    (readyToMatch e a h ioType).Ends (exec e) d fun s t => s.ok = true → ∀ z,
      (ioType = .wal ∨ ¬ d.Finishes e z → t.zones z = d.zones z) ∧
        (z ∈ e.ioZones → ioType ≠ .wal → d.Finishes e z → (t.zones z).isFull = true) := by
  have hfinish (u : Zbd) : (if ioType ≠ .wal then applyFinishThreshold e a else pure .OK).Ends
      (exec e) u fun s t => s.ok = true → ∀ z,
        (ioType = .wal ∨ ¬ u.Finishes e z → t.zones z = u.zones z) ∧
          (z ∈ e.ioZones → ioType ≠ .wal → u.Finishes e z → (t.zones z).isFull = true) := by
    split
    · next hwal =>
      rw [applyFinishThreshold]
      split
      · next hzero =>
        refine .ret fun _ z => ⟨fun _ => rfl, fun _ _ hz => ?_⟩
        have hlt := hz.2.2.2
        rw [hzero, Nat.mul_zero, Nat.zero_div] at hlt
        exact absurd hlt (Nat.not_lt_zero _)
      · refine (finishBelowThreshold_zones e.ioZones).mono fun s t ht hok z => ?_
        exact ⟨fun hz => (ht hok z).1 (hz.resolve_left hwal), fun hz _ => (ht hok z).2 hz⟩
    · next hwal => exact .ret fun _ z => ⟨fun _ => rfl, fun _ hz => absurd hz hwal⟩
  refine ends_call ?_
  rintro _ _ ⟨⟩
  refine ends_call ?_
  rintro _ _ ⟨⟩
  dsimp only
  split
  · next hdeferred => exact .ret fun hok => by simp [hok] at hdeferred
  · refine (hfinish _).seq fun s t ht => ?_
    split
    · next herror => exact .ret fun hok => by simp [hok] at herror
    · next hok =>
      refine ends_call fun r v hv => ?_
      obtain ⟨-, hv⟩ := Option.ite_none_right_eq_some.mp hv
      cases hv
      exact .ret fun _ => ht (by simpa using hok)

/-! ### The match -/

theorem matchBy_ends {n : ℕ} (lifetime : Lifetime) (best : ℕ)
    (hfree : d.locked .levelwiseFiles = false) (hd : OnIoZones e d) :
    (matchBy e a h policy lifetime best none n).Ends (exec e) d fun r t =>
      r.1 = .OK ∧ Found e a n d r.2.2 t := by
  by_cases hpolicy : policy.implemented = true
  · exact (matchBy_finding hpolicy lifetime best hfree hd).ends
  · cases policy <;> first | exact absurd rfl hpolicy | exact .call fun r => nomatch r

/-- Whatever the policies are: if `GetBestOpenZoneMatch` returns for a file of the lists, then with
a zone that was free and can take the data, or with a bad score because there is none. -/
theorem getBestOpenZoneMatch_listed_ends (lifetime : Lifetime) (best n : ℕ)
    (hlisted : (d.place.info h).listed = true) (hfree : d.locked .levelwiseFiles = false)
    (hd : OnIoZones e d) :
    (getBestOpenZoneMatch e a h lifetime best n).Ends (exec e) d fun r t =>
      r.1 = .OK ∧ Found e a n d r.2.2 t ∧
        (r.2.2 = none → lifetimeDiffCouldBeWorse ≤ r.2.1 ∧ ∀ z, ¬ d.Offers e n z) := by
  refine ends_call ?_
  rintro _ _ ⟨⟩
  dsimp only
  rw [hlisted]
  refine (matchBy_ends lifetime best hfree hd).seq ?_
  rintro ⟨_, best, zone⟩ t ⟨rfl, hfound⟩
  cases zone with
  | some z => exact .ret ⟨rfl, hfound, nofun⟩
  | none =>
    obtain ⟨p, rfl⟩ := hfound.device
    refine (matchBy_ends (d := d.setPlace p) lifetime best hfree hd).seq ?_
    rintro ⟨_, best, zone⟩ t ⟨rfl, hfound⟩
    refine ends_call ?_
    rintro _ _ ⟨⟩
    cases zone with
    | some z => exact .ret ⟨rfl, hfound.of_setPlace, nofun⟩
    | none =>
      obtain ⟨q, rfl⟩ := hfound.device
      refine (matchLifetimeBased_finding lifetime _ none).ends.seq ?_
      rintro ⟨_, best, zone⟩ t ⟨⟨rfl, hfound⟩, hnone⟩
      exact .ret ⟨rfl, hfound.of_setPlace.of_setPlace,
        fun hzone => ⟨le_max_left _ _, (hnone hzone).1⟩⟩

theorem getBestOpenZoneMatch_ends (lifetime : Lifetime) {n : ℕ}
    (hfree : d.locked .levelwiseFiles = false) (hd : OnIoZones e d) :
    (getBestOpenZoneMatch e a h lifetime best n).Ends (exec e) d fun r t =>
      r.1 = .OK ∧ Found e a (if (d.place.info h).listed then n else 0) d r.2.2 t ∧
        (r.2.2 = none → lifetimeDiffCouldBeWorse ≤ r.2.1 ∧
          ∀ z, ¬ d.Offers e (if (d.place.info h).listed then n else 0) z) := by
  cases hlisted : (d.place.info h).listed with
  | true => exact getBestOpenZoneMatch_listed_ends lifetime best n hlisted hfree hd
  | false =>
    refine ends_call ?_
    rintro _ _ ⟨⟩
    dsimp only
    rw [hlisted]
    refine (matchLifetimeBased_finding lifetime best none).ends.mono ?_
    rintro ⟨_, score, zone⟩ t ⟨⟨rfl, hfound⟩, hnone⟩
    refine ⟨rfl, hfound, fun hzone => ⟨?_, (hnone hzone).1⟩⟩
    rw [(hnone hzone).2]
    decide

def Setup.minCapacity (e : Setup) (f : FileInfo) : ℕ :=
  if e.fragmentationEnabled || !f.listed then 0 else f.allocSize % 2 ^ 32

def matchForFile (e : Setup) (a : Holder) (h : Handle) (lifetime : Lifetime) : DevTask Match := do
  let allocSize := ((← look).place.info h).allocSize % 2 ^ 32
  getBestOpenZoneMatch e a h lifetime lifetimeDiffNotGood
    (if e.fragmentationEnabled then 0 else allocSize)

def afterMatch (e : Setup) (a : Holder) (h : Handle) (spins : ℕ) (lifetime : Lifetime) :
    Match → DevTask (Status × Option ℕ)
  | (s, best, zone) => do
    if !s.ok then
      putOpenIOZoneToken
      return (s, none)
    else if best ≥ lifetimeDiffCouldBeWorse then reconsider e a h spins lifetime best zone
    else
      if zone.isNone then putOpenIOZoneToken
      return (.OK, zone)

theorem allocateIOZoneLocked_eq (spins : ℕ) (lifetime : Lifetime) (ioType : IOType) :
    allocateIOZoneLocked e a h spins lifetime ioType = (do
      let s ← readyToMatch e a h ioType
      if !s.ok then return (s, none)
      else matchForFile e a h lifetime >>= afterMatch e a h spins lifetime) := by
  rw [allocateIOZoneLocked, readyToMatch, bind_assoc]
  congr 1
  funext _
  rw [bind_assoc]
  congr 1
  funext d
  have herror : (!false) = true := rfl
  have hok : ¬ (!true) = true := by decide
  cases hdeferred : d.deferredStatus.ok with
  | false =>
    dsimp only
    rw [hdeferred, if_pos herror, if_pos herror, pure_bind, hdeferred, if_pos herror]
  | true =>
    dsimp only
    rw [hdeferred, if_neg hok, if_neg hok, bind_assoc]
    congr 1
    funext s
    cases hs : s.ok with
    | false => rw [if_pos herror, if_pos herror, pure_bind, hs, if_pos herror]
    | true => rfl

/-! ### AllocateIOZone -/

/-- The call gets to `GetBestOpenZoneMatch`, with the device as `t`. -/
def ComesToMatch (e : Setup) (a : Holder) (h : Handle) (ioType : IOType) (d t : Zbd) : Prop :=
  d.locked .alloc = false ∧ ∃ s, s.ok = true ∧
    (readyToMatch e a h ioType).run (exec e) (d.setLocked .alloc true) = some (s, t)

def MatchesZone (e : Setup) (a : Holder) (h : Handle) (lifetime : Lifetime) (t : Zbd)
    (best z : ℕ) : Prop :=
  ∃ u, (matchForFile e a h lifetime).run (exec e) t = some ((.OK, best, some z), u)

theorem allocateIOZone_run (spins : ℕ) (lifetime : Lifetime) (ioType : IOType)
    (hlock : d.locked .alloc = false) :
    (allocateIOZone e a h spins lifetime ioType).run (exec e) d =
      ((allocateIOZoneLocked e a h spins lifetime ioType).run (exec e)
        (d.setLocked .alloc true)).bind fun r => some (r.1, r.2.setLocked .alloc false) := by
  have hexec : exec e (.lock .alloc) d = some ((), d.setLocked .alloc true) :=
    if_neg (by simp [hlock])
  refine (run_call_bind hexec).trans ?_
  rw [run_bind]
  rfl

/-- The call as its three parts: what comes before the match, the match, and what is made of
it. -/
theorem allocateIOZone_run_iff (spins : ℕ) (lifetime : Lifetime) (ioType : IOType) :
    (allocateIOZone e a h spins lifetime ioType).run (exec e) d = some ((.OK, zone), v) ↔
      ∃ t, ComesToMatch e a h ioType d t ∧
        ∃ r u, (matchForFile e a h lifetime).run (exec e) t = some (r, u) ∧
          ∃ w, (afterMatch e a h spins lifetime r).run (exec e) u = some ((.OK, zone), w) ∧
            v = w.setLocked .alloc false := by
  cases hlock : d.locked .alloc with
  | true =>
    have hexec : exec e (.lock .alloc) d = none := if_pos hlock
    have hrun : (allocateIOZone e a h spins lifetime ioType).run (exec e) d = none :=
      run_call_bind_none hexec
    simp [hrun, ComesToMatch, hlock]
  | false =>
    rw [allocateIOZone_run spins lifetime ioType hlock, allocateIOZoneLocked_eq, run_bind]
    constructor
    · intro hrun
      obtain ⟨⟨r, w⟩, hbody, hv⟩ := Option.bind_eq_some_iff.mp hrun
      cases hv
      obtain ⟨⟨s, t⟩, hs, hrun⟩ := Option.bind_eq_some_iff.mp hbody
      cases hok : s.ok with
      | false =>
        simp only [hok, Bool.not_false, if_true, pure_eq, run_ret, Option.some.injEq,
          Prod.mk.injEq] at hrun
        rw [hrun.1.1] at hok
        cases hok
      | true =>
        simp only [hok, Bool.not_true, Bool.false_eq_true, if_false, run_bind] at hrun
        obtain ⟨⟨r, u⟩, hr, hrun⟩ := Option.bind_eq_some_iff.mp hrun
        exact ⟨t, ⟨hlock, s, hok, hs⟩, r, u, hr, w, hrun, rfl⟩
    · rintro ⟨t, ⟨-, s, hok, hs⟩, r, u, hr, w, hrun, rfl⟩
      rw [hs]
      simp only [Option.bind_some, hok, Bool.not_true, Bool.false_eq_true, if_false]
      rw [run_bind, hr]
      simp only [Option.bind_some, hrun]

theorem allocateIOZone_gives_iff_match (lifetime : Lifetime) (ioType : IOType)
    (P : Option ℕ → Prop) :
    GivesWith e d (allocateIOZone e a h · lifetime ioType) P ↔
      ∃ t, ComesToMatch e a h ioType d t ∧
        ∃ r u, (matchForFile e a h lifetime).run (exec e) t = some (r, u) ∧
          GivesWith e u (afterMatch e a h · lifetime r) P := by
  simp only [GivesWith, allocateIOZone_run_iff]
  constructor
  · rintro ⟨spins, zone, v, ⟨t, ht, r, u, hr, w, hw, -⟩, hzone⟩
    exact ⟨t, ht, r, u, hr, spins, zone, w, hw, hzone⟩
  · rintro ⟨t, ht, r, u, hr, spins, zone, w, hw, hzone⟩
    exact ⟨spins, zone, _, ⟨t, ht, r, u, hr, w, hw, rfl⟩, hzone⟩

section AfterMatch

variable (lifetime : Lifetime)

theorem afterMatch_of_good (hbest : best < lifetimeDiffCouldBeWorse) (z : ℕ) (hP : ¬ P (some z)) :
    ¬ GivesWith e d (afterMatch e a h · lifetime (.OK, best, some z)) P := by
  rintro ⟨spins, zone, t, hrun, hzone⟩
  simp [afterMatch, not_le.mpr hbest] at hrun
  exact hP (hrun.1 ▸ hzone)

theorem afterMatch_of_bad (hbest : lifetimeDiffCouldBeWorse ≤ best)
    (zone : Option ℕ) (spins : ℕ) :
    afterMatch e a h spins lifetime (.OK, best, zone) =
      reconsider e a h spins lifetime best zone := by
  rw [afterMatch, if_neg (by decide), if_pos hbest]

theorem ComesToMatch.settled (h : ComesToMatch e a h ioType d t) :
    d.Settled e t := by
  obtain ⟨-, s, -, hs⟩ := h
  have hlock : d.Settled e (d.setLocked .alloc true) :=
    settled_of_eq rfl rfl rfl (by simp [Zbd.setLocked])
  exact hlock.trans (readyToMatch_settled ioType s t hs)

/-- The zones that can be matched are those that could before and were not finished. -/
theorem ComesToMatch.offers_iff (hcome : ComesToMatch e a h ioType d t) {n : ℕ} :
    t.Offers e n z ↔ d.Offers e n z ∧ (ioType = .wal ∨ ¬ d.Finishes e z) := by
  obtain ⟨-, s, hok, hs⟩ := hcome
  obtain ⟨hsame, hfull⟩ := readyToMatch_zones (d := d.setLocked .alloc true) ioType s t hs hok z
  constructor
  · intro hz
    have hkept : ioType = .wal ∨ ¬ d.Finishes e z := by
      by_contra hnot
      obtain ⟨hwal, hfinishes⟩ := not_or.mp hnot
      have heligible := hz.2.2
      rw [Zone.eligible, hfull hz.1 hwal (not_not.mp hfinishes)] at heligible
      simp at heligible
    rw [Zbd.Offers, hsame hkept] at hz
    exact ⟨hz, hkept⟩
  · rintro ⟨hz, hkept⟩
    rw [Zbd.Offers, hsame hkept]
    exact hz

theorem ComesToMatch.unique (ht : ComesToMatch e a h ioType d t)
    (hu : ComesToMatch e a h ioType d u) : t = u := by
  obtain ⟨-, s, -, hs⟩ := ht
  obtain ⟨-, s', -, hs'⟩ := hu
  rw [hs] at hs'
  cases hs'
  rfl

theorem matchForFile_ends (hfree : t.locked .levelwiseFiles = false) (hd : OnIoZones e t) :
    (matchForFile e a h lifetime).Ends (exec e) t fun r u =>
      r.1 = .OK ∧ Found e a (e.minCapacity (t.place.info h)) t r.2.2 u ∧ (r.2.2 = none →
        lifetimeDiffCouldBeWorse ≤ r.2.1 ∧ ∀ z, ¬ t.Offers e (e.minCapacity (t.place.info h)) z) := by
  refine ends_call ?_
  rintro _ _ ⟨⟩
  have hcapacity : e.minCapacity (t.place.info h) = if (t.place.info h).listed then
      (if e.fragmentationEnabled then 0 else (t.place.info h).allocSize % 2 ^ 32) else 0 := by
    unfold Setup.minCapacity
    cases (t.place.info h).listed <;> simp
  rw [hcapacity]
  exact getBestOpenZoneMatch_ends lifetime hfree hd

theorem afterMatch_gives_iff (hfound : Found e a m t (some z) u) (hP : ¬ P (some z)) :
    GivesWith e u (afterMatch e a h · lifetime (.OK, best, some z)) P ↔
      lifetimeDiffCouldBeWorse ≤ best ∧ ¬ KeepsMatch e t best ∧
        ∃ p, u = (t.setPlace p).hold a (some z) ∧
          GivesWith e (t.setPlace p) (reconsider e a h · lifetime best none) P := by
  obtain ⟨p, hp⟩ := hfound.device
  have hfree := (hfound.offers z rfl).2.1
  obtain hgood | hbad := lt_or_ge best lifetimeDiffCouldBeWorse
  · exact iff_of_false (afterMatch_of_good lifetime hgood z hP) fun h => not_le.mpr hgood h.1
  · simp only [afterMatch_of_bad lifetime hbad]
    constructor
    · intro hgives
      rw [hp, reconsider_some_gives_iff (d := t.setPlace p) lifetime hP hfree] at hgives
      exact ⟨hbad, hgives.1, p, hp, hgives.2⟩
    · rintro ⟨-, hnot, q, rfl, hgives⟩
      exact (reconsider_some_gives_iff (d := t.setPlace q) lifetime hP hfree).mpr ⟨hnot, hgives⟩

/-- A matched zone is lost if it is given back and no empty one is free. -/
theorem afterMatch_null_iff (hfound : Found e a m t (some z) u)
    (hpos : 0 < e.nrZones → t.zonePos < e.nrZones) :
    GivesWith e u (afterMatch e a h · lifetime (.OK, best, some z)) (· = none) ↔
      lifetimeDiffCouldBeWorse ≤ best ∧
        ¬ ((e.maxNrActiveIoZones : ℤ) ≤ t.activeIoZones ∧ best = lifetimeDiffCouldBeWorse) ∧
        e.reserveZoneCount < t.getEmptyZoneCount e ∧ t.CanFreeToken e ∧ ∀ y, ¬ t.Opens e y := by
  have hnull (p : Placement) :
      GivesWith e (t.setPlace p) (reconsider e a h · lifetime best none) (· = none) ↔
        t.CanFreeToken e ∧ ∀ y, ¬ t.Opens e y :=
    (reconsider_none_null_iff (d := t.setPlace p) lifetime best hpos).trans
      (and_congr_left' (canFreeToken_setPlace p))
  obtain ⟨p, hp⟩ := hfound.device
  rw [afterMatch_gives_iff lifetime hfound nofun, KeepsMatch, not_or, not_le]
  simp only [hnull]
  constructor
  · rintro ⟨hbad, ⟨hnot, hcount⟩, -, -, hnone⟩
    exact ⟨hbad, hnot, hcount, hnone⟩
  · rintro ⟨hbad, hnot, hcount, hnone⟩
    exact ⟨hbad, ⟨hnot, hcount⟩, p, hp, hnone⟩

end AfterMatch

/-- With a zone found or an empty one free, `AllocateIOZone` reports that there is no space
exactly if it gives the zone back for an empty one that it cannot have. -/
theorem allocateIOZone_never_null_iff (lifetime : Lifetime) (ioType : IOType)
    (hpos : 0 < e.nrZones → d.zonePos < e.nrZones) (hfree : d.locked .levelwiseFiles = false)
    (hd : OnIoZones e d)
    (hspace : (∃ t best z, ComesToMatch e a h ioType d t ∧ MatchesZone e a h lifetime t best z) ∨
      ∃ z, d.Opens e z) :
    (∀ spins t, (allocateIOZone e a h spins lifetime ioType).run (exec e) d ≠
        some ((.OK, none), t)) ↔
      ∀ t best z, ComesToMatch e a h ioType d t → MatchesZone e a h lifetime t best z →
        (∃ y, d.Opens e y) ∨ t.getEmptyZoneCount e ≤ e.reserveZoneCount ∨
          best < lifetimeDiffCouldBeWorse ∨
          ((e.maxNrActiveIoZones : ℤ) ≤ t.activeIoZones ∧ best = lifetimeDiffCouldBeWorse) ∨
          ¬ t.CanFreeToken e := by
  have hnever : (∀ spins t, (allocateIOZone e a h spins lifetime ioType).run (exec e) d ≠
      some ((.OK, none), t)) ↔
        ¬ GivesWith e d (allocateIOZone e a h · lifetime ioType) (· = none) := by
    simp [GivesWith]
  have hmatch {t u : Zbd} {r : Match} (hcome : ComesToMatch e a h ioType d t)
      (hr : (matchForFile e a h lifetime).run (exec e) t = some (r, u)) :
      r.1 = .OK ∧ Found e a (e.minCapacity (t.place.info h)) t r.2.2 u ∧
        (r.2.2 = none → lifetimeDiffCouldBeWorse ≤ r.2.1) := by
    obtain ⟨hok, hfound, hnone⟩ := matchForFile_ends lifetime
      (by rw [hcome.settled.levelwise, hfree])
      (by rw [OnIoZones, hcome.settled.bodies]; exact hd) r u hr
    exact ⟨hok, hfound, fun hzone => (hnone hzone).1⟩
  have hpos' {t : Zbd} (hcome : ComesToMatch e a h ioType d t) :
      0 < e.nrZones → t.zonePos < e.nrZones := by
    rw [hcome.settled.zonePos]
    exact hpos
  rw [hnever, allocateIOZone_gives_iff_match]
  constructor
  · rintro hnot t best z hcome ⟨u, hu⟩
    obtain ⟨-, hfound, -⟩ := hmatch hcome hu
    by_contra hcond
    simp only [not_or, not_exists, not_le, not_lt, not_not] at hcond
    obtain ⟨hnone, hcount, hbad, hkeep, htoken⟩ := hcond
    refine hnot ⟨t, hcome, _, u, hu, (afterMatch_null_iff lifetime hfound (hpos' hcome)).mpr ?_⟩
    exact ⟨hbad, hkeep, hcount, htoken, fun y hy => hnone y ((hcome.settled.opens_iff y).mp hy)⟩
  · rintro hcond ⟨t, hcome, ⟨s, best, zone⟩, u, hr, hnull⟩
    obtain ⟨rfl, hfound, hbad⟩ := hmatch hcome hr
    cases zone with
    | none =>
      obtain ⟨t', best', z, hcome', u', hu'⟩ | ⟨z, hz⟩ := hspace
      · cases hcome.unique hcome'
        rw [hr] at hu'
        cases hu'
      · obtain ⟨p, rfl⟩ := hfound.device
        simp only [afterMatch_of_bad lifetime (hbad rfl)] at hnull
        have hnone := (reconsider_none_null_iff (d := t.setPlace p) lifetime best
          (hpos' (t := t) hcome)).mp hnull
        exact hnone.2 z ((hcome.settled.opens_iff z).mpr hz)
    | some z =>
      obtain ⟨hbad, hkeep, hcount, htoken, hnone⟩ :=
        (afterMatch_null_iff lifetime hfound (hpos' hcome)).mp hnull
      obtain ⟨y, hy⟩ | hle | hgood | hsettle | hstuck := hcond t best z hcome ⟨u, hr⟩
      · exact hnone y ((hcome.settled.opens_iff y).mpr hy)
      · omega
      · omega
      · exact hkeep hsettle
      · exact hstuck htoken

theorem allocateIOZone_never_null_usedDevice : (∃ z, usedDevice.Opens (smallSetup .caza) z) ∧
    ∀ spins t, (allocateIOZone (smallSetup .caza) me 1 spins .short .data).run
      (exec (smallSetup .caza)) usedDevice ≠ some ((.OK, none), t) := by
  have hopens : usedDevice.Opens (smallSetup .caza) 1 := ⟨by decide, by decide, by decide⟩
  refine ⟨⟨1, hopens⟩, ?_⟩
  exact (allocateIOZone_never_null_iff .short .data (by decide) rfl (onIoZones_usedDevice)
    (.inr ⟨1, hopens⟩)).mpr fun _ _ _ _ _ => .inl ⟨1, hopens⟩

def roomySetup : Setup :=
  { smallSetup .lifetimeBased with maxNrActiveIoZones := 4, maxNrOpenIoZones := 4 }

/-- The first zone has a block of data. The second one was just opened by the writer of another
file, which has written nothing to it yet. -/
def contendedDevice : Zbd :=
  { usedDevice with
    zones := fun z => { usedDevice.zones z with busy := decide (1 ≤ z) }
    bodies := fun h => if h = 2 then { FileBody.new with activeZone := some 1 } else .new
    openIoZones := 1
    activeIoZones := 2
    wrLocked := fun h => h = 2
    holders := fun z => if z = 1 then [.file 2] else if z = 2 then [.log 0] else [] }

/-- A zone is found, given back, and then there is none. -/
theorem allocateIOZone_null_contendedDevice : roomySetup.Accepted ∧
    contendedDevice.deferredStatus = .OK ∧
    (∃ t, ComesToMatch roomySetup me 1 .data contendedDevice t ∧
      MatchesZone roomySetup me 1 .short t lifetimeDiffNotGood 0) ∧
    ∃ t, (allocateIOZone roomySetup me 1 0 .short .data).run (exec roomySetup) contendedDevice =
      some ((.OK, none), t) := by
  have hmatch : ((readyToMatch roomySetup me 1 .data).run (exec roomySetup)
      (contendedDevice.setLocked .alloc true)).bind (fun r =>
        ((matchForFile roomySetup me 1 .short).run (exec roomySetup) r.2).map fun q =>
          (r.1.ok, q.1)) = some (true, .OK, lifetimeDiffNotGood, some 0) := by decide +kernel
  have hnull : ((allocateIOZone roomySetup me 1 0 .short .data).run (exec roomySetup)
      contendedDevice).map Prod.fst = some (.OK, none) := by decide +kernel
  obtain ⟨⟨s, t⟩, hs, hrest⟩ := Option.bind_eq_some_iff.mp hmatch
  obtain ⟨⟨r, u⟩, hr, heq⟩ := Option.map_eq_some_iff.mp hrest
  obtain ⟨⟨r', v⟩, hv, rfl⟩ := Option.map_eq_some_iff.mp hnull
  rw [Prod.mk.injEq] at heq
  obtain ⟨hok, rfl⟩ := heq
  exact ⟨smallSetup_accepted .lifetimeBased, rfl, ⟨t, ⟨rfl, s, hok, hs⟩, u, hr⟩, v, hv⟩

end ZenFs.Device
