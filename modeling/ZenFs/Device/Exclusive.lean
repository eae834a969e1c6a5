import ZenFs.Device.Footprint
import ZenFs.Device.Ownership
import ZenFs.Device.Zones

/-!
The search for zones, and who holds the zones meanwhile.

A search ends with the zone it returns and no other one more than it began with, and the
releases it makes on the way never fail.
-/

namespace ZenFs.Device

open Library Task Judgement Discipline Function OwnerTable Option Safe

variable {a : Holder} {above below l : List ℕ} {b : FileBody} {best minCapacity : ℕ} {d : Zbd}
variable {fits : Zbd → Zone → Bool} {level : ℤ} {lifetime : Lifetime} {m : Mutex}
variable {ranking : Zbd → Placement × List Handle} {vs : ℕ → Holding} {w : ℕ → ℚ}
variable {o : Call}

/-- The holder that a call acts for, and the zone it acts on. -/
def Call.acts : Call → Option (Holder × ℕ)
  | .release a z => some (a, z)
  | .reset a z => some (a, z)
  | .finish a z => some (a, z)
  | .close a z => some (a, z)
  | .append a z _ => some (a, z)
  | .setActiveZone a _ z => some (a, z)
  | .newMetaLog a l => some (a, l.zone)
  | _ => none

/-- The call acts for the only holder of a zone that is busy, and not for another thread. -/
def Entitled (i : ℕ) (o : Call) (d : Zbd) : Prop :=
  ∀ a z, o.acts = some (a, z) →
    d.holders z = [a] ∧ (d.zones z).busy = true ∧ ∀ j, a = .thread j → j = i

def Call.opens : Call → Option Handle
  | .acquireWRLock h => some h
  | _ => none

/-- A file is opened for writing only while no call of `CloseWR` on it is under way. -/
def Unhurried (_ : ℕ) (o : Call) (d : Zbd) : Prop := ∀ h ∈ o.opens, d.closing h = 0

instance (i : ℕ) (o : Call) (d : Zbd) : Decidable (Unhurried i o d) :=
  inferInstanceAs (Decidable (∀ h ∈ o.opens, d.closing h = 0))

/-- The argument: the threads account for all holders of zones. -/
def ownership (e : Setup) : Discipline ℕ Call.Res Zbd Holding where
  exec := exec e
  ok := Unhurried
  need := Entitled
  Inv vs d := Owned vs d.ownerTable

variable {e : Setup} {i : ℕ} {h : Handle} {v : Holding} {z : ℕ}

/-- The call leaves the owner table alone. -/
def Call.passive : Call → Bool
  | .acquire _ _ => false
  | .release _ _ => false
  | .setActiveZone _ _ _ => false
  | .clearActiveZone _ => false
  | .newMetaLog _ _ => false
  | .lock m => m ≠ .metadataSync
  | .unlock m => m ≠ .metadataSync
  | .acquireWRLock _ => false
  | .tryAcquireWRLock _ => false
  | .releaseWRLock _ => false
  | .startClosing _ => false
  | .endClosing _ => false
  | .setMetaLog _ => false
  | _ => true

theorem setZone_ownerTable (d : Zbd) (zone : Zone) : (d.setZone z zone).ownerTable =
    { d.ownerTable with busy := update d.ownerTable.busy z zone.busy } :=
  congrArg (mk · _ _ _ _ _ _) (comp_update (fun y : Zone => y.busy) d.zones z zone)

theorem setZone_ownerTable_self {zone : Zone} (hz : zone.busy = (d.zones z).busy) :
    (d.setZone z zone).ownerTable = d.ownerTable := by
  rw [setZone_ownerTable, hz]
  exact congrArg (mk · _ _ _ _ _ _) (update_eq_self z _)

theorem setBody_ownerTable (d : Zbd) : (d.setBody h b).ownerTable =
    { d.ownerTable with active := update d.ownerTable.active h b.activeZone } :=
  congrArg (mk _ _ · _ _ _ _) (comp_update FileBody.activeZone d.bodies h b)

theorem onBody_ownerTable (d : Zbd) (f : FileBody → FileBody) :
    (d.onBody h f).ownerTable = d.ownerTable :=
  (setBody_ownerTable d).trans
    (congrArg (mk _ _ · _ _ _ _) (update_eq_self h _))

theorem setLocked_ownerTable (d : Zbd) (b : Bool) (hm : m ≠ .metadataSync) :
    (d.setLocked m b).ownerTable = d.ownerTable := by
  simp [Zbd.setLocked, Zbd.ownerTable, update_of_ne hm.symm]

theorem exec_ownerTable (ho : o.passive = true) {t : Zbd} {r : o.Res}
    (hr : exec e o d = some (r, t)) : t.ownerTable = d.ownerTable := by
  rw [exec_writes hr]
  cases o with
  | acquire | release | setActiveZone | clearActiveZone | newMetaLog | acquireWRLock
  | tryAcquireWRLock | releaseWRLock | startClosing | endClosing | setMetaLog => cases ho
  | reset | finish | append | tag | use => exact setZone_ownerTable_self rfl
  | body h f => exact onBody_ownerTable d f
  | lock m => exact setLocked_ownerTable d true (of_decide_eq_true ho)
  | unlock m => exact setLocked_ownerTable d false (of_decide_eq_true ho)
  | _ => rfl

theorem own_op {Q : o.Res → Holding → Prop}
    (hneed : ∀ vs d, vs i = v → Owned vs d.ownerTable → Entitled i o d)
    (hstep : ∀ vs d r t, vs i = v → Owned vs d.ownerTable → Unhurried i o d →
      exec e o d = some (r, t) → ∃ w, Owned (update vs i w) t.ownerTable ∧ Q r w) :
    (ownership e).Safe i (Task.op o) v Q := by
  intro vs d hv hd
  exact ⟨hneed vs d hv hd, fun hok r t hr => hstep vs d r t hv hd hok hr⟩

theorem entitled_of_acts (ho : o.acts = none) (d : Zbd) : Entitled i o d := by
  intro a z ha
  rw [ho] at ha
  cases ha

theorem own_free {Q : o.Res → Holding → Prop} (ho : o.acts = none)
    (hstep : ∀ vs d r t, vs i = v → Owned vs d.ownerTable → Unhurried i o d →
      exec e o d = some (r, t) → ∃ w, Owned (update vs i w) t.ownerTable ∧ Q r w) :
    (ownership e).Safe i (Task.op o) v Q :=
  own_op (fun _ d _ _ => entitled_of_acts ho d) hstep

theorem entitled_of_held
    (hd : Owned vs d.ownerTable) (ho : o.acts = some (a, z)) (hz : d.ownerTable.holders z = [a])
    (ha : ∀ j, a = .thread j → j = i) : Entitled i o d := by
  intro b y hb
  rw [ho] at hb
  cases hb
  exact ⟨hz, hd.held hz, ha⟩

theorem own_act (ho : o.passive = true)
    (hacts : ∀ vs T, vs i = v → Owned vs T → ∀ a z, o.acts = some (a, z) →
      T.holders z = [a] ∧ ∀ j, a = .thread j → j = i) :
    ((ownership e).judgement i v).Calls o := by
  apply own_op
  · intro vs d hv hd a z ha
    obtain ⟨hz, hj⟩ := hacts vs _ hv hd a z ha
    exact ⟨hz, hd.held hz, hj⟩
  · intro vs d r t hv hd _ hr
    refine ⟨v, ?_, rfl, trivial⟩
    rw [exec_ownerTable ho hr, ← hv, update_eq_self]
    exact hd

theorem own_call (ho : o.passive = true) (hacts : o.acts = none) :
    ((ownership e).judgement i v).Calls o := by
  apply own_act ho
  intro vs T _ _ a z ha
  rw [hacts] at ha
  cases ha

theorem own_actOn (ho : o.passive = true) (hacts : o.acts = some (.thread i, z))
    (hz : z ∈ v.zones) : ((ownership e).judgement i v).Calls o := by
  apply own_act ho
  intro vs T hv hd a y ha
  rw [hacts] at ha
  cases ha
  refine ⟨(hd.knows i).zones z (hv ▸ hz), ?_⟩
  rintro j ⟨⟩
  rfl

theorem own_then {α : Type} {f : o.Res → DevTask α} {Q : α → Holding → Prop}
    (ho : o.passive = true) (hacts : o.acts = none)
    (hf : ∀ r, (ownership e).Safe i (f r) v Q) : (ownership e).Safe i (call o >>= f) v Q :=
  bind_admits (own_call ho hacts) hf

theorem own_look : ((ownership e).judgement i v).Admits look := own_call rfl rfl

theorem own_hang {α : Type} {Q : α → Holding → Prop} :
    (ownership e).Safe i (hang : DevTask α) v Q := by
  intro vs d _ _
  exact ⟨entitled_of_acts rfl d, fun _ => nofun⟩

def Holding.take (v : Holding) (z : Option ℕ) : Holding := v.withZones (z.toList ++ v.zones)

theorem mem_take (v : Holding) (z : ℕ) : z ∈ (v.take (some z)).zones := List.mem_cons_self

theorem pass_ownerTable (d : Zbd) (zone : Zone) (o : Option Holder) (hz : zone.busy = o.isSome) :
    Zbd.ownerTable { d.setZone z zone with holders := update d.holders z o.toList } =
      d.ownerTable.pass z o := by
  have h := setZone_ownerTable (z := z) d zone
  rw [hz] at h
  exact congrArg (fun T : OwnerTable => { T with holders := update d.holders z o.toList }) h

theorem acquire_ownerTable (hd : d.holders z = []) :
    (d.acquire (.thread i) z).2.ownerTable =
      if (d.zones z).busy then d.ownerTable else d.ownerTable.pass z (some (.thread i)) := by
  rw [Zbd.acquire]
  split
  · rfl
  · rw [hd]
    exact pass_ownerTable d _ (some (.thread i)) rfl

theorem release_ownerTable (hb : (d.zones z).busy = true)
    (hd : d.holders z = [a]) :
    d.release a z = (true, (d.release a z).2) ∧
      (d.release a z).2.ownerTable = d.ownerTable.pass z none := by
  rw [Zbd.release, if_pos hb, hd, List.erase_cons_head]
  exact ⟨rfl, pass_ownerTable d _ none rfl⟩

theorem own_acquire : (ownership e).Safe i (acquire (.thread i) z) v
    fun got w => w = v.take (if got then some z else none) := by
  apply own_free rfl
  intro vs d r t hv hd _ hr
  have hr : d.acquire (.thread i) z = (r, t) := some.inj hr
  cases hb : (d.zones z).busy with
  | true =>
    rw [Zbd.acquire, if_pos hb] at hr
    cases hr
    refine ⟨v, ?_, rfl⟩
    rw [← hv, update_eq_self]
    exact hd
  | false =>
    have hfree : d.holders z = [] := hd.free hb
    have htable := acquire_ownerTable (i := i) hfree
    rw [hr, if_neg (by simp [hb])] at htable
    have hgot : r = true := by
      rw [Zbd.acquire, if_neg (by simp [hb])] at hr
      cases hr
      rfl
    subst hgot
    refine ⟨v.take (some z), ?_, rfl⟩
    rw [htable, ← hv]
    exact hd.acquired hfree

theorem own_release {w : Holding} (ha : ∀ j, a = .thread j → j = i)
    {hz : ∀ vs T, vs i = v → Owned vs T → T.holders z = [a] ∧
      Owned (update vs i w) (T.pass z none)} :
    (ownership e).Safe i (release a z) v fun r u => r = true ∧ u = w := by
  apply own_op
  · intro vs d hv hd
    exact entitled_of_held hd rfl (hz vs _ hv hd).1 ha
  · intro vs d r t hv hd _ hr
    obtain ⟨hheld, hpass⟩ := hz vs _ hv hd
    have hr : d.release a z = (r, t) := some.inj hr
    obtain ⟨hok, htable⟩ := release_ownerTable (hd.held hheld) hheld
    rw [hr] at hok htable
    cases hok
    refine ⟨w, ?_, rfl, rfl⟩
    rw [htable]
    exact hpass

theorem own_releaseOwn (hl : v.zones.Perm (z :: l)) :
    (ownership e).Safe i (release (.thread i) z) v fun r u => r = true ∧ u = v.withZones l := by
  apply own_release
  · rintro j ⟨⟩
    rfl
  · intro vs T hv hd
    subst hv
    exact ⟨(hd.knows i).zones z (hl.mem_iff.mpr List.mem_cons_self), hd.passedOwn hl⟩

theorem own_checkRelease (hl : v.zones.Perm (z :: l)) :
    (ownership e).Safe i (checkRelease e (.thread i) z) v
      fun s w => s = .OK ∧ w = v.withZones l := by
  apply (own_releaseOwn hl).seq
  rintro r w ⟨rfl, rfl⟩
  exact Safe.ret ⟨rfl, rfl⟩

section GiveBack

variable {α : Type} {f : Status → DevTask α} {Q : α → Holding → Prop}

theorem own_giveBack (hf : (ownership e).Safe i (f .OK) v Q) :
    (ownership e).Safe i (checkRelease e (.thread i) z >>= f) (v.take (some z)) Q := by
  apply (own_checkRelease (.refl _)).seq
  rintro s w ⟨rfl, rfl⟩
  exact hf

theorem own_giveBackKept {y : ℕ} (hf : (ownership e).Safe i (f .OK) (v.take (some z)) Q) :
    (ownership e).Safe i (checkRelease e (.thread i) y >>= f)
      ((v.take (some y)).take (some z)) Q := by
  apply (own_checkRelease (.swap y z _)).seq
  rintro s w ⟨rfl, rfl⟩
  exact hf

end GiveBack

theorem own_acquire_then {α : Type} {m k : DevTask α} {Q : α → Holding → Prop}
    (hm : (ownership e).Safe i m v Q) (hk : (ownership e).Safe i k (v.take (some z)) Q) :
    (ownership e).Safe i (do if !(← acquire (.thread i) z) then m else k) v Q := by
  apply own_acquire.seq
  rintro got w rfl
  cases got with
  | false => exact hm
  | true => exact hk

theorem if_ok {α : Type} (a b : α) : (if !Status.OK.ok then a else b) = b := rfl

/-- The scan ends well, with the zone it returns and no other one more than before. -/
def Finds (e : Setup) (i : ℕ) {α : Type} (m : DevTask (Status × α)) (zone : α → Option ℕ)
    (v : Holding) (kept : Option ℕ) : Prop :=
  (ownership e).Safe i m (v.take kept) fun r w => r.1 = .OK ∧ w = v.take (zone r.2)

theorem bestZone_finds {τ β : Type} (zoneOf : τ → ℕ) (accept : Zbd → τ → β → Option β)
    (l : List τ) (kept : Option ℕ) (best : β) :
    Finds e i (bestZone e (.thread i) zoneOf accept l kept best) (·.1) v kept := by
  induction l generalizing kept best with
  | nil => exact Safe.ret ⟨rfl, rfl⟩
  | cons x rest ih =>
    apply own_acquire_then (ih _ _)
    refine own_then rfl rfl fun d => ?_
    split
    · exact ih _ _
    · exact own_giveBackKept (ih _ _)
    · exact own_giveBack (ih _ _)

theorem cheapestZone_finds (test : ℕ → Zone → Bool) (better : Zone → Zone → Bool) (l : List ℕ)
    (kept : Option ℕ) :
    Finds e i (cheapestZone e (.thread i) test better l kept) id v kept := by
  induction l generalizing kept with
  | nil => exact Safe.ret ⟨rfl, rfl⟩
  | cons z rest ih =>
    apply own_acquire_then (ih _)
    refine own_then rfl rfl fun d => ?_
    split
    · exact own_giveBack (ih _)
    · split
      · exact ih _
      · split
        · exact own_giveBackKept (ih _)
        · exact own_giveBack (ih _)

theorem firstEmptyZone_finds (l : List ℕ) (passed : ℕ) :
    Finds e i (firstEmptyZone e (.thread i) l passed) (·.map (·.1)) v none := by
  induction l generalizing passed with
  | nil => exact Safe.ret ⟨rfl, rfl⟩
  | cons z rest ih =>
    apply own_acquire_then (ih _)
    refine own_then rfl rfl fun d => ?_
    split
    · exact Safe.ret ⟨rfl, rfl⟩
    · exact own_giveBack (ih _)

theorem allocateEmptyZoneDefault_finds :
    Finds e i (allocateEmptyZoneDefault e (.thread i)) id v none := by
  apply Safe.seq (firstEmptyZone_finds _ _)
  rintro ⟨s, found⟩ w ⟨hs, rfl⟩
  exact Safe.ret ⟨hs, rfl⟩

theorem sequentialRounds_finds {n : ℕ} :
    Finds e i (sequentialRounds e (.thread i) n) id v none := by
  induction n with
  | zero => exact Safe.ret ⟨rfl, rfl⟩
  | succ n ih =>
    refine own_then rfl rfl fun d => ?_
    refine own_then rfl rfl fun _ => ?_
    apply own_acquire_then ih
    refine own_then rfl rfl fun d => ?_
    split
    · exact Safe.ret ⟨rfl, rfl⟩
    · exact own_giveBack ih

theorem allocateEmptyZoneRandom_finds :
    Finds e i (allocateEmptyZoneRandom e (.thread i)) id v none := by
  refine own_then rfl rfl fun n => ?_
  apply Safe.seq (firstEmptyZone_finds _ _)
  rintro ⟨s, found⟩ w ⟨hs, rfl⟩
  exact Safe.ret ⟨hs, rfl⟩

theorem allocateAroundInterval_finds :
    Finds e i (allocateAroundInterval e (.thread i) below above) id v none := by
  apply Safe.seq (firstEmptyZone_finds _ _)
  rintro ⟨_, upper⟩ w ⟨rfl, rfl⟩
  apply Safe.seq (firstEmptyZone_finds (v := v.take (upper.map (·.1))) _ _)
  rintro ⟨_, lower⟩ w ⟨rfl, rfl⟩
  cases lower with
  | none =>
    cases upper with
    | none => exact allocateEmptyZoneDefault_finds
    | some p => exact Safe.ret ⟨rfl, rfl⟩
  | some q =>
    cases upper with
    | none => exact Safe.ret ⟨rfl, rfl⟩
    | some p =>
      dsimp only
      rw [if_ok]
      split
      · exact own_giveBackKept (Safe.ret ⟨rfl, rfl⟩)
      · exact own_giveBack (Safe.ret ⟨rfl, rfl⟩)

theorem allocateEmptyZoneHotnessBased_finds :
    Finds e i (allocateEmptyZoneHotnessBased e (.thread i) level) id v none := by
  rw [allocateEmptyZoneHotnessBased]
  split
  · exact cheapestZone_finds _ _ _ _
  · refine own_then rfl rfl fun d => ?_
    apply Safe.seq (firstEmptyZone_finds _ _)
    rintro ⟨_, found⟩ w ⟨rfl, rfl⟩
    cases found with
    | none => exact allocateAroundInterval_finds
    | some p => exact Safe.ret ⟨rfl, rfl⟩

theorem own_place {f : Zbd → Placement} : ((ownership e).judgement i v).Admits (place f) :=
  place_admits (own_call rfl rfl)

theorem allocateEmptyZone_finds :
    Finds e i (allocateEmptyZone e (.thread i) level) id v none := by
  apply bind_admits own_place
  intro _
  split
  · exact allocateEmptyZoneDefault_finds
  · exact sequentialRounds_finds
  · exact allocateEmptyZoneRandom_finds
  · exact cheapestZone_finds _ _ _ _
  · exact allocateEmptyZoneHotnessBased_finds
  · exact sequentialRounds_finds

/-- The program ends with the zones it began with. -/
abbrev Returns (e : Setup) (i : ℕ) {α : Type} (m : DevTask α) (v : Holding) : Prop :=
  ((ownership e).judgement i v).Admits m

theorem resetUnused_returns : Returns e i (resetUnused e (.thread i) l) v := by
  induction l with
  | nil => exact admits_ret _
  | cons z rest ih =>
    apply own_acquire_then ih
    refine own_then rfl rfl fun d => ?_
    dsimp only
    split
    · apply bind_admits (own_actOn rfl rfl (mem_take v z))
      intro s
      apply own_giveBack
      split
      · exact Safe.ret ⟨rfl, trivial⟩
      · rw [if_ok]
        split
        · exact bind_admits (own_call rfl rfl) fun _ => ih
        · exact ih
    · exact own_giveBack ih

theorem finishBelowThreshold_returns :
    Returns e i (finishBelowThreshold e (.thread i) l) v := by
  induction l with
  | nil => exact admits_ret _
  | cons z rest ih =>
    apply own_acquire_then ih
    refine own_then rfl rfl fun d => ?_
    dsimp only
    split
    · apply bind_admits (own_actOn rfl rfl (mem_take v z))
      intro s
      split
      · apply (own_releaseOwn (.refl _)).seq
        rintro r w ⟨-, rfl⟩
        exact Safe.ret ⟨rfl, trivial⟩
      · exact own_giveBack (bind_admits (own_call rfl rfl) fun _ => ih)
    · exact own_giveBack ih

theorem finishCheapestIOZone_returns : Returns e i (finishCheapestIOZone e (.thread i)) v := by
  apply Safe.seq (cheapestZone_finds _ _ _ none)
  rintro ⟨_, victim⟩ w ⟨rfl, rfl⟩
  dsimp only
  cases victim with
  | none => exact Safe.ret ⟨rfl, trivial⟩
  | some z =>
    apply bind_admits (own_actOn rfl rfl (mem_take v z))
    intro s
    apply own_giveBack
    split
    · exact bind_admits (own_call rfl rfl) fun _ => Safe.ret ⟨rfl, trivial⟩
    · exact Safe.ret ⟨rfl, trivial⟩

theorem waitForActiveToken_returns {n : ℕ} :
    Returns e i (waitForActiveToken e (.thread i) n) v := by
  induction n with
  | zero => exact own_hang
  | succ n ih =>
    refine own_then rfl rfl fun got => ?_
    split
    · exact Safe.ret ⟨rfl, trivial⟩
    · apply bind_admits finishCheapestIOZone_returns
      intro s
      split
      · exact Safe.ret ⟨rfl, trivial⟩
      · exact ih

/-- The match ends well, with the zone it reports and no other one more than before. -/
def Matches (e : Setup) (i : ℕ) (m : DevTask Match) (v : Holding) : Prop :=
  Finds e i m (·.2) v none

theorem withLevelwiseFiles_matches {m : DevTask Match} (hm : Matches e i m v) :
    Matches e i (withLevelwiseFiles m) v := by
  refine own_then rfl rfl fun _ => ?_
  apply hm.seq
  rintro r w hr
  refine own_then rfl rfl fun _ => ?_
  exact Safe.ret hr

theorem matchTagged_matches :
    Matches e i (matchTagged e (.thread i) fits best none minCapacity) v := by
  apply Safe.seq (bestZone_finds _ _ _ none _)
  rintro ⟨_, kept, diff⟩ w ⟨rfl, rfl⟩
  exact Safe.ret ⟨rfl, rfl⟩

theorem matchLifetimeBased_matches :
    Matches e i (matchLifetimeBased e (.thread i) lifetime best none minCapacity) v := by
  apply Safe.seq (bestZone_finds _ _ _ none _)
  rintro ⟨_, kept, diff⟩ w ⟨rfl, rfl⟩
  exact Safe.ret ⟨rfl, rfl⟩

theorem matchTombstoneDensity_matches :
    Matches e i (matchTombstoneDensity e (.thread i) h best none minCapacity) v := by
  refine own_then rfl rfl fun d => ?_
  split
  · exact Safe.ret ⟨rfl, rfl⟩
  · exact matchTagged_matches

theorem closestFileRounds_finds {l : List (List Handle)} :
    Finds e i (closestFileRounds e (.thread i) minCapacity l) id v none := by
  induction l with
  | nil => exact Safe.ret ⟨rfl, rfl⟩
  | cons files rest ih =>
    refine own_then rfl rfl fun d => ?_
    apply Safe.seq (bestZone_finds _ _ _ none _)
    rintro ⟨_, kept, _⟩ w ⟨rfl, rfl⟩
    cases kept with
    | none => exact ih
    | some z => exact Safe.ret ⟨rfl, rfl⟩

theorem closestRankRounds_finds (ranking : List Handle) (minCapacity n : ℕ) (prev : ℤ)
    (next : ℕ) :
    Finds e i (closestRankRounds e (.thread i) h ranking minCapacity n prev next) id v none := by
  induction n generalizing prev next with
  | zero => exact Safe.ret ⟨rfl, rfl⟩
  | succ n ih =>
    rw [closestRankRounds]
    split
    · exact Safe.ret ⟨rfl, rfl⟩
    · refine own_then rfl rfl fun d => ?_
      apply Safe.seq (bestZone_finds _ _ _ none _)
      rintro ⟨_, kept, _⟩ w ⟨rfl, rfl⟩
      dsimp only
      rw [if_ok]
      cases kept with
      | none =>
        rw [if_neg (by decide)]
        split
        · exact ih _ _
        · exact ih _ _
      | some z => exact Safe.ret ⟨rfl, rfl⟩

theorem reportZone_ends (kept : Option ℕ) (best : ℕ) :
    (reportZone .OK kept none best).1 = .OK ∧ (reportZone .OK kept none best).2.2 = kept := by
  cases kept with
  | none | some => exact ⟨rfl, rfl⟩

theorem own_report (kept : Option ℕ) (best : ℕ) :
    (ownership e).Safe i (pure (reportZone .OK kept none best)) (v.take kept)
      fun r w => r.1 = .OK ∧ w = v.take r.2.2 := by
  obtain ⟨hok, hkept⟩ := reportZone_ends kept best
  exact Safe.ret ⟨hok, by rw [hkept]⟩

theorem matchCAZA_matches :
    Matches e i (matchCAZA e (.thread i) h best none minCapacity) v := by
  apply withLevelwiseFiles_matches
  refine own_then rfl rfl fun d => ?_
  dsimp only
  split
  · exact Safe.ret ⟨rfl, rfl⟩
  · apply Safe.seq (bestZone_finds _ _ _ none _)
    rintro ⟨_, kept, _⟩ w ⟨rfl, rfl⟩
    split
    · next hnone =>
      have hkept : kept = none := by
        simp only [Bool.and_eq_true, isNone_iff_eq_none] at hnone
        exact hnone.1.2
      subst hkept
      apply Safe.seq (bestZone_finds _ _ _ none _)
      rintro ⟨_, kept, _⟩ w ⟨rfl, rfl⟩
      exact own_report kept best
    · exact own_report kept best

theorem matchSameLevelNearbyKeys_matches :
    Matches e i (matchSameLevelNearbyKeys e (.thread i) h none minCapacity) v := by
  apply withLevelwiseFiles_matches
  refine own_then rfl rfl fun d => ?_
  split
  · exact Safe.ret ⟨rfl, rfl⟩
  · apply Safe.seq (bestZone_finds _ _ _ none _)
    rintro ⟨_, kept, _⟩ w ⟨rfl, rfl⟩
    cases kept with
    | none => exact Safe.ret ⟨rfl, rfl⟩
    | some z =>
      refine own_then rfl rfl fun d => ?_
      dsimp only
      split
      · exact Safe.ret ⟨rfl, rfl⟩
      · exact Safe.ret ⟨rfl, rfl⟩

theorem matchSameLevelNearbyKeysSimple_matches :
    Matches e i (matchSameLevelNearbyKeysSimple e (.thread i) h best none minCapacity) v := by
  apply withLevelwiseFiles_matches
  apply bind_admits (own_call rfl rfl)
  rintro ⟨d, files⟩
  dsimp only
  split
  · exact Safe.ret ⟨rfl, rfl⟩
  · apply Safe.seq (closestFileRounds_finds)
    rintro ⟨_, kept⟩ w ⟨rfl, rfl⟩
    exact own_report kept best

theorem matchRanking_matches :
    Matches e i (matchRanking e (.thread i) h ranking w best none minCapacity) v := by
  apply withLevelwiseFiles_matches
  apply bind_admits (own_call rfl rfl)
  rintro ⟨d, own⟩
  dsimp only
  split
  · exact Safe.ret ⟨rfl, rfl⟩
  · apply Safe.seq (bestZone_finds _ _ _ none _)
    rintro ⟨_, kept, _⟩ w ⟨rfl, rfl⟩
    exact own_report kept best

theorem matchOAZA_matches :
    Matches e i (matchOAZA e (.thread i) h best none minCapacity) v := by
  apply withLevelwiseFiles_matches
  apply bind_admits (own_call rfl rfl)
  rintro ⟨d, own⟩
  dsimp only
  split
  · exact Safe.ret ⟨rfl, rfl⟩
  · apply Safe.seq (Q := fun r w => r.1 = .OK ∧ w = v.take r.2)
    · split
      · exact closestRankRounds_finds _ _ _ _ _
      · exact closestFileRounds_finds
    · rintro ⟨_, kept⟩ w ⟨rfl, rfl⟩
      exact own_report kept best

theorem matchBy_matches {policy : Policy} :
    Matches e i (matchBy e (.thread i) h policy lifetime best none minCapacity) v := by
  cases policy with
  | lifetimeBased | tombstoneTTL => exact matchLifetimeBased_matches
  | caza => exact matchCAZA_matches
  | sameLevelNearbyKeys => exact matchSameLevelNearbyKeys_matches
  | sameLevelNearbyKeysSimple => exact matchSameLevelNearbyKeysSimple_matches
  | arrivalTimeBased =>
    change Matches e i (matchArrivalTimeBased e (.thread i) h best none minCapacity) v
    exact matchTagged_matches
  | tombstoneDensity => exact matchTombstoneDensity_matches
  | clusterTogether =>
    change Matches e i (matchClusterTogether e (.thread i) best none minCapacity) v
    exact matchTagged_matches
  | overlapChildren | overlapGrandchildren | compensatedSize => exact matchRanking_matches
  | oaza => exact matchOAZA_matches
  | leveledLifetimeBased | userDefined => exact own_hang

theorem getBestOpenZoneMatch_matches :
    Matches e i (getBestOpenZoneMatch e (.thread i) h lifetime best minCapacity) v := by
  refine own_then rfl rfl fun d => ?_
  dsimp only
  split
  · exact matchLifetimeBased_matches
  · apply Safe.seq (matchBy_matches)
    rintro ⟨_, b, zone⟩ w ⟨rfl, rfl⟩
    cases zone with
    | some z => exact Safe.ret ⟨rfl, rfl⟩
    | none =>
      apply Safe.seq (matchBy_matches)
      rintro ⟨_, b, zone⟩ w ⟨rfl, rfl⟩
      apply bind_admits own_look
      intro d'
      cases zone with
      | some z => exact Safe.ret ⟨rfl, rfl⟩
      | none =>
        apply Safe.seq (matchLifetimeBased_matches)
        rintro ⟨_, b, zone⟩ w ⟨rfl, rfl⟩
        exact Safe.ret ⟨rfl, rfl⟩

end ZenFs.Device
