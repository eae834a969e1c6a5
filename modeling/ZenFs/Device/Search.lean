import ZenFs.Device.Allocate

/-!
The search for an open zone, run in one go.

The loops acquire and release zones on their way, but what they leave behind is the device
they began with and one more zone held, if they found one. `bestFree` says which zone.
-/

namespace ZenFs.Device

open Library Task Function

variable {n z : ℕ} {p : Placement} {t : Zbd}

namespace Zbd

def hold (a : Holder) : Option ℕ → Zbd → Zbd
  | none, d => d
  | some z, d => { d.setZone z { d.zones z with busy := true } with
      holders := update d.holders z (a :: d.holders z) }

/-- The devices differ in who holds which zone only. -/
structure Alike (d t : Zbd) : Prop where
  place : t.place = d.place
  bodies : t.bodies = d.bodies
  zones : ∀ z, ∃ b, t.zones z = { d.zones z with busy := b }

variable {d : Zbd} {a : Holder} {kept : Option ℕ} {y : ℕ}

@[simp] theorem hold_none : d.hold a none = d := rfl

@[simp] theorem hold_place : (d.hold a kept).place = d.place := by cases kept <;> rfl

@[simp] theorem hold_bodies : (d.hold a kept).bodies = d.bodies := by cases kept <;> rfl

@[simp] theorem hold_locked : (d.hold a kept).locked = d.locked := by cases kept <;> rfl

theorem hold_zones_self : (d.hold a (some z)).zones z = { d.zones z with busy := true } :=
  update_self z _ _

theorem hold_zones_of_ne (h : kept ≠ some y) : (d.hold a kept).zones y = d.zones y := by
  cases kept with
  | none => rfl
  | some z => exact update_of_ne (fun hy : y = z => h (congrArg some hy.symm)) _ _

theorem hold_busy : ((d.hold a kept).zones y).busy = true ↔
    (d.zones y).busy = true ∨ kept = some y := by
  by_cases h : kept = some y
  · subst h
    rw [hold_zones_self]
    simp
  · rw [hold_zones_of_ne h]
    simp [h]

theorem alike_refl (d : Zbd) : d.Alike d := ⟨rfl, rfl, fun z => ⟨(d.zones z).busy, rfl⟩⟩

theorem Alike.hold (h : d.Alike t) (a : Holder) (kept : Option ℕ) : d.Alike (t.hold a kept) := by
  refine ⟨hold_place.trans h.place, hold_bodies.trans h.bodies, fun z => ?_⟩
  obtain ⟨b, hb⟩ := h.zones z
  by_cases hz : kept = some z
  · subst hz
    exact ⟨true, by rw [hold_zones_self, hb]⟩
  · exact ⟨b, by rw [hold_zones_of_ne hz, hb]⟩

namespace Alike

theorem eligible (h : d.Alike t) (z n : ℕ) : (t.zones z).eligible n = (d.zones z).eligible n := by
  obtain ⟨b, hb⟩ := h.zones z
  rw [hb]
  rfl

theorem usedCapacity (h : d.Alike t) (z : ℕ) :
    (t.zones z).usedCapacity = (d.zones z).usedCapacity := by
  obtain ⟨b, hb⟩ := h.zones z
  rw [hb]

end Alike

theorem acquire_of_busy (h : (d.zones z).busy = true) : d.acquire a z = (false, d) := if_pos h

theorem acquire_of_free (h : (d.zones z).busy = false) :
    d.acquire a z = (true, d.hold a (some z)) := if_neg (by simp [h])

theorem release_hold (h : (d.zones z).busy = false) :
    (d.hold a (some z)).release a z = (true, d) := by
  have hbusy : ((d.hold a (some z)).zones z).busy = true := hold_busy.mpr (.inr rfl)
  have hzones : update (d.hold a (some z)).zones z
      { (d.hold a (some z)).zones z with busy := false } = d.zones := by
    funext y
    by_cases hy : y = z
    · subst hy
      rw [update_self, hold_zones_self, ← h]
    · rw [update_of_ne hy, hold_zones_of_ne (by simpa using Ne.symm hy)]
  have hholders : update (d.hold a (some z)).holders z
      (((d.hold a (some z)).holders z).erase a) = d.holders := by
    funext y
    by_cases hy : y = z
    · subst hy
      simp [hold]
    · simp [hold]
  rw [release, if_pos hbusy, setZone, hzones, hholders]
  rfl

theorem hold_comm (h : y ≠ z) :
    (d.hold a (some y)).hold a (some z) = (d.hold a (some z)).hold a (some y) := by
  simp [hold, setZone, h, h.symm, update_comm h]

theorem release_hold_of_ne (h : (d.zones y).busy = false) (hne : y ≠ z) :
    ((d.hold a (some y)).hold a (some z)).release a y = (true, d.hold a (some z)) := by
  rw [hold_comm hne, release_hold]
  rw [hold_zones_of_ne (by simpa using hne.symm)]
  exact h

end Zbd

variable {e : Setup} {a : Holder} {d : Zbd}

theorem look_run : look.run (exec e) d = some (d, d) := rfl

theorem returns_call {α : Type} {o : Call} {f : o.Res → DevTask α} {Q : α → Zbd → Prop}
    {r : o.Res} (hr : exec e o d = some (r, t)) (h : (f r).Returns (exec e) t Q) :
    (call o >>= f).Returns (exec e) d Q :=
  Task.Returns.bind (Task.Returns.op hr h)

theorem returns_look {α : Type} {f : Zbd → DevTask α} {Q : α → Zbd → Prop}
    (h : (f d).Returns (exec e) d Q) : (look >>= f).Returns (exec e) d Q :=
  returns_call rfl h

theorem returns_rank {α : Type} {f : Zbd → Placement × List Handle}
    {g : Zbd × List Handle → DevTask α} {Q : α → Zbd → Prop}
    (h : (g (d.setPlace (f d).1, (f d).2)).Returns (exec e) (d.setPlace (f d).1) Q) :
    (rank f >>= g).Returns (exec e) d Q :=
  returns_call rfl h

theorem acquire_run (z : ℕ) : (acquire a z).run (exec e) d = some (d.acquire a z) := rfl

theorem checkRelease_run (h : d.release a z = (true, t)) :
    (checkRelease e a z).run (exec e) d = some (.OK, t) := by
  have hrun : (release a z).run (exec e) d = some (true, t) := congrArg some h
  rw [checkRelease, run_bind, hrun]
  rfl

section Best

variable {τ β : Type}

/-- The zone that the loop of the policies ends with, and its score: zones that are busy are
passed over, and so is the zone that is held already. -/
def bestFree (d : Zbd) (zoneOf : τ → ℕ) (accept : τ → β → Option β) :
    List τ → Option ℕ → β → Option ℕ × β
  | [], kept, best => (kept, best)
  | x :: rest, kept, best =>
    if (d.zones (zoneOf x)).busy ∨ kept = some (zoneOf x) then
      bestFree d zoneOf accept rest kept best
    else match accept x best with
      | some best' => bestFree d zoneOf accept rest (some (zoneOf x)) best'
      | none => bestFree d zoneOf accept rest kept best

variable {zoneOf : τ → ℕ} {accept : Zbd → τ → β → Option β} {kept : Option ℕ} {best : β}

/-- The search keeps the best of the zones that are free. -/
theorem bestZone_run (haccept : ∀ t, d.Alike t → ∀ x b, accept t x b = accept d x b)
    (l : List τ) (hkept : ∀ z, kept = some z → (d.zones z).busy = false) :
    (bestZone e a zoneOf accept l kept best).run (exec e) (d.hold a kept) =
      some ((.OK, bestFree d zoneOf (accept d) l kept best),
        d.hold a (bestFree d zoneOf (accept d) l kept best).1) := by
  induction l generalizing kept best with
  | nil => rfl
  | cons x rest ih =>
    rw [bestZone, bestFree, run_bind, acquire_run]
    by_cases hbusy : (d.zones (zoneOf x)).busy = true ∨ kept = some (zoneOf x)
    · rw [if_pos hbusy, Zbd.acquire_of_busy (Zbd.hold_busy.mpr hbusy)]
      exact ih hkept
    · have hfree : (d.zones (zoneOf x)).busy = false := by simpa using (not_or.mp hbusy).1
      have hheld : ((d.hold a kept).zones (zoneOf x)).busy = false := by
        rw [← Bool.not_eq_true, Zbd.hold_busy]
        exact hbusy
      have hlook : accept ((d.hold a kept).hold a (some (zoneOf x))) x best = accept d x best :=
        haccept _ ((d.alike_refl.hold a kept).hold a _) x best
      have hnext : ∀ z, some (zoneOf x) = some z → (d.zones z).busy = false := by
        rintro z ⟨⟩
        exact hfree
      rw [if_neg hbusy, Zbd.acquire_of_free hheld]
      simp only [Option.bind_some, Bool.not_true, Bool.false_eq_true, if_false]
      rw [run_bind, look_run]
      simp only [Option.bind_some, hlook]
      cases haccepted : accept d x best with
      | none =>
        rw [run_bind, checkRelease_run (Zbd.release_hold hheld)]
        exact ih hkept
      | some best' =>
        cases kept with
        | none => exact ih hnext
        | some y =>
          have hne : y ≠ zoneOf x := fun hy => hbusy (.inr (congrArg some hy))
          rw [run_bind, checkRelease_run (Zbd.release_hold_of_ne (hkept y rfl) hne)]
          exact ih hnext

variable {scores : τ → β → Option β} {l : List τ}

theorem bestFree_some (h : (bestFree d zoneOf scores l kept best).1 = some z) :
    kept = some z ∨ ∃ x ∈ l, zoneOf x = z ∧ (d.zones z).busy = false ∧
      ∃ b b', scores x b = some b' := by
  induction l generalizing kept best with
  | nil => exact .inl h
  | cons x rest ih =>
    have hrest {k : Option ℕ} {b : β} (hk : k = some z → kept = some z ∨
        zoneOf x = z ∧ (d.zones z).busy = false ∧ ∃ b b', scores x b = some b')
        (hfree : (bestFree d zoneOf scores rest k b).1 = some z) :
        kept = some z ∨ ∃ w ∈ x :: rest, zoneOf w = z ∧ (d.zones z).busy = false ∧
          ∃ b b', scores w b = some b' := by
      obtain hkept | ⟨w, hw, hfound⟩ := ih hfree
      · obtain hkept | hx := hk hkept
        · exact .inl hkept
        · exact .inr ⟨x, List.mem_cons_self, hx⟩
      · exact .inr ⟨w, List.mem_cons_of_mem _ hw, hfound⟩
    rw [bestFree] at h
    split at h
    · exact hrest .inl h
    · next hbusy =>
      have hfree : (d.zones (zoneOf x)).busy = false := by simpa using (not_or.mp hbusy).1
      split at h
      · next best' hx =>
        refine hrest (fun hz => .inr ?_) h
        cases hz
        exact ⟨rfl, hfree, best, best', hx⟩
      · exact hrest .inl h

theorem bestFree_isSome (hkept : kept.isSome) :
    (bestFree d zoneOf scores l kept best).1.isSome := by
  induction l generalizing kept best with
  | nil => exact hkept
  | cons x rest ih =>
    rw [bestFree]
    split
    · exact ih hkept
    · split
      · exact ih rfl
      · exact ih hkept

theorem bestFree_none (h : (bestFree d zoneOf scores l none best).1 = none) :
    (∀ x ∈ l, (d.zones (zoneOf x)).busy = false → scores x best = none) ∧
      (bestFree d zoneOf scores l none best).2 = best := by
  induction l with
  | nil => simp [bestFree]
  | cons x rest ih =>
    rw [bestFree] at h ⊢
    rw [List.forall_mem_cons]
    split at h
    · next hbusy =>
      rw [if_pos hbusy]
      obtain ⟨hrest, hbest⟩ := ih h
      refine ⟨⟨fun hfree => ?_, hrest⟩, hbest⟩
      simp [hfree] at hbusy
    · next hbusy =>
      rw [if_neg hbusy]
      cases hx : scores x best with
      | some best' =>
        have hsome : (bestFree d zoneOf scores rest (some (zoneOf x)) best').1.isSome = true :=
          bestFree_isSome rfl
        rw [hx] at h
        rw [h] at hsome
        cases hsome
      | none =>
        rw [hx] at h
        obtain ⟨hrest, hbest⟩ := ih h
        exact ⟨⟨fun _ => rfl, hrest⟩, hbest⟩

end Best

def Zbd.Offers (d : Zbd) (e : Setup) (n z : ℕ) : Prop :=
  z ∈ e.ioZones ∧ (d.zones z).busy = false ∧ (d.zones z).eligible n = true

/-- A search from `d` ended in `t`: it holds the zone it found and changed nothing else but
the placement data. -/
structure Found (e : Setup) (a : Holder) (n : ℕ) (d : Zbd) (zone : Option ℕ) (t : Zbd) :
    Prop where
  device : ∃ p, t = (d.setPlace p).hold a zone
  offers : ∀ z ∈ zone, d.Offers e n z

theorem found_none (p : Placement) : Found e a n d none (d.setPlace p) :=
  ⟨⟨p, rfl⟩, by simp⟩

theorem Found.of_setPlace {zone : Option ℕ}
    (h : Found e a n (d.setPlace p) zone t) : Found e a n d zone t := by
  obtain ⟨q, hq⟩ := h.device
  exact ⟨⟨q, hq⟩, h.offers⟩

theorem bestZone_found {τ β : Type} {zoneOf : τ → ℕ} {accept : Zbd → τ → β → Option β}
    {l : List τ} {best : β}
    (haccept : ∀ t, d.Alike t → ∀ x b, accept t x b = accept d x b)
    (hgood : ∀ x ∈ l, ∀ b b', accept d x b = some b' →
      zoneOf x ∈ e.ioZones ∧ (d.zones (zoneOf x)).eligible n = true) :
    (bestZone e a zoneOf accept l none best).Returns (exec e) d
      fun r t => r.1 = .OK ∧ Found e a n d r.2.1 t ∧
        (r.2.1 = none → (∀ x ∈ l, (d.zones (zoneOf x)).busy = false → accept d x best = none) ∧
          r.2.2 = best) := by
  refine ⟨_, _, bestZone_run haccept l (by simp), rfl, ⟨⟨d.place, rfl⟩, ?_⟩, bestFree_none⟩
  intro z hz
  obtain h | ⟨x, hx, rfl, hfree, b, b', hb⟩ := bestFree_some hz
  · cases h
  · obtain ⟨hio, heligible⟩ := hgood x hx b b' hb
    exact ⟨hio, hfree, heligible⟩

end ZenFs.Device
