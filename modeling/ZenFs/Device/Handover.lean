import ZenFs.Device.Footprint
import ZenFs.Device.Openings
import ZenFs.Device.Zones

/-!
`TakeMigrateZone` while other threads use the device.

The function counts the empty zones, takes a token and looks for an empty zone. The count has
the zones in it that somebody holds, so the search may come back with nothing, and the function
then follows a null pointer.
-/

namespace ZenFs.Device

open Library Task Judgement Relation Option

variable {o : Call} {best n : ℕ} {d : Zbd} {s t : Bool × Zbd} {still : Bool}
variable {Q : o.Res → Bool × Zbd → Prop}
variable {e : Setup} {a : Holder} {h : Handle}

def Call.takesToken : (o : Call) → o.Res → Bool → Bool
  | .getActiveIOZoneTokenIfAvailable, got, taken => taken || got
  | _, _, taken => taken

def Call.migrates : Call → Bool
  | .startMigrating => true
  | .stopMigrating => true
  | _ => false

/-- Some calls of threads that do not migrate. With `still` they make none once the token is
taken. -/
def meanwhile (e : Setup) (still : Bool) : Bool × Zbd → Bool × Zbd → Prop :=
  ReflTransGen fun s t => t.1 = s.1 ∧ (still = true → s.1 = false) ∧
    ∃ o r, o.migrates = false ∧ exec e o s.2 = some (r, t.2)

/-- The null pointer is not followed after the token was taken, and if there is no zone to return
then neither the token nor the flag is kept. -/
def HandsOver (e : Setup) (a : Holder) (h : Handle) (lifetime : Lifetime) (n : ℕ) (still : Bool)
    (ok : Call → Bool × Zbd → Prop) (d : Zbd) : Prop :=
  (takeMigrateZone e a h lifetime n).Amid (noting (exec e) Call.takesToken) (meanwhile e still) ok
    (fun o s => o = .hang → s.1 = false) (false, d)
    fun r s => r.2.1 = none → s.1 = false ∧ s.2.migrating = false

def FreeForToken (e : Setup) (o : Call) (s : Bool × Zbd) : Prop :=
  o = .getActiveIOZoneTokenIfAvailable → s.2.activeIoZones < e.maxNrActiveIoZones →
    s.2.zonePos < e.nrZones ∧ ∃ z, s.2.Opens e z

theorem meanwhile_keeps (h : meanwhile e still s t) :
    t.1 = s.1 ∧ t.2.migrating = s.2.migrating := by
  induction h with
  | refl => exact ⟨rfl, rfl⟩
  | tail _ hstep ih =>
    obtain ⟨htaken, -, o, r, ho, hr⟩ := hstep
    refine ⟨htaken.trans ih.1, Eq.trans ?_ ih.2⟩
    rw [exec_writes hr]
    cases o with
    | startMigrating | stopMigrating => cases ho
    | _ => rfl

theorem meanwhile_still (hs : s.1 = true) (h : meanwhile e true s t) : t = s := by
  induction h with
  | refl => rfl
  | tail _ hstep ih =>
    subst ih
    have hfalse := hstep.2.1 rfl
    rw [hs] at hfalse
    cases hfalse

section Steps

variable {ok : Call → Bool × Zbd → Prop}

theorem amid_call (ho : o ≠ .hang)
    (hq : ∀ t : Bool × Zbd, t.1 = s.1 → t.2.migrating = s.2.migrating → ok o t →
      ∀ r d, exec e o t.2 = some (r, d) → Q r (o.takesToken r t.1, d)) :
    (Task.op o).Amid (noting (exec e) Call.takesToken) (meanwhile e still) ok
      (fun o s => o = .hang → s.1 = false) s Q := by
  intro t ht
  obtain ⟨htaken, hmigrating⟩ := meanwhile_keeps ht
  refine ⟨fun h => absurd h ho, fun hok r u hr => ?_⟩
  obtain ⟨⟨_, d⟩, hexec, heq⟩ := map_eq_some_iff.mp hr
  cases heq
  exact hq t htaken hmigrating hok _ d hexec

abbrev untaken (e : Setup) (still : Bool) (ok : Call → Bool × Zbd → Prop) : Judgement Call.Res :=
  .amid (noting (exec e) Call.takesToken) (meanwhile e still) ok
    (fun o s => o = .hang → s.1 = false) (fun s => s.1 = false)

theorem untaken_call (ho : ∀ r b, o.takesToken r b = b) :
    (untaken e still ok).Calls o := by
  intro s hs
  by_cases hhang : o = .hang
  · subst hhang
    exact fun t ht => ⟨fun _ => (meanwhile_keeps ht).1.trans hs, fun _ => nofun⟩
  · apply amid_call hhang
    intro t ht _ _ r d _
    exact ⟨(ho r t.1).trans (ht.trans hs), trivial⟩

theorem ranks_untaken : Ranks a (untaken e still ok) := by
  constructor
  on_goal 1 => constructor
  all_goals
    intros
    exact untaken_call fun _ _ => rfl

theorem getBestOpenZoneMatch_untaken (lifetime : Lifetime) :
    (untaken e still ok).Admits (getBestOpenZoneMatch e a h lifetime best n) :=
  getBestOpenZoneMatch_admits_of ranks_untaken
    (Admits.holds (untaken_call fun _ _ => rfl) fun _ _ _ _ _ _ => untaken_call fun _ _ => rfl)
    lifetime best n

end Steps

theorem allocateForMigration_returns (hpos : d.zonePos < e.nrZones)
    (hopens : ∃ z, d.Opens e z) (s : Status) (zone : Option ℕ) :
    (do
      let (t, new) ← allocateEmptyZone e a ((← look).place.info h).level
      match if t.ok then new else zone with
      | none => hang
      | some z =>
        call (.unlock .migrateZone)
        return (s, some z, true)).Returns (exec e) d
      fun (r : Status × Option ℕ × Bool) _ => r.2.1 ≠ none := by
  apply (allocateEmptyZone_taking fun _ => hpos).seq
  rintro ⟨_, new⟩ t ⟨rfl, -, hcomplete, -⟩
  cases new with
  | none =>
    obtain ⟨z, hz⟩ := hopens
    exact absurd hz (hcomplete rfl z)
  | some z =>
    apply returns_call rfl
    exact .ret nofun

/-- Whatever other threads do up to the moment the token is taken: if an empty zone is free then
and nobody comes in between, `TakeMigrateZone` hands its zone over safely. -/
theorem takeMigrateZone_handsOver (e : Setup) (a : Holder) (h : Handle) (lifetime : Lifetime)
    (n : ℕ) (d : Zbd) : HandsOver e a h lifetime n true (FreeForToken e) d := by
  have huntaken {o : Call} (ho : ∀ r b, o.takesToken r b = b) {s : Bool × Zbd}
      (hs : s.1 = false) := (untaken_call ho : (untaken e true (FreeForToken e)).Calls o) s hs
  apply (huntaken (fun _ _ => rfl) rfl).seq
  rintro _ s₁ ⟨hs₁, -⟩
  apply (getBestOpenZoneMatch_untaken lifetime s₁ hs₁).seq
  rintro ⟨s, best, zone⟩ s₂ ⟨hs₂, -⟩
  dsimp only
  split
  · next hfound =>
    apply (huntaken (fun _ _ => rfl) hs₂).seq
    rintro _ s₃ -
    intro hnone
    dsimp only at hnone
    rw [hnone, isSome_none, Bool.and_false] at hfound
    cases hfound
  · apply (huntaken (fun _ _ => rfl) hs₂).seq
    rintro d s₃ ⟨hs₃, -⟩
    -- the token: it is taken only where an empty zone is free
    have htoken : (if d.getEmptyZoneCount e > 0 then getActiveIOZoneTokenIfAvailable
        else pure false : DevTask Bool).Amid (noting (exec e) Call.takesToken) (meanwhile e true)
        (FreeForToken e) (fun o s => o = .hang → s.1 = false) s₃ fun got t => t.1 = got ∧
          (got = true → t.2.zonePos < e.nrZones ∧ ∃ z, t.2.Opens e z) := by
      split
      · apply amid_call (o := .getActiveIOZoneTokenIfAvailable) (by rintro ⟨⟩)
        intro t ht _ hok r u hr
        refine ⟨by rw [ht, hs₃]; rfl, fun hgot => ?_⟩
        rw [exec] at hr
        split at hr
        · next hlt =>
          obtain ⟨hpos, z, hz⟩ := hok rfl hlt
          cases hr
          exact ⟨hpos, z, hz⟩
        · cases hr
          cases hgot
      · exact ⟨hs₃, (by rintro ⟨⟩)⟩
    apply htoken.seq
    intro got s₄ hs₄
    cases got with
    | true =>
      obtain ⟨hpos, hopens⟩ := hs₄.2 rfl
      apply Amid.of_returns
      · exact fun s t hs ht => meanwhile_still hs ht
      · intro o s r t hs hr
        obtain ⟨_, -, heq⟩ := map_eq_some_iff.mp hr
        cases heq
        rw [hs]
        cases o <;> rfl
      · rintro o s r t hr rfl
        cases hr
      · exact hs₄.1
      · have hreturns := (allocateForMigration_returns (a := a) (h := h) hpos hopens s zone).noting
          Call.takesToken s₄.1
        exact hreturns.mono fun r t hr hnone => absurd hnone hr
    | false =>
      apply Amid.seq (Q := fun _ t => t.1 = false ∧ t.2.migrating = false)
      · apply amid_call (o := .stopMigrating) (by rintro ⟨⟩)
        rintro t ht - - r d ⟨⟩
        exact ⟨ht.trans hs₄.1, rfl⟩
      · intro _ s₅ hs₅
        apply Amid.seq (Q := fun _ t => t.1 = false ∧ t.2.migrating = false)
        · apply amid_call (o := .unlock .migrateZone) (by rintro ⟨⟩)
          rintro t ht hmigrating - r d ⟨⟩
          exact ⟨ht.trans hs₅.1, hmigrating.trans hs₅.2⟩
        · exact fun _ _ hs _ => hs

def testedToken (e : Setup) : Call → Bool × Zbd → Bool
  | .getActiveIOZoneTokenIfAvailable, s => s.2.zonePos < e.nrZones ∧ 0 ∈ e.ioZones ∧
    (s.2.zones 0).busy = false ∧ (s.2.zones 0).isEmpty (e.start 0) = true
  | _, _ => true

/-- On the empty device the token is taken with all zones free, and the first is handed over. -/
theorem takeMigrateZone_handsOver_smallDevice :
    HandsOver (smallSetup .lifetimeBased) me 1 .notSet 16 true
      (FreeForToken (smallSetup .lifetimeBased)) smallDevice ∧
    (takeMigrateZone (smallSetup .lifetimeBased) me 1 .notSet 16).Heeds
      (noting (exec (smallSetup .lifetimeBased)) Call.takesToken)
      (FreeForToken (smallSetup .lifetimeBased)) (false, smallDevice) (fun _ _ => True) ∧
    (takeMigrateZone (smallSetup .lifetimeBased) me 1 .notSet 16).Returns
      (noting (exec (smallSetup .lifetimeBased)) Call.takesToken) (false, smallDevice)
      fun r s => s.1 = true ∧ r.2.1 = some 0 := by
  let e := smallSetup .lifetimeBased
  refine ⟨takeMigrateZone_handsOver _ _ _ _ _ _, ?_, ?_⟩
  · have hrun : ((takeMigrateZone e me 1 .notSet 16).run
        (fun o s => if testedToken e o s then noting (exec e) Call.takesToken o s else none)
        (false, smallDevice)).isSome = true := by decide +kernel
    obtain ⟨⟨r, s⟩, hr⟩ := isSome_iff_exists.mp hrun
    refine Heeds.of_tested_run (fun o s ho => ?_) hr trivial
    rintro rfl -
    obtain ⟨hpos, hopens⟩ := of_decide_eq_true ho
    exact ⟨hpos, 0, hopens⟩
  · have hrun : ((takeMigrateZone e me 1 .notSet 16).run (noting (exec e) Call.takesToken)
        (false, smallDevice)).any (fun p => p.2.1 && p.1.2.1 == some 0) = true := by decide +kernel
    obtain ⟨⟨r, s⟩, hr, hq⟩ := (any_eq_true _ _).mp hrun
    exact ⟨r, s, hr, by simpa using hq⟩

def fillZone : List (Operation × ℕ) := openSst 0 [1] ++ [(.bufferedAppend 0 (List.replicate 64 7), 9)]

/-- The last empty zone is held by a writer that has not written to it yet. -/
theorem takeMigrateZone_followsNull : ∃ d, Reaches (step (smallSetup .lifetimeBased)) anyStep
    smallDevice d ∧
    ¬ HandsOver (smallSetup .lifetimeBased) me 1 .notSet 16 false (fun _ _ => True) d := by
  let e := smallSetup .lifetimeBased
  obtain ⟨d, hd, hp⟩ : ∃ d, Reaches (step e) anyStep smallDevice d ∧
      (((takeMigrateZone e me 1 .notSet 16).blocked (noting (exec e) Call.takesToken)
        (false, d)).any fun p => p.1 matches .hang && p.2.1) = true :=
    Reaches.of_any fillZone (by decide +kernel)
  refine ⟨d, hd, fun h => ?_⟩
  obtain ⟨⟨o, t⟩, ho, hhang⟩ := (any_eq_true _ _).mp hp
  have hP := h.of_blocked (fun _ => .refl) (fun _ _ => trivial) ho
  simp only [Bool.and_eq_true] at hhang
  cases o with
  | hang =>
    rw [hP rfl] at hhang
    cases hhang.2
  | _ => cases hhang.1

end ZenFs.Device
