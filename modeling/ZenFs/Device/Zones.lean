import ZenFs.Device.Calls

/-!
What the calls write.

A call changes one zone at most, and of the device only what it is made for: every
statement that a part of the device stays as it was comes from one list.
-/

namespace ZenFs.Device

open Function Option Zbd

variable {b : Bool} {data : List UInt8} {m : Mutex} {s : Status} {y z : ℕ}
variable {e : Setup} {d t : Zbd}

/-- What a call may write: the device `d`, with that much of `t`. -/
def Call.writes : Call → Zbd → Zbd → Zbd
  | .acquire _ z, d, t =>
    { d.setZone z { d.zones z with busy := (t.zones z).busy } with holders := t.holders }
  | .release _ z, d, t =>
    { d.setZone z { d.zones z with busy := (t.zones z).busy } with holders := t.holders }
  | .setActiveZone _ h z, d, t => { d.putActiveZone h (some z) with holders := t.holders }
  | .clearActiveZone h, d, _ => d.putActiveZone h none
  | .newMetaLog _ _, d, t => { d with holders := t.holders }
  | .reset _ z, d, t =>
    { d.setZone z { d.zones z with
        wp := (t.zones z).wp, capacity := (t.zones z).capacity
        maxCapacity := (t.zones z).maxCapacity, lifetime := (t.zones z).lifetime
        resetCount := (t.zones z).resetCount } with
      dev := t.dev, backendCalls := t.backendCalls }
  | .finish _ z, d, t =>
    { d.setZone z { d.zones z with
        wp := (t.zones z).wp, capacity := (t.zones z).capacity } with
      backendCalls := t.backendCalls }
  | .close _ _, d, t => { d with backendCalls := t.backendCalls }
  | .append _ z _, d, t =>
    { d.setZone z { d.zones z with
        wp := (t.zones z).wp, capacity := (t.zones z).capacity } with
      dev := t.dev, backendCalls := t.backendCalls }
  | .tag z lifetime policy level, d, _ => d.tag z lifetime policy level
  | .use z f, d, _ => d.use z f
  | .place _, d, t => d.setPlace t.place
  | .body h f, d, _ => d.onBody h f
  | .lock m, d, _ => d.setLocked m true
  | .unlock m, d, _ => d.setLocked m false
  | .acquireWRLock h, d, t => d.setWrLocked h (t.wrLocked h)
  | .tryAcquireWRLock h, d, t => d.setWrLocked h (t.wrLocked h)
  | .releaseWRLock h, d, t => d.setWrLocked h (t.wrLocked h)
  | .startClosing h, d, t => (d.setWrLocked h (t.wrLocked h)).setClosing h (t.closing h)
  | .endClosing h, d, t => d.setClosing h (t.closing h)
  | .waitForOpenIOZoneToken _, d, t => { d with openIoZones := t.openIoZones }
  | .getActiveIOZoneTokenIfAvailable, d, t => { d with activeIoZones := t.activeIoZones }
  | .putOpenIOZoneToken, d, t => { d with openIoZones := t.openIoZones }
  | .putActiveIOZoneToken, d, t => { d with activeIoZones := t.activeIoZones }
  | .startMigrating, d, _ => { d.setLocked .migrateZone true with migrating := true }
  | .stopMigrating, d, _ => { d with migrating := false }
  | .setZonePos n, d, _ => { d with zonePos := n }
  | .shuffle, d, t => { d with shuffles := t.shuffles }
  | .setMetaLog l, d, _ => { d with metaLog := l }
  | .newFile i h, d, _ => { d.setPins h [i] with created := update d.created h true }
  | .getFile _ h, d, t => d.setPins h (t.pins h)
  | .dropFile _ h, d, t => d.setPins h (t.pins h)
  | .addLink h, d, t => d.setLinks h (t.links h)
  | .removeLink h, d, t => d.setLinks h (t.links h)
  | .setDeleted _, d, t => d.setPlace t.place
  | .setDeferredStatus _, d, t => { d with deferredStatus := t.deferredStatus }
  | .look, d, _ => d
  | .hang, d, _ => d

variable {o : Call} {r : o.Res}

/-- A call changes nothing but what `writes` lists. -/
theorem exec_writes (hr : exec e o d = some (r, t)) :
    t = o.writes d t := by
  cases o with
  | hang => cases hr
  | acquire a z =>
    have h : d.acquire a z = (r, t) := some.inj hr
    rw [Zbd.acquire] at h
    split at h <;> cases h <;> simp [Call.writes, Zbd.setZone]
  | release a z =>
    have h : d.release a z = (r, t) := some.inj hr
    rw [Zbd.release] at h
    split at h <;> cases h <;> simp [Call.writes, Zbd.setZone]
  | reset a z =>
    have h : d.reset e z = (r, t) := some.inj hr
    simp only [Zbd.reset] at h
    split at h
    · cases h
      simp [Call.writes, Zbd.setZone, Zbd.calledBackend]
    · split at h <;> cases h <;> simp [Call.writes, Zbd.setZone, Zbd.calledBackend]
  | finish a z =>
    have h : d.finish e z = (r, t) := some.inj hr
    simp only [Zbd.finish] at h
    split at h <;> cases h <;> simp [Call.writes, Zbd.setZone, Zbd.calledBackend]
  | close a z =>
    have h : d.close e z = (r, t) := some.inj hr
    simp only [Zbd.close] at h
    split at h <;> cases h <;> rfl
  | append a z data =>
    have h : d.append e z data = (r, t) := some.inj hr
    simp only [Zbd.append] at h
    split at h
    · cases h
      simp [Call.writes, Zbd.setZone]
    · split at h <;> cases h <;> simp [Call.writes, Zbd.setZone, Zbd.calledBackend]
  | lock | waitForOpenIOZoneToken | startMigrating | newFile =>
    simp only [exec] at hr; split at hr <;> cases hr; rfl
  | acquireWRLock h =>
    simp only [exec] at hr
    split at hr <;> cases hr
    simp [Call.writes, Zbd.setWrLocked]
  | tryAcquireWRLock h =>
    simp only [exec] at hr
    split at hr <;> cases hr <;> simp [Call.writes, Zbd.setWrLocked]
  | getActiveIOZoneTokenIfAvailable => simp only [exec] at hr; split at hr <;> cases hr <;> rfl
  | getFile i h =>
    simp only [exec] at hr
    split at hr <;> cases hr <;> simp [Call.writes, Zbd.setPins]
  | setDeferredStatus s =>
    cases hr
    rw [Zbd.setDeferredStatus]
    split <;> rfl
  | _ =>
    cases hr
    simp [Call.writes, Zbd.setWrLocked, Zbd.setClosing, Zbd.setPins, Zbd.setLinks, Zbd.setPlace,
      Zbd.putActiveZone, Zbd.handOver, Zbd.setBody]

def Call.zone : Call → Option ℕ
  | .acquire _ z => some z
  | .release _ z => some z
  | .reset _ z => some z
  | .finish _ z => some z
  | .append _ z _ => some z
  | .tag z _ _ _ => some z
  | .use z _ => some z
  | _ => none

theorem exec_zones_of_ne (hr : exec e o d = some (r, t))
    (hy : o.zone ≠ some y) : t.zones y = d.zones y := by
  have hupdate (z : ℕ) (zone : Zone) (hz : some z ≠ some y) :
      update d.zones z zone y = d.zones y :=
    update_of_ne (fun h => hz (congrArg some h.symm)) _ _
  rw [exec_writes hr]
  cases o with
  | acquire a z | release a z | reset a z | finish a z | append a z data
  | tag z lifetime policy level | use z f => exact hupdate z _ hy
  | _ => rfl

theorem Zbd.acquire_zone {a : Holder} {r : Bool} (h : d.acquire a z = (r, t)) :
    ∃ b, t.zones z = { d.zones z with busy := b } := by
  rw [Zbd.acquire] at h
  split at h <;> cases h
  · exact ⟨_, rfl⟩
  · exact ⟨true, update_self _ _ _⟩

theorem Zbd.release_zone {a : Holder} {r : Bool} (h : d.release a z = (r, t)) :
    t.zones z = { d.zones z with busy := false } := by
  rw [Zbd.release] at h
  split at h <;> cases h
  · exact update_self _ _ _
  · next hfree =>
    rw [Bool.not_eq_true] at hfree
    rw [← hfree]

theorem Zbd.reset_zone (h : d.reset e z = (s, t)) :
    t.zones z = d.zones z ∨ (t.zones z).wp = e.start z := by
  simp only [Zbd.reset] at h
  split at h <;> cases h
  · exact .inl rfl
  · right
    rw [Zbd.setZone]
    simp

theorem Zbd.finish_zone (h : d.finish e z = (s, t)) :
    t.zones z = d.zones z ∨ (t.zones z).wp = e.start z + e.zoneSize := by
  simp only [Zbd.finish] at h
  split at h <;> cases h
  · exact .inl rfl
  · right
    rw [Zbd.setZone]
    simp

theorem Zbd.append_zone (h : d.append e z data = (s, t)) :
    ∃ n, t.zones z = { d.zones z with
      wp := (d.zones z).wp + n, capacity := (d.zones z).capacity - n } := by
  simp only [Zbd.append] at h
  split at h
  · cases h
    exact ⟨0, rfl⟩
  · split at h <;> cases h
    · exact ⟨0, rfl⟩
    · exact ⟨_, update_self _ _ _⟩

theorem exec_start_le_wp (hr : exec e o d = some (r, t))
    (hy : e.start y ≤ (d.zones y).wp) : e.start y ≤ (t.zones y).wp := by
  by_cases hzone : o.zone = some y
  · cases o with
    | acquire a z =>
      cases hzone
      obtain ⟨b, hb⟩ := acquire_zone (some.inj hr)
      rw [hb]
      exact hy
    | release a z =>
      cases hzone
      rw [release_zone (some.inj hr)]
      exact hy
    | reset a z =>
      cases hzone
      obtain hsame | hwp := reset_zone (some.inj hr)
      · rw [hsame]
        exact hy
      · exact hwp.ge
    | finish a z =>
      cases hzone
      obtain hsame | hwp := finish_zone (some.inj hr)
      · rw [hsame]
        exact hy
      · omega
    | append a z data =>
      cases hzone
      obtain ⟨n, hn⟩ := append_zone (some.inj hr)
      rw [hn]
      exact hy.trans (Nat.le_add_right _ _)
    | tag z lifetime policy level =>
      cases hzone
      cases hr
      simpa [Zbd.tag, Zbd.setZone] using hy
    | use z f =>
      cases hzone
      cases hr
      simpa [Zbd.use, Zbd.setZone] using hy
    | _ => cases hzone
  · rw [exec_zones_of_ne hr hzone]
    exact hy

def Call.sparesBodies : Call → Bool
  | .setActiveZone _ _ _ => false
  | .clearActiveZone _ => false
  | .body _ _ => false
  | _ => true

/-- Which calls touch the search position, the lock of the lists, the bodies of files and the log
object in use. -/
structure Call.Framed (o : Call) (d t : Zbd) : Prop where
  zonePos : (∀ n, o ≠ .setZonePos n) → t.zonePos = d.zonePos
  levelwise : o ≠ .lock .levelwiseFiles →
    d.locked .levelwiseFiles = false → t.locked .levelwiseFiles = false
  bodies : o.sparesBodies = true → t.bodies = d.bodies
  metaLog : (∀ l, o ≠ .setMetaLog l) → t.metaLog = d.metaLog

theorem framed_setLocked (hm : o ≠ .lock m → b = false) :
    o.Framed d (d.setLocked m b) := by
  refine ⟨fun _ => rfl, fun ho hfree => ?_, fun _ => rfl, fun _ => rfl⟩
  by_cases h : .levelwiseFiles = m
  · subst h
    exact (update_self Mutex.levelwiseFiles b d.locked).trans (hm ho)
  · exact (update_of_ne h b d.locked).trans hfree

theorem exec_framed (hr : exec e o d = some (r, t)) : o.Framed d t := by
  rw [exec_writes hr]
  cases o with
  | setZonePos n => exact ⟨fun h => absurd rfl (h n), fun _ => id, fun _ => rfl, fun _ => rfl⟩
  | setMetaLog l => exact ⟨fun _ => rfl, fun _ => id, fun _ => rfl, fun h => absurd rfl (h l)⟩
  | setActiveZone | clearActiveZone | body => exact ⟨fun _ => rfl, fun _ => id, nofun, fun _ => rfl⟩
  | lock m => exact framed_setLocked fun h => absurd rfl h
  | unlock m => exact framed_setLocked fun _ => rfl
  | _ => exact ⟨fun _ => rfl, fun _ => id, fun _ => rfl, fun _ => rfl⟩

end ZenFs.Device
