import ZenFs.Device.Files
import ZenFs.Device.Zones

/-!
Persisting a record leaves the IO zones alone.

The log writes to the metadata zones: to the one it has, and after a roll to a new one.
-/

namespace ZenFs.Device

open Library Task

variable {l new old : MetaLogObject} {m : Mutex} {o : Call} {z : ℕ} {r : o.Res}
variable {e : Setup} {a : Holder} {h : Handle} {d₀ d t : Zbd}

/-- Between `d` and `t` no IO zone and no file was touched, and the log is in a metadata zone. -/
structure Aside (e : Setup) (d t : Zbd) : Prop where
  zones : ∀ z < e.nrZones, t.zones z = d.zones z
  wp : (∀ z, e.start z ≤ (d.zones z).wp) → ∀ z, e.start z ≤ (t.zones z).wp
  zonePos : t.zonePos = d.zonePos
  levelwise : d.locked .levelwiseFiles = false → t.locked .levelwiseFiles = false
  bodies : t.bodies = d.bodies
  log : e.nrZones ≤ t.metaLog.zone

structure Call.OnMeta (e : Setup) (o : Call) : Prop where
  zone : ∀ z, o.zone = some z → e.nrZones ≤ z
  zonePos : ∀ n, o ≠ .setZonePos n
  levelwise : o ≠ .lock .levelwiseFiles
  bodies : o.sparesBodies = true
  log : ∀ l, o = .setMetaLog l → e.nrZones ≤ l.zone

theorem aside_refl (hlog : e.nrZones ≤ d.metaLog.zone) : Aside e d d :=
  ⟨fun _ _ => rfl, id, rfl, id, rfl, hlog⟩

theorem Aside.call (hd : Aside e d₀ d) (ho : o.OnMeta e)
    (hr : exec e o d = some (r, t)) : Aside e d₀ t := by
  have hframed := exec_framed hr
  constructor
  · intro z hz
    rw [exec_zones_of_ne hr fun hzone => not_lt.mpr (ho.zone z hzone) hz]
    exact hd.zones z hz
  · exact fun hwp z => exec_start_le_wp hr (hd.wp hwp z)
  · exact (hframed.zonePos ho.zonePos).trans hd.zonePos
  · exact fun hfree => hframed.levelwise ho.levelwise (hd.levelwise hfree)
  · exact (hframed.bodies ho.bodies).trans hd.bodies
  · by_cases hset : ∃ l, o = .setMetaLog l
    · obtain ⟨l, rfl⟩ := hset
      cases hr
      exact ho.log l rfl
    · rw [hframed.metaLog fun l hl => hset ⟨l, hl⟩]
      exact hd.log

/-- A program that touches metadata zones only. -/
abbrev KeepsAside (e : Setup) (d₀ : Zbd) {α : Type} (m : DevTask α) (Q : α → Prop) : Prop :=
  m.Keeps (exec e) (Aside e d₀) Q

theorem keepsAside_call (ho : o.OnMeta e) : KeepsAside e d₀ (call o) fun _ => True :=
  .op fun _ _ _ hs hr => ⟨hs.call ho hr, trivial⟩

theorem keepsAside_look : KeepsAside e d₀ look (Aside e d₀) :=
  .op fun s r t hs hr => by
    cases hr
    exact ⟨hs, hs⟩

theorem onMeta_of_zone (hz : e.nrZones ≤ z) (hzone : o.zone = some z)
    (hbodies : o.sparesBodies = true) : o.OnMeta e where
  zone y hy := by
    rw [hzone] at hy
    cases hy
    exact hz
  zonePos := by
    rintro n rfl
    cases hzone
  levelwise := by
    rintro rfl
    cases hzone
  bodies := hbodies
  log := by
    rintro l rfl
    cases hzone

theorem onMeta_lock (hm : m ≠ .levelwiseFiles) : Call.OnMeta e (.lock m) :=
  ⟨nofun, nofun, fun h => hm (Call.lock.inj h), rfl, nofun⟩

theorem onMeta_unlock : Call.OnMeta e (.unlock m) := ⟨nofun, nofun, nofun, rfl, nofun⟩

theorem onMeta_newMetaLog : Call.OnMeta e (.newMetaLog a l) :=
  ⟨nofun, nofun, nofun, rfl, nofun⟩

theorem onMeta_setMetaLog (hl : e.nrZones ≤ l.zone) :
    Call.OnMeta e (.setMetaLog l) :=
  ⟨nofun, nofun, nofun, rfl, fun _ h => Call.setMetaLog.inj h ▸ hl⟩

theorem keepsAside_checkRelease (hz : e.nrZones ≤ z) :
    KeepsAside e d₀ (checkRelease e a z) fun _ => True := by
  refine (keepsAside_call (onMeta_of_zone hz rfl rfl)).bind fun r _ => ?_
  split <;> exact .ret trivial

theorem allocateMeta_keepsAside (l : List ℕ) (hl : ∀ z ∈ l, e.nrZones ≤ z) :
    KeepsAside e d₀ (allocateMeta e a l) fun r => ∀ z, r.2 = some z → e.nrZones ≤ z := by
  induction l with
  | nil => exact .ret nofun
  | cons z rest ih =>
    have hz : e.nrZones ≤ z := hl z List.mem_cons_self
    have hrest := ih fun y hy => hl y (List.mem_cons_of_mem z hy)
    have hfound : KeepsAside e d₀ (pure (.OK, some z)) fun r : Status × Option ℕ =>
        ∀ y, r.2 = some y → e.nrZones ≤ y := by
      rintro _ ⟨⟩
      exact hz
    refine (keepsAside_call (onMeta_of_zone hz rfl rfl)).bind fun got _ => ?_
    split
    · exact hrest
    · refine keepsAside_look.bind fun s _ => ?_
      dsimp only
      split
      · exact hrest
      · split
        · exact hfound
        · refine (keepsAside_call (onMeta_of_zone hz rfl rfl)).bind fun s _ => ?_
          split
          · exact hfound
          · refine (keepsAside_checkRelease hz).bind fun s _ => ?_
            split
            · exact .ret nofun
            · exact hrest

theorem unlessFull_keepsAside {m : DevTask Status}
    (hm : KeepsAside e d₀ m fun _ => True) : KeepsAside e d₀ (unlessFull z m) fun _ => True := by
  refine keepsAside_look.bind fun s _ => ?_
  split
  · exact .ret trivial
  · exact hm.bind fun _ _ => .ret trivial

theorem writeRoll_keepsAside {r : RollRecords} (hold : e.nrZones ≤ old.zone)
    (hnew : e.nrZones ≤ new.zone) :
    KeepsAside e d₀ (writeRoll old new r) fun _ => True := by
  have hcall {o : Call} {z : ℕ} (hz : e.nrZones ≤ z) (hzone : o.zone = some z)
      (hbodies : o.sparesBodies = true) : KeepsAside e d₀ (call o) fun _ => True :=
    keepsAside_call (onMeta_of_zone hz hzone hbodies)
  refine (unlessFull_keepsAside (hcall hold rfl rfl)).bind fun _ _ => ?_
  refine (unlessFull_keepsAside (hcall hold rfl rfl)).bind fun _ _ => ?_
  refine (hcall hnew rfl rfl).bind fun s _ => ?_
  split
  · exact .ret trivial
  · refine (hcall hnew rfl rfl).bind fun s _ => ?_
    split
    · exact (hcall hold rfl rfl).bind fun _ _ => .ret trivial
    · exact .ret trivial

theorem rollMetaZoneLocked_keepsAside :
    KeepsAside e d₀ (rollMetaZoneLocked e a) fun _ => True := by
  have hzones : ∀ z ∈ e.metaZones, e.nrZones ≤ z := fun z hz => (List.mem_range'_1.mp hz).1
  refine (allocateMeta_keepsAside e.metaZones hzones).bind fun r hr => ?_
  obtain ⟨s, zone⟩ := r
  dsimp only
  split
  · exact .ret trivial
  · cases zone with
    | none => exact .ret trivial
    | some z =>
      have hz : e.nrZones ≤ z := hr z rfl
      refine keepsAside_look.bind fun d hd => ?_
      have hold : e.nrZones ≤ d.metaLog.zone := hd.log
      refine (keepsAside_call (onMeta_newMetaLog)).bind fun _ _ => ?_
      refine (keepsAside_call (onMeta_setMetaLog hz)).bind fun _ _ => ?_
      refine (writeRoll_keepsAside hold hz).bind fun s _ => ?_
      exact (keepsAside_call (onMeta_of_zone hold rfl rfl)).bind fun _ _ => .ret trivial

theorem persistRecord_keepsAside : KeepsAside e d₀ (persistRecord e a) fun _ => True := by
  refine (keepsAside_call (onMeta_lock (by decide))).bind fun _ _ => ?_
  refine keepsAside_look.bind fun d hd => ?_
  refine (keepsAside_call (onMeta_of_zone hd.log rfl rfl)).bind fun s _ => ?_
  have hroll : KeepsAside e d₀
      (if s.isNoSpace then rollMetaZoneLocked e a else pure s) fun _ => True := by
    split
    · exact rollMetaZoneLocked_keepsAside
    · exact .ret trivial
  refine hroll.bind fun s _ => ?_
  exact (keepsAside_call (onMeta_unlock)).bind fun _ _ => .ret trivial

theorem syncFileMetadata_aside (hlog : e.nrZones ≤ d.metaLog.zone) :
    (syncFileMetadata e a h).Ends (exec e) d fun _ t => Aside e d t := by
  have hkeeps : KeepsAside e d (syncFileMetadata e a h) fun _ => True := by
    refine (keepsAside_call (onMeta_lock (by decide))).bind fun _ _ => ?_
    refine keepsAside_look.bind fun s _ => ?_
    have hpersist : KeepsAside e d
        (if (s.place.info h).isDeleted then pure .OK else persistRecord e a) fun _ => True := by
      split
      · exact .ret trivial
      · exact persistRecord_keepsAside
    refine hpersist.bind fun s _ => ?_
    exact (keepsAside_call (onMeta_unlock)).bind fun _ _ => .ret trivial
  exact (hkeeps.ends (aside_refl hlog)).mono fun _ _ ht => ht.1

end ZenFs.Device
