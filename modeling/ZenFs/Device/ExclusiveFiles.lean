import ZenFs.Device.Exclusive

/-!
Allocation, the metadata log and the work on files, and who holds the zones meanwhile.
-/

namespace ZenFs.Device

open Library Task Judgement Discipline Function Safe

variable {T : OwnerTable} {b got : Bool} {best minCapacity spins : ℕ}
variable {cur l new old : MetaLogObject} {ioType : IOType} {lifetime : Lifetime}
variable {m : DevTask Status} {o : Call} {other : Option MetaLogObject} {r : RollRecords}
variable {vs : ℕ → Holding} {x : Option ℕ}
variable {e : Setup} {i : ℕ} {h : Handle} {v w : Holding} {z : ℕ}

/-- The program ends with the zone it returns and no other one more than before; when it
fails, it returns none. -/
def Gives (e : Setup) (i : ℕ) (m : DevTask (Status × Option ℕ)) (v : Holding) : Prop :=
  (ownership e).Safe i m v fun r w => w = v.take r.2 ∧ (r.1.ok = false → r.2 = none)

theorem own_give (s : Status) :
    (ownership e).Safe i (Task.ret (s, none) : DevTask (Status × Option ℕ)) v
      fun r w => w = v.take r.2 ∧ (r.1.ok = false → r.2 = none) := .ret ⟨rfl, fun _ => rfl⟩

theorem openNewZone_gives :
    Gives e i (openNewZone e (.thread i) h spins lifetime got) v := by
  have hwait : Returns e i (if got then pure .OK else waitForActiveToken e (.thread i) spins) v := by
    exact admits_ite_ret (waitForActiveToken_returns)
  apply bind_admits hwait
  intro s
  split
  · refine own_then rfl rfl fun _ => ?_
    exact own_give s
  · refine own_then rfl rfl fun d => ?_
    apply Safe.seq (allocateEmptyZone_finds)
    rintro ⟨_, zone⟩ w ⟨rfl, rfl⟩
    cases zone with
    | none =>
      refine own_then rfl rfl fun _ => ?_
      refine own_then rfl rfl fun _ => ?_
      exact own_give .OK
    | some z =>
      refine own_then rfl rfl fun d => ?_
      refine own_then rfl rfl fun _ => ?_
      exact .ret ⟨rfl, (by rintro ⟨⟩)⟩

theorem reconsider_gives (zone : Option ℕ) :
    (ownership e).Safe i (reconsider e (.thread i) h spins lifetime best zone) (v.take zone)
      fun r w => w = v.take r.2 ∧ (r.1.ok = false → r.2 = none) := by
  refine own_then rfl rfl fun got => ?_
  cases zone with
  | none => exact openNewZone_gives
  | some z =>
    dsimp only
    split
    · exact .ret ⟨rfl, (by rintro ⟨⟩)⟩
    · refine own_then rfl rfl fun d => ?_
      split
      · exact own_giveBack (openNewZone_gives)
      · split
        · refine own_then rfl rfl fun _ => ?_
          exact .ret ⟨rfl, (by rintro ⟨⟩)⟩
        · exact .ret ⟨rfl, (by rintro ⟨⟩)⟩

theorem allocateIOZoneLocked_gives :
    Gives e i (allocateIOZoneLocked e (.thread i) h spins lifetime ioType) v := by
  have hfinish : Returns e i
      (if ioType ≠ .wal then applyFinishThreshold e (.thread i) else pure .OK) v := by
    split
    · exact admits_ite_ret (finishBelowThreshold_returns)
    · exact admits_ret _
  apply bind_admits own_place
  intro _
  refine own_then rfl rfl fun d => ?_
  dsimp only
  split
  · exact own_give _
  · apply bind_admits hfinish
    intro s
    split
    · exact own_give s
    · refine own_then rfl rfl fun _ => ?_
      refine own_then rfl rfl fun d => ?_
      apply Safe.seq (getBestOpenZoneMatch_matches)
      rintro ⟨_, best, zone⟩ w ⟨rfl, rfl⟩
      rw [if_ok]
      split
      · exact reconsider_gives zone
      · cases zone with
        | none =>
          refine own_then rfl rfl fun _ => ?_
          exact own_give .OK
        | some z => exact .ret ⟨rfl, (by rintro ⟨⟩)⟩

theorem allocateIOZone_gives :
    Gives e i (allocateIOZone e (.thread i) h spins lifetime ioType) v := by
  refine own_then rfl rfl fun _ => ?_
  apply Safe.seq (allocateIOZoneLocked_gives)
  intro r w hr
  refine own_then rfl rfl fun _ => ?_
  exact .ret hr

theorem takeMigrateZone_finds :
    Finds e i (takeMigrateZone e (.thread i) h lifetime minCapacity) (·.1) v none := by
  refine own_then rfl rfl fun _ => ?_
  apply Safe.seq (getBestOpenZoneMatch_matches)
  rintro ⟨_, best, zone⟩ w ⟨rfl, rfl⟩
  cases zone with
  | some z =>
    refine own_then rfl rfl fun _ => ?_
    exact .ret ⟨rfl, rfl⟩
  | none =>
    refine own_then rfl rfl fun d => ?_
    have htoken : Returns e i (if d.getEmptyZoneCount e > 0 then
        getActiveIOZoneTokenIfAvailable else pure false) v := by
      split
      · exact own_call rfl rfl
      · exact admits_ret _
    apply bind_admits htoken
    intro token
    split
    · refine own_then rfl rfl fun d => ?_
      apply Safe.seq (allocateEmptyZone_finds)
      rintro ⟨_, new⟩ w ⟨rfl, rfl⟩
      cases new with
      | none => exact own_hang
      | some z =>
        refine own_then rfl rfl fun _ => ?_
        exact .ret ⟨rfl, rfl⟩
    · refine own_then rfl rfl fun _ => ?_
      refine own_then rfl rfl fun _ => ?_
      exact .ret ⟨rfl, rfl⟩

theorem own_releaseMigrateZone (zone : Option ℕ) :
    (ownership e).Safe i (releaseMigrateZone e (.thread i) zone) (v.take zone)
      fun _ w => w = v := by
  refine own_then rfl rfl fun _ => ?_
  refine own_then rfl rfl fun _ => ?_
  apply Safe.seq (Q := fun _ w => w = v)
  · cases zone with
    | none => exact .ret rfl
    | some z => exact (own_checkRelease (.refl _)).mono fun _ _ hw => hw.2
  · rintro s _ rfl
    refine own_then rfl rfl fun _ => ?_
    exact .ret rfl

/-- A zone that is in use stays acquired, so the thread may end with more zones. -/
theorem allocateMeta_gives {l : List ℕ} :
    (ownership e).Safe i (allocateMeta e (.thread i) l) v fun r w =>
      (∃ more, w = (v.withZones (more ++ v.zones)).take r.2) ∧ (r.1.ok = false → r.2 = none) := by
  induction l generalizing v with
  | nil => exact .ret ⟨⟨[], rfl⟩, fun _ => rfl⟩
  | cons z rest ih =>
    apply own_acquire_then ih
    refine own_then rfl rfl fun d => ?_
    dsimp only
    split
    · apply ih.mono
      rintro r w ⟨⟨more, rfl⟩, hr⟩
      refine ⟨⟨more ++ [z], ?_⟩, hr⟩
      simp [Holding.take, Holding.withZones]
    · split
      · exact .ret ⟨⟨[], rfl⟩, (by rintro ⟨⟩)⟩
      · apply bind_admits (own_actOn rfl rfl (mem_take v z))
        intro s
        split
        · exact .ret ⟨⟨[], rfl⟩, (by rintro ⟨⟩)⟩
        · exact own_giveBack ih

theorem own_lookLog (hv : v.logs = some (cur, other)) :
    (ownership e).Safe i look v fun d w => d.metaLog = cur ∧ w = v := by
  apply own_free rfl
  rintro vs d _ _ rfl hd _ ⟨⟩
  refine ⟨vs i, ?_, ((hd.knows i).logs _ _ hv).current, rfl⟩
  rw [update_eq_self]
  exact hd

theorem own_logAct (ho : o.passive = true) (hacts : o.acts = some (.log l.serial, l.zone))
    (hv : v.logs = some (cur, other)) (hl : l = cur ∨ other = some l) :
    Returns e i (Task.op o) v := by
  apply own_act ho
  rintro vs T rfl hd a z ha
  rw [hacts] at ha
  cases ha
  obtain ⟨-, hcur, hother⟩ := (hd.knows i).logs _ _ hv
  refine ⟨?_, nofun⟩
  rcases hl with rfl | hl
  · rw [← hcur]
    exact hd.log
  · exact (hother l hl).2

theorem unlessFull_returns (hm : Returns e i m v) :
    Returns e i (unlessFull z m) v := by
  exact admits_then own_look fun _ => admits_bind hm fun _ => admits_ret _

theorem writeRoll_returns
    (hv : v.logs = some (new, some old)) : Returns e i (writeRoll old new r) v := by
  apply admits_bind (unlessFull_returns (own_logAct rfl rfl hv (.inr rfl)))
  intro _
  apply admits_bind (unlessFull_returns (own_logAct rfl rfl hv (.inr rfl)))
  intro _
  refine admits_then (own_logAct rfl rfl hv (.inl rfl)) fun s => ?_
  apply admits_bind (own_logAct rfl rfl hv (.inl rfl))
  intro s
  split
  · exact admits_bind (own_logAct rfl rfl hv (.inr rfl)) fun _ => admits_ret _
  · exact admits_ret _

theorem handOver_ownerTable {d : Zbd} {a b : Holder} (hz : d.holders z = [a])
    (hb : (d.zones z).busy = true) :
    (d.handOver a b z).ownerTable = d.ownerTable.pass z (some b) := by
  rw [← pass_ownerTable d (d.zones z) (some b) hb, Zbd.setZone, update_eq_self,
    Zbd.handOver, hz, List.erase_cons_head]
  rfl

theorem holders_of_take (hvs : vs i = v.take (some z)) (hd : Owned vs T) :
    T.holders z = [.thread i] :=
  (hd.knows i).zones z (hvs ▸ mem_take v z)

theorem own_newMetaLog (hv : v.logs = some (cur, none))
    (hne : l.serial ≠ cur.serial) :
    (ownership e).Safe i (call (.newMetaLog (.thread i) l)) (v.take (some l.zone))
      fun _ w => w = v.withLogs (some (cur, some l)) := by
  apply own_op
  · intro vs d hvs hd
    apply entitled_of_held hd rfl (holders_of_take hvs hd)
    rintro j ⟨⟩
    rfl
  · rintro vs d _ _ hvs hd _ ⟨⟩
    have hz := holders_of_take hvs hd
    refine ⟨_, ?_, rfl⟩
    rw [handOver_ownerTable hz (hd.held hz)]
    have hlogs : (vs i).logs = some (cur, none) := by rw [hvs]; exact hv
    have hmade := hd.logMade (by rw [hvs]; exact .refl _) hlogs hne
    rw [hvs] at hmade
    exact hmade

theorem own_setMetaLog (hv : v.logs = some (cur, some l)) :
    (ownership e).Safe i (call (.setMetaLog l)) v
      fun _ w => w = v.withLogs (some (l, some cur)) := by
  apply own_free rfl
  rintro vs d _ _ rfl hd _ ⟨⟩
  exact ⟨_, hd.logSet hv, rfl⟩

theorem own_releaseLog (hv : v.logs = some (cur, some l)) :
    (ownership e).Safe i (release (.log l.serial) l.zone) v
      fun r w => r = true ∧ w = v.withLogs (some (cur, none)) := by
  apply own_release
  · exact nofun
  · rintro vs T rfl hd
    exact ⟨(((hd.knows i).logs _ _ hv).other l rfl).2, hd.logReleased hv⟩

/-- The thread has a log object and perhaps more zones. -/
def Holding.Logging (v w : Holding) : Prop :=
  ∃ more cur, w = ⟨more ++ v.zones, v.session, some (cur, none)⟩

theorem own_rollMetaZoneLocked (hv : v.Logging w) :
    (ownership e).Safe i (rollMetaZoneLocked e (.thread i)) w fun _ u => v.Logging u := by
  obtain ⟨more, cur, rfl⟩ := hv
  apply Safe.seq (allocateMeta_gives)
  rintro ⟨s, zone⟩ w ⟨⟨extra, rfl⟩, hnone⟩
  have hlog : v.Logging ⟨extra ++ (more ++ v.zones), v.session, some (cur, none)⟩ :=
    ⟨extra ++ more, cur, by rw [List.append_assoc]⟩
  dsimp only
  cases hs : s.ok with
  | false =>
    obtain rfl := hnone hs
    exact .ret hlog
  | true =>
    cases zone with
    | none => exact .ret hlog
    | some z =>
      apply (own_lookLog rfl).seq
      rintro d _ ⟨rfl, rfl⟩
      apply (own_newMetaLog rfl (Nat.succ_ne_self _)).seq
      rintro _ _ rfl
      apply (own_setMetaLog rfl).seq
      rintro _ _ rfl
      apply bind_admits (writeRoll_returns rfl)
      intro s
      apply (own_releaseLog rfl).seq
      rintro _ _ ⟨-, rfl⟩
      exact .ret ⟨extra ++ more, _, by rw [List.append_assoc]; rfl⟩

theorem persistRecord_returns (hv : v.logs = none) :
    Returns e i (persistRecord e (.thread i)) v := by
  have hlock : (ownership e).Safe i (call (.lock .metadataSync)) v
      fun _ w => ∃ cur, w = v.withLogs (some (cur, none)) := by
    apply own_free rfl
    rintro vs d r t rfl hd _ hr
    simp only [exec] at hr
    split at hr <;> cases hr
    next hfree =>
    refine ⟨_, ?_, d.metaLog, rfl⟩
    have := hd.syncLocked (i := i) (Bool.eq_false_iff.mpr hfree)
    simpa [Zbd.setLocked, Zbd.ownerTable] using this
  have hunlock : ∀ w, v.Logging w → (ownership e).Safe i (call (.unlock .metadataSync)) w
      fun _ u => u = v := by
    rintro _ ⟨more, cur, rfl⟩
    apply own_free rfl
    rintro vs d _ _ hvs hd _ ⟨⟩
    have hless := hd.lessZones (l := v.zones) (by rw [hvs]; exact List.sublist_append_right _ _)
    have hun := hless.syncUnlocked (by rw [update_self, hvs]; rfl)
    rw [update_self, hvs] at hun
    have hback : (Holding.withLogs (Holding.withZones
        ⟨more ++ v.zones, v.session, some (cur, none)⟩ v.zones) none) = v := by
      cases v
      cases hv
      rfl
    rw [hback] at hun
    simpa [Zbd.setLocked, Zbd.ownerTable] using hun
  apply hlock.seq
  rintro _ _ ⟨cur, rfl⟩
  apply (own_lookLog rfl).seq
  rintro d _ ⟨rfl, rfl⟩
  apply bind_admits (own_logAct rfl rfl rfl (.inl rfl))
  intro s
  have hlog : v.Logging (v.withLogs (some (d.metaLog, none))) := ⟨[], _, rfl⟩
  apply Safe.seq (Q := fun _ w => v.Logging w)
  · split
    · exact own_rollMetaZoneLocked hlog
    · exact .ret hlog
  · intro s w hw
    apply (hunlock w hw).seq
    rintro _ _ rfl
    exact .ret ⟨rfl, trivial⟩

theorem syncFileMetadata_returns (hv : v.logs = none) :
    Returns e i (syncFileMetadata e (.thread i) h) v := by
  apply admits_bind (own_call rfl rfl)
  intro _
  apply admits_bind own_look
  intro d
  apply admits_bind
  · exact admits_ite_ret (persistRecord_returns hv)
  · intro s
    exact admits_bind (own_call rfl rfl) fun _ => admits_ret _

theorem own_edits : Edits h ((ownership e).judgement i v) where
  look := own_look
  hang := own_call rfl rfl
  use _ _ := own_call rfl rfl
  body _ := own_call rfl rfl

theorem putActiveZone_ownerTable (d : Zbd) (x : Option ℕ) :
    (d.putActiveZone h x).ownerTable =
      d.ownerTable.setFile h x (d.wrLocked h) (d.closing h) := by
  rw [Zbd.putActiveZone, setBody_ownerTable, OwnerTable.setFile, OwnerTable.withFiles]
  simp only [Zbd.ownerTable, update_eq_self]

/-- A thread that works on a file and has no zones of its own. -/
def Holding.on (h : Handle) (b : Bool) (a : Access) : Holding := ⟨[], some ⟨h, b, a⟩, none⟩

theorem own_lookActive :
    (ownership e).Safe i look (.on h b (.knows x))
      fun d w => (d.bodies h).activeZone = x ∧ w = .on h b (.knows x) := by
  apply own_free rfl
  rintro vs d _ _ hvs hd _ ⟨⟩
  refine ⟨_, ?_, ?_, rfl⟩
  · rw [← hvs, update_eq_self]
    exact hd
  · exact ((hd.knows i).session ⟨h, b, .knows x⟩ (by rw [hvs]; rfl)).active x rfl

theorem own_activeZone :
    (ownership e).Safe i (activeZone h) (.on h b (.knows x))
      fun z w => x = some z ∧ w = .on h b (.knows x) := by
  apply own_lookActive.seq
  rintro d w ⟨hx, rfl⟩
  rw [hx]
  cases x with
  | none => exact own_hang
  | some z => exact .ret ⟨rfl, rfl⟩

theorem own_fileAct (ho : o.passive = true)
    (hacts : o.acts = some (.file h, z)) : Returns e i (Task.op o) (.on h b (.knows (some z))) := by
  apply own_act ho
  intro vs T hvs hd a y ha
  rw [hacts] at ha
  cases ha
  exact ⟨hd.activeHeld (by rw [hvs]; rfl), nofun⟩

theorem own_closeZone (hback : ∀ n, (e.backend n).status.ok = true) :
    (ownership e).Safe i (closeZone (.file h) z) (.on h b (.knows (some z)))
      fun s w => s.ok = true ∧ w = .on h b (.knows (some z)) := by
  apply own_op
  · intro vs d hvs hd
    exact entitled_of_held hd rfl (hd.activeHeld (by rw [hvs]; rfl)) nofun
  · intro vs d s t hvs hd _ hr
    have htable : t.ownerTable = d.ownerTable :=
      exec_ownerTable rfl hr
    refine ⟨_, ?_, ?_, rfl⟩
    · rw [htable, ← hvs, update_eq_self]
      exact hd
    · have hr : d.close e z = (s, t) := Option.some.inj hr
      simp only [Zbd.close] at hr
      split at hr <;> cases hr
      · rfl
      · exact hback _

theorem own_closeActiveZone (hback : ∀ n, (e.backend n).status.ok = true) :
    (ownership e).Safe i (closeActiveZone h) (.on h b (.knows x))
      fun s w => s.ok = true ∧ w = .on h b (.knows none) := by
  apply own_lookActive.seq
  rintro d _ ⟨hx, rfl⟩
  rw [hx]
  cases x with
  | none => exact .ret ⟨rfl, rfl⟩
  | some z =>
    apply bind_admits (lookActiveZone_admits (own_edits (h := h)).look (own_edits (h := h)).hang)
    intro zone
    apply own_activeZone.seq
    rintro _ _ ⟨⟨⟩, rfl⟩
    apply (own_closeZone hback).seq
    rintro s _ ⟨hs, rfl⟩
    apply own_activeZone.seq
    rintro _ _ ⟨⟨⟩, rfl⟩
    apply Safe.seq (own_release (a := .file h) (w := .on h b .released) nofun)
    · rintro _ _ ⟨-, rfl⟩
      apply Safe.seq (Q := fun _ w => w = .on h b (.knows none))
      · apply own_free rfl
        rintro vs d _ _ hvs hd _ ⟨⟩
        refine ⟨_, ?_, rfl⟩
        have hclear := hd.cleared (by rw [hvs]; rfl)
        rw [hvs] at hclear
        rw [putActiveZone_ownerTable]
        exact hclear
      · rintro _ _ rfl
        rw [if_neg (by simp [hs])]
        refine own_then rfl rfl fun _ => ?_
        split
        · refine own_then rfl rfl fun _ => ?_
          exact .ret ⟨rfl, rfl⟩
        · exact .ret ⟨rfl, rfl⟩
    · intro vs T hvs hd
      have hs : (vs i).session = some ⟨h, b, .knows (some z)⟩ := by rw [hvs]; rfl
      have hrel := hd.fileReleased hs
      rw [hvs] at hrel
      exact ⟨hd.activeHeld hs, hrel⟩

/-- Being safe while the thread writes the file. -/
abbrev writing (e : Setup) (i : ℕ) (h : Handle) : Judgement Call.Res :=
  (ownership e).within i fun v => ∃ x, v = .on h true (.knows x)

theorem writing_of_returns {α : Type} {m : DevTask α}
    (hm : ∀ x, Returns e i m (.on h true (.knows x))) : (writing e i h).Admits m := by
  apply within_of_judgement
  rintro _ ⟨x, rfl⟩
  exact hm x

theorem writing_call (ho : o.passive = true) (hacts : o.acts = none) :
    (writing e i h).Calls o := writing_of_returns fun _ => own_call ho hacts

theorem writing_edits : Edits h (writing e i h) where
  look := writing_call rfl rfl
  hang := writing_call rfl rfl
  use _ _ := writing_call rfl rfl
  body _ := writing_call rfl rfl

theorem writing_sync : (writing e i h).Admits (syncFileMetadata e (.thread i) h) :=
  writing_of_returns fun _ => syncFileMetadata_returns rfl

theorem writing_place {f : Zbd → Placement} : (writing e i h).Admits (place f) :=
  writing_of_returns fun _ => own_place

theorem own_setActiveZone :
    (ownership e).Safe i (call (.setActiveZone (.thread i) h z))
      ((Holding.on h b (.knows none)).take (some z))
      fun _ w => w = .on h b (.knows (some z)) := by
  apply own_op
  · intro vs d hvs hd
    apply entitled_of_held hd rfl (holders_of_take hvs hd)
    rintro j ⟨⟩
    rfl
  · rintro vs d _ _ hvs hd _ ⟨⟩
    have hz := holders_of_take hvs hd
    refine ⟨_, ?_, rfl⟩
    have hset := hd.activated
      (by rw [hvs]; exact .refl _) (by rw [hvs]; rfl)
    rw [hvs] at hset
    rw [putActiveZone_ownerTable, handOver_ownerTable hz (hd.held hz)]
    exact hset

theorem own_allocateNewZone (spins : ℕ) :
    (ownership e).Safe i (allocateNewZone e (.thread i) h spins) (.on h true (.knows none))
      fun _ w => (∃ x, w = .on h true (.knows x)) ∧ True := by
  refine own_then rfl rfl fun d => ?_
  apply Safe.seq (allocateIOZone_gives)
  rintro ⟨s, zone⟩ _ ⟨rfl, hnone⟩
  dsimp only
  cases hs : s.ok with
  | false =>
    obtain rfl := hnone hs
    exact .ret ⟨⟨none, rfl⟩, trivial⟩
  | true =>
    cases zone with
    | none => exact .ret ⟨⟨none, rfl⟩, trivial⟩
    | some z =>
      apply own_setActiveZone.seq
      rintro _ _ rfl
      have hrest : (writing e i h).Admits (do
          let wp := (← lookActiveZone h).wp
          call (.body h fun b => { b with extentStart := some wp, extentFilepos := b.fileSize })
          syncFileMetadata e (.thread i) h) :=
        admits_bind (lookActiveZone_admits writing_edits.look writing_edits.hang) fun _ =>
          admits_bind (writing_edits.body _) fun _ => writing_sync
      exact hrest _ ⟨some z, rfl⟩

theorem ensureActiveZone_writing (spins : ℕ) :
    (writing e i h).Admits (ensureActiveZone e (.thread i) h spins) := by
  rintro _ ⟨x, rfl⟩
  apply own_lookActive.seq
  rintro d _ ⟨hx, rfl⟩
  rw [hx]
  cases x with
  | none => exact own_allocateNewZone spins
  | some z => exact .ret ⟨⟨some z, rfl⟩, trivial⟩

theorem nextZoneIfFull_writing (hback : ∀ n, (e.backend n).status.ok = true) (spins left : ℕ) :
    (writing e i h).Admits (nextZoneIfFull e (.thread i) h spins left) := by
  refine admits_then (lookActiveZone_admits writing_edits.look writing_edits.hang) fun zone => ?_
  rintro _ ⟨x, rfl⟩
  apply (own_closeActiveZone hback).seq
  rintro s _ ⟨hs, rfl⟩
  rw [if_neg (by simp [hs])]
  apply bind_admits own_place
  intro _
  exact own_allocateNewZone spins

theorem appendActive_writing {α : Type} {data : List UInt8} {k : Status → DevTask α}
    (hk : ∀ s, (writing e i h).Admits (k s)) : (writing e i h).Admits (do
      let z ← activeZone h
      let s ← appendZone (.file h) z data
      k s) := by
  rintro _ ⟨x, rfl⟩
  apply own_activeZone.seq
  rintro z _ ⟨rfl, rfl⟩
  apply bind_admits (own_fileAct rfl rfl)
  intro s
  exact hk s _ ⟨some z, rfl⟩

section

variable (hback : ∀ n, (e.backend n).status.ok = true)
include hback

theorem segmentRounds_writing (headerSize : ℕ)
    (header : ℕ → List UInt8) (spins n : ℕ) (left : List UInt8) :
    (writing e i h).Admits (segmentRounds e (.thread i) h headerSize header spins n left) := by
  induction n generalizing left with
  | zero => exact admits_hang writing_edits.hang
  | succ n ih =>
    refine admits_ite_ret ?_
    apply admits_bind (lookActiveZone_admits writing_edits.look writing_edits.hang)
    intro zone
    apply appendActive_writing
    intro s
    refine admits_ite_ret ?_
    apply admits_bind (addExtent_admits writing_edits _ _)
    intro _
    exact admits_then (nextZoneIfFull_writing hback _ _) fun _ => ih _

theorem segmentAppend_writing (headerSize : ℕ)
    (header : ℕ → List UInt8) (spins : ℕ) (data : List UInt8) :
    (writing e i h).Admits (segmentAppend e (.thread i) h headerSize header spins data) := by
  apply admits_bind writing_place
  intro _
  exact admits_then (ensureActiveZone_writing spins) fun _ => segmentRounds_writing hback _ _ _ _ _

theorem directRounds_writing (spins n : ℕ)
    (left : List UInt8) : (writing e i h).Admits (directRounds e (.thread i) h spins n left) := by
  induction n generalizing left with
  | zero => exact admits_hang writing_edits.hang
  | succ n ih =>
    refine admits_ite_ret ?_
    apply admits_bind (pushIfFull_admits writing_edits.look writing_edits.hang
      (pushExtent_admits writing_edits))
    intro _
    refine admits_then (nextZoneIfFull_writing hback _ _) fun s => ?_
    apply admits_bind (lookActiveZone_admits writing_edits.look writing_edits.hang)
    intro zone
    apply appendActive_writing
    intro s
    exact admits_ite_ret (admits_bind (writing_edits.body _) fun _ => ih _)

theorem append_writing (spins : ℕ)
    (data : List UInt8) : (writing e i h).Admits (append e (.thread i) h spins data) := by
  apply admits_bind writing_place
  intro _
  exact admits_then (ensureActiveZone_writing spins) fun _ => directRounds_writing hback _ _ _

end

end ZenFs.Device
