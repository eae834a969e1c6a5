import ZenFs.Codec.Snapshots

/-!
A migration whose metadata write fails.

`SyncFileExtents` gives the file its new extents and forgets what was synced before it persists
the replacement. When that fails, the extents the log knows of and the new ones, all unsynced, meet
in the next update of the file, and the zones that were left stay charged.
-/

namespace ZenFs

open Library Finset

variable {r : Record}

/-- The list `MigrateFileExtents` makes of the extents of a file: each is a copy or has moved. -/
def Migrated (old new : List ZoneExtent) : Prop :=
  List.Forall₂ (fun x y => y = x ∨ x.start ≠ y.start ∧ y.length = x.length) old new

/-- The extents that moved, where they are now. `MigrateFileExtents` has charged them already. -/
def arrivedExtents (old new : List ZoneExtent) : List ZoneExtent :=
  ((old.zip new).filter fun p => p.1.start ≠ p.2.start).map (·.2)

theorem heldIn_migrated {old new : List ZoneExtent} (h : Migrated old new) (z : ℕ) :
    heldIn new z + heldIn (State.movedExtents old new) z =
      heldIn old z + heldIn (arrivedExtents old new) z := by
  induction h with
  | nil => rfl
  | @cons x y old new hxy _ ih =>
    by_cases hstart : x.start = y.start
    · have hsame : y = x := hxy.resolve_right fun hmoved => hmoved.1 hstart
      subst hsame
      simp only [State.movedExtents, arrivedExtents, List.zip_cons_cons, List.filter_cons, ne_eq,
        not_true_eq_false, decide_false, Bool.false_eq_true, if_false, heldIn_cons] at ih ⊢
      omega
    · simp only [State.movedExtents, arrivedExtents, List.zip_cons_cons, List.filter_cons, ne_eq,
        hstart, not_false_eq_true, decide_true, if_true, List.map_cons, heldIn_cons] at ih ⊢
      omega

namespace Catalog

/-- The bytes of zone `z` that the extents of file objects take. -/
def held (c : Catalog) (z : ℕ) : ℕ :=
  ∑ k ∈ Finset.range c.nextHandle, heldIn (c.extentsAt k) z

theorem held_editFile {c : Catalog} {h : Handle} {f : ZoneFile} (hlt : h < c.nextHandle)
    (hf : c.heap h = some f) (edit : ZoneFile → ZoneFile) (z : ℕ) :
    (c.editFile h edit).held z + heldIn f.extents z = c.held z + heldIn (edit f).extents z := by
  have hmem : h ∈ Finset.range c.nextHandle := Finset.mem_range.mpr hlt
  have hself : (c.editFile h edit).extentsAt h = (edit f).extents := by
    simp [extentsAt, hf]
  have hother : ∀ k ∈ (Finset.range c.nextHandle).erase h,
      heldIn ((c.editFile h edit).extentsAt k) z = heldIn (c.extentsAt k) z := by
    intro k hk
    rw [extentsAt, editFile_heap_of_ne (ne_of_mem_erase hk)]
    rfl
  have hold : c.extentsAt h = f.extents := by simp [extentsAt, hf]
  have hsum : heldIn f.extents z +
      ∑ k ∈ (range c.nextHandle).erase h, heldIn (c.extentsAt k) z = c.held z := by
    rw [← hold]
    exact add_sum_erase _ (fun k => heldIn (c.extentsAt k) z) hmem
  have hsum' : heldIn (edit f).extents z +
      ∑ k ∈ (range c.nextHandle).erase h, heldIn (c.extentsAt k) z =
        (c.editFile h edit).held z := by
    rw [← hself, ← sum_congr rfl hother]
    exact add_sum_erase _ (fun k => heldIn ((c.editFile h edit).extentsAt k) z) hmem
  omega

end Catalog

/-- A later state of a file that has not been synced in between: it may have grown and have other
names. -/
structure Later (g : Geometry) (c : Catalog) (f f' : ZoneFile) : Prop where
  fileId : f'.fileId = f.fileId
  synced : f'.nrSyncedExtents = f.nrSyncedExtents
  extents : f.extents <+: f'.extents
  nodup : f'.linkfiles.Nodup
  names : ∀ m ∈ f'.linkfiles, m ∈ f.linkfiles ∨ c.files[m]? = none
  encodable : Encodable g f'

/-- Memory and log fit together: with any later update of the file at `h`, the records replay to
its extents, and no zone is charged for more than the files hold. -/
structure FitsLog (g : Geometry) (records : List Record) (c : Catalog) (h : Handle) : Prop where
  replays : ∀ f f', c.heap h = some f → Later g c f f' →
    ∃ d, Catalog.replay g (records ++ [.update f'.encodeUpdateTo]) false .empty = .ok (true, d) ∧
      ∀ n ∈ f'.linkfiles, ∃ u, d.table n = some u ∧ u.extents = f'.extents
  charged : ∀ z, c.used z ≤ c.held z

def unsynced (new : List ZoneExtent) (f : ZoneFile) : ZoneFile :=
  ({ f with extents := new }).metadataUnsynced

variable {e : Env} {s : State} {h : Handle} {f : ZoneFile} {new : List ZoneExtent}

theorem persistRecord_failed (hfail : (s.persistRecord e r).1.ok = false) :
    (s.persistRecord e r).2.cat = s.cat := by
  cases hp : e.persist s.persists with
  | appended | rolled =>
    simp only [State.persistRecord, hp] at hfail
    cases hfail
  | failed msg =>
    simp only [State.persistRecord, hp]
  | rollFailed msg =>
    simp only [State.persistRecord, hp]
    rfl

/-- A failed `SyncFileExtents` has changed the file, and nothing else of the catalog. -/
theorem syncFileExtents_failed (hf : s.cat.heap h = some f)
    (hfail : (s.syncFileExtents e h new).1.ok = false) :
    f.isDeleted = false ∧ (s.syncFileExtents e h new).2.cat = s.cat.editFile h (unsynced new) := by
  let t := s.editFile h (unsynced new)
  have hth : t.cat.heap h = some (unsynced new f) := by
    simp [t, State.editFile, State.onCat, hf]
  have hsync : s.syncFileExtents e h new =
      if !(t.syncFileMetadata e h true).1.ok then t.syncFileMetadata e h true
      else (.OK, (t.syncFileMetadata e h true).2.onCat
        (·.subUsed (State.movedExtents f.extents new))) := by
    simp only [State.syncFileExtents, hf]
    rfl
  rw [hsync] at hfail ⊢
  cases hst : (t.syncFileMetadata e h true).1.ok with
  | true =>
    rw [hst] at hfail
    cases hfail
  | false =>
    cases hl : f.isDeleted with
    | true =>
      have hskip : t.syncFileMetadata e h true = (.OK, t) := by
        have hl' : (unsynced new f).isDeleted = true := hl
        simp only [State.syncFileMetadata, hth, hl', if_true]
      rw [hskip] at hst
      cases hst
    | false =>
      have hl' : (unsynced new f).isDeleted = false := hl
      rw [State.syncFileMetadata_eq hth hl' true] at hst ⊢
      simp only [if_true] at hst ⊢
      simp only [hst]
      exact ⟨trivial, persistRecord_failed hst⟩

theorem later_unsynced (hs : Consistent e s) {n : Name} (hn : s.cat.files[n]? = some h)
    (hf : s.cat.heap h = some f) (hnew : ExtentsOk e.toGeometry new) :
    Later e.toGeometry (s.cat.editFile h (unsynced new)) (unsynced new f) (unsynced new f) where
  fileId := rfl
  synced := rfl
  extents := List.prefix_rfl
  nodup := hs.cat.sound.nodup (f := f) hn hf
  names _ hm := .inl hm
  encodable := ⟨hnew,
    (hs.cat.file n f (Catalog.table_eq_some.mpr ⟨h, hn, hf⟩)).enc.names⟩

/-- The records with a later update replay to what the log knew of the file and all its extents
of the update. -/
theorem replays_unsynced (hs : Consistent e s) {n : Name} (hn : s.cat.files[n]? = some h)
    (hf : s.cat.heap h = some f) {f' : ZoneFile}
    (hlater : Later e.toGeometry (s.cat.editFile h (unsynced new)) (unsynced new f) f') :
    ∃ d, Catalog.replay e.toGeometry (s.log.records ++ [.update f'.encodeUpdateTo]) false .empty =
        .ok (true, d) ∧
      ∀ m ∈ f'.linkfiles, ∃ u, d.table m = some u ∧
        u.extents = f.extents.take f.nrSyncedExtents ++ f'.extents := by
  have hfree : ∀ m ∈ f'.linkfiles, m ∈ f.linkfiles ∨ s.cat.table m = none := by
    intro m hm
    rcases hlater.names m hm with hown | hnone
    · exact .inl hown
    · exact .inr ((hs.cat.sound.table_isSome m).mpr hnone)
  have hzero : f'.extents.drop f'.nrSyncedExtents = f'.extents := by
    rw [hlater.synced]
    rfl
  have hreplay := hs.log.replay_file (Catalog.table_eq_some.mpr ⟨h, hn, hf⟩) hlater.encodable
    hlater.fileId hlater.nodup hfree false
  rw [hzero] at hreplay
  exact hreplay

/-- After a failed `SyncFileExtents` memory and log fit together if and only if nothing of the file
was persisted before and nothing has moved. -/
theorem fitsLog_iff (hs : Consistent e s) (hf : s.cat.heap h = some f)
    (hnew : ExtentsOk e.toGeometry new) (hmig : Migrated f.extents new)
    (hused : ∀ z, s.cat.used z = s.cat.held z + heldIn (arrivedExtents f.extents new) z)
    (hfail : (s.syncFileExtents e h new).1.ok = false) :
    FitsLog e.toGeometry s.log.records (s.syncFileExtents e h new).2.cat h ↔
      f.extents.take f.nrSyncedExtents = [] ∧
        ∀ z, heldIn (State.movedExtents f.extents new) z = 0 := by
  obtain ⟨hlive, hcat⟩ := syncFileExtents_failed hf hfail
  obtain ⟨n, hn⟩ := hs.exists_name hf hlive
  have hlt : h < s.cat.nextHandle := by
    by_contra hge
    rw [hs.cat.sound.fresh (Nat.le_of_not_lt hge)] at hf
    cases hf
  have hheap : (s.cat.editFile h (unsynced new)).heap h = some (unsynced new f) := by simp [hf]
  have hcharge : ∀ z, (s.cat.editFile h (unsynced new)).used z ≤
      (s.cat.editFile h (unsynced new)).held z ↔
        heldIn (State.movedExtents f.extents new) z = 0 := by
    intro z
    have hheld := Catalog.held_editFile hlt hf (unsynced new) z
    have hmoved := heldIn_migrated hmig z
    have hbefore := hused z
    have hext : (unsynced new f).extents = new := rfl
    rw [hext] at hheld
    show s.cat.used z ≤ _ ↔ _
    omega
  rw [hcat]
  constructor
  · intro hfits
    constructor
    · have hlater := later_unsynced hs hn hf hnew
      obtain ⟨d, hd, hext⟩ := hfits.replays _ _ hheap hlater
      obtain ⟨d', hd', hext'⟩ := replays_unsynced hs hn hf hlater
      rw [hd] at hd'
      cases hd'
      have hmem : n ∈ (unsynced new f).linkfiles := hs.cat.sound.mem (f := f) hn hf
      obtain ⟨u, hu, hnow⟩ := hext n hmem
      obtain ⟨u', hu', hthen⟩ := hext' n hmem
      rw [hu] at hu'
      cases hu'
      rw [hnow] at hthen
      exact List.self_eq_append_left.mp hthen
    · intro z
      exact (hcharge z).mp (hfits.charged z)
  · intro ⟨hnone, hstay⟩
    constructor
    · intro f₁ f' hf₁ hlater
      rw [hheap] at hf₁
      cases hf₁
      have hreplay := replays_unsynced hs hn hf hlater
      rw [hnone] at hreplay
      exact hreplay
    · intro z
      exact (hcharge z).mpr (hstay z)

def oneBlock : State :=
  let e := Env.small fun _ => .appended
  (((State.initial e).createFile e [97] true).2.editFile 0
    (·.appendExtents [⟨0, 16, 0⟩] 16 .notSet)).onCat (·.addUsed [⟨0, 16, 0⟩])

def copiedBlock : State :=
  (oneBlock.syncFileMetadata (.small fun _ => .appended) 0 false).2.onCat
    (·.addUsed [⟨64, 16, 1⟩])

theorem Consistent.withPersist {persist : ℕ → PersistOutcome}
    (hs : Consistent (.small persist) s) (later : ℕ → PersistOutcome) :
    Consistent (.small later) s :=
  ⟨⟨hs.cat, hs.log⟩, hs.unnamed⟩

theorem consistent_oneBlock : Consistent (.small fun _ => .appended) oneBlock := by
  have hne : ([97] : Name) ≠ [] := by decide
  have hcreate : Consistent (.small fun _ => .appended) _ :=
    (Consistent.initial _).createFile hne rfl true rfl
  apply hcreate.appendExtents 0 (by decide)
  intro x hx
  obtain rfl := List.mem_singleton.mp hx
  rfl

theorem consistent_copiedBlock : Consistent (.small fun _ => .appended) copiedBlock :=
  (consistent_oneBlock.syncFileMetadata 0 rfl).congr_cat rfl rfl rfl rfl rfl

/-- Nothing of the file was persisted, and nothing moves. -/
theorem fitsLog_oneBlock :
    FitsLog .small oneBlock.log.records
      (oneBlock.syncFileExtents (.small fun _ => .failed "write error") 0 [⟨0, 16, 0⟩]).2.cat 0 := by
  have hs := consistent_oneBlock.withPersist fun _ => .failed "write error"
  obtain ⟨f, hf, hext, hsync⟩ : ∃ f, oneBlock.cat.heap 0 = some f ∧
      f.extents = [⟨0, 16, 0⟩] ∧ f.nrSyncedExtents = 0 := ⟨_, rfl, rfl, rfl⟩
  have hnew : ExtentsOk .small [⟨0, 16, 0⟩] := by
    intro x hx
    obtain rfl := List.mem_singleton.mp hx
    rfl
  have hmig : Migrated f.extents [⟨0, 16, 0⟩] := by
    rw [hext]
    exact .cons (.inl rfl) .nil
  have hused : ∀ z, oneBlock.cat.used z =
      oneBlock.cat.held z + heldIn (arrivedExtents f.extents [⟨0, 16, 0⟩]) z := by
    intro z
    have hheld : oneBlock.cat.held z = heldIn [⟨0, 16, 0⟩] z := sum_range_one _
    have hcharged : oneBlock.cat.used z = 0 + heldIn [⟨0, 16, 0⟩] z := rfl
    rw [hext]
    exact zero_add _
  apply (fitsLog_iff hs hf hnew hmig hused rfl).mpr
  rw [hsync, hext]
  exact ⟨rfl, fun z => rfl⟩

/-- The block of a synced file has moved to the other zone: with the next update of the file both
copies are replayed, and the zone it left stays charged for it. -/
theorem not_fitsLog_copiedBlock :
    let e := Env.small fun _ => .failed "write error"
    let s := copiedBlock
    let t := (s.syncFileExtents e 0 [⟨64, 16, 1⟩]).2
    (Consistent e s ∧ ∃ f, s.cat.heap 0 = some f ∧ f.extents = [⟨0, 16, 0⟩] ∧
      Migrated f.extents [⟨64, 16, 1⟩] ∧
      ∀ z, s.cat.used z = s.cat.held z + heldIn (arrivedExtents f.extents [⟨64, 16, 1⟩]) z) ∧
    (s.syncFileExtents e 0 [⟨64, 16, 1⟩]).1 = .IOError "write error" ∧
    (∃ f d u, t.cat.heap 0 = some f ∧
      Catalog.replay .small (s.log.records ++ [.update f.encodeUpdateTo]) false .empty =
        .ok (true, d) ∧
      d.table [97] = some u ∧ u.extents = [⟨0, 16, 0⟩, ⟨64, 16, 1⟩]) ∧
    ¬ FitsLog .small s.log.records t.cat 0 := by
  intro e s t
  have hs : Consistent e s := consistent_copiedBlock.withPersist _
  obtain ⟨f, hf, hext, hsync⟩ : ∃ f, s.cat.heap 0 = some f ∧
      f.extents = [⟨0, 16, 0⟩] ∧ f.nrSyncedExtents = 1 := ⟨_, rfl, rfl, rfl⟩
  have hn : s.cat.files[([97] : Name)]? = some 0 := by decide +kernel
  have hnew : ExtentsOk .small [⟨64, 16, 1⟩] := by
    intro x hx
    obtain rfl := List.mem_singleton.mp hx
    rfl
  refine ⟨⟨hs, f, hf, hext, ?_, ?_⟩, rfl, ?_, ?_⟩
  · rw [hext]
    exact .cons (.inr ⟨by decide, rfl⟩) .nil
  · intro z
    have hheld : s.cat.held z = heldIn [⟨0, 16, 0⟩] z := sum_range_one _
    have hcharged : s.cat.used z = 0 + heldIn [⟨0, 16, 0⟩] z + heldIn [⟨64, 16, 1⟩] z := rfl
    rw [hcharged, hext, zero_add]
    rfl
  · have hfail : (s.syncFileExtents e 0 [⟨64, 16, 1⟩]).1.ok = false := rfl
    obtain ⟨-, hcat⟩ := syncFileExtents_failed hf hfail
    obtain ⟨d, hd, hall⟩ := replays_unsynced hs hn hf (later_unsynced hs hn hf hnew)
    obtain ⟨u, hu, hboth⟩ := hall [97] (hs.cat.sound.mem (f := f) hn hf)
    refine ⟨_, d, u, ?_, hd, hu, ?_⟩
    · show t.cat.heap 0 = _
      rw [hcat]
      simp [hf]
    · rw [hboth, hext, hsync]
      rfl
  · intro hfits
    have hcharged := hfits.charged 0
    revert hcharged
    decide +kernel

end ZenFs
