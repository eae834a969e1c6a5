import ZenFs.Namespace.Names

/-!
What the metadata log says about the names of files.

`loggedNames` are the link names that the records of the current metadata zone give a
file. A metadata write that succeeds makes the log right about the file it is about, and
keeps it right about all others, by appending a record as well as by rolling.
-/

namespace ZenFs

open Library List Option

variable {E : Entry} {dest file link m n source : Name} {h k : Handle} {s t : State}

/-- The link names that a record gives the file `id`, which had the names `old`. -/
def Record.namesOf (id : ℕ) (old : List Name) : Record → List Name
  | .snapshot files => ((files.find? (·.fileId = id)).map (·.linkfiles)).getD []
  | .update file => if file.fileId = id then file.linkfiles else old
  | .replace file => if file.fileId = id then file.linkfiles else old
  | .deletion fileId name => if fileId = id then old.filter (· ≠ name) else old
  | .endRecord => old

def loggedNames (records : List Record) (id : ℕ) : List Name :=
  records.foldl (fun old r => r.namesOf id old) []

def State.logged (s : State) (id : ℕ) : List Name := loggedNames s.log.records id

theorem loggedNames_append (records : List Record) (r : Record) (id : ℕ) :
    loggedNames (records ++ [r]) id = r.namesOf id (loggedNames records id) := by
  simp [loggedNames]

theorem mem_namesOf_snapshot (ht : s.names.Tidy) {id : ℕ} {old : List Name} :
    n ∈ s.cat.encodeSnapshotTo.namesOf id old ↔
      ∃ h E, s.names.entry h = some E ∧ E.fileId = id ∧ s.names.files n = some h := by
  let imgs := s.cat.files.toList.filterMap fun p =>
    (s.cat.heap p.2).map ZoneFile.encodeSnapshotTo
  -- every image is that of an object in use
  have hobject : ∀ img ∈ imgs, ∃ h f, s.cat.heap h = some f ∧ img = f.encodeSnapshotTo := by
    intro img himg
    obtain ⟨p, -, hp⟩ := mem_filterMap.mp himg
    obtain ⟨f, hf, rfl⟩ := map_eq_some_iff.mp hp
    exact ⟨p.2, f, hf, rfl⟩
  show n ∈ ((imgs.find? (·.fileId = id)).map (·.linkfiles)).getD [] ↔ _
  cases hfind : imgs.find? (·.fileId = id) with
  | none =>
    simp only [map_none, getD_none, not_mem_nil, false_iff]
    rintro ⟨h, E, hE, rfl, hn⟩
    obtain ⟨f, hf, rfl⟩ := State.exists_of_entry hE
    have himg : f.encodeSnapshotTo ∈ imgs :=
      mem_filterMap.mpr ⟨(n, h), Std.ExtTreeMap.mem_toList_iff_getElem?_eq_some.mpr hn,
        by simp [hf]⟩
    have := find?_eq_none.mp hfind _ himg
    simp [ZoneFile.encodeSnapshotTo, ZoneFile.encodeTo, ZoneFile.entry] at this
  | some img =>
    obtain ⟨h, f, hf, rfl⟩ := hobject img (mem_of_find?_eq_some hfind)
    have hid : f.fileId = id := by
      have := find?_some hfind
      simpa [ZoneFile.encodeSnapshotTo, ZoneFile.encodeTo] using this
    have hE : s.names.entry h = some f.entry := by simp [State.names, hf]
    constructor
    · intro hn
      exact ⟨h, f.entry, hE, hid, (ht.links hE n).mp hn⟩
    · rintro ⟨k, F, hF, hFid, hn⟩
      obtain rfl : k = h := ht.ids hF hE (hFid.trans hid.symm)
      exact (ht.links hE n).mpr hn

/-- The log lists `n` among the names of the file `id` just when it leads to `k`. -/
def RightAbout (s : State) (k : Handle) (id : ℕ) (n : Name) : Prop :=
  n ∈ s.logged id ↔ s.names.files n = some k

theorem RightAbout.congr {id : ℕ} (hs : RightAbout s k id n)
    (hlog : t.log = s.log) (hfiles : t.names.files = s.names.files) : RightAbout t k id n := by
  rw [RightAbout, State.logged, hlog, hfiles]
  exact hs

/-- File objects have the ids that `ids` gives them, and no two the same. -/
structure HasIds (ids : Handle → Option ℕ) (N : Names) : Prop where
  entry : ∀ {k E}, N.entry k = some E → ids k = some E.fileId
  inj : ∀ {h k id}, ids h = some id → ids k = some id → h = k

namespace HasIds

variable {ids : Handle → Option ℕ} {M N : Names}

theorem follows (hM : HasIds ids M) (h : Names.Follows M N) : HasIds ids N where
  entry hF := by
    obtain ⟨E, hE, hid⟩ := h.ids hF
    rw [hM.entry hE, hid]
  inj := hM.inj

theorem fileId_eq_iff (hN : HasIds ids N) {id : ℕ}
    (hE : N.entry h = some E) (hk : ids k = some id) : E.fileId = id ↔ k = h := by
  have hid := hN.entry hE
  constructor
  · rintro rfl
    exact hN.inj hk hid
  · rintro rfl
    rw [hk, some.injEq] at hid
    exact hid.symm

theorem self (hN : N.Tidy) : HasIds (fun k => (N.entry k).map Entry.fileId) N where
  entry hE := by simp [hE]
  inj hh hk := by
    obtain ⟨E, hE, rfl⟩ := map_eq_some_iff.mp hh
    obtain ⟨F, hF, hEF⟩ := map_eq_some_iff.mp hk
    exact hN.ids hE hF hEF.symm

end HasIds

namespace State

variable {e : Env} {ids : Handle → Option ℕ} {id : ℕ}

/-- A write that succeeds makes the log right about the name. -/
theorem persistRecord_rightAbout (ht : s.names.Tidy) (hids : HasIds ids s.names)
    (hok : (e.persist s.persists).ok = true) {r : Record} (hk : ids k = some id)
    (hr : n ∈ r.namesOf id (s.logged id) ↔ s.names.files n = some k) :
    RightAbout (s.persistRecord e r).2 k id n := by
  rw [RightAbout, persistRecord_names]
  have hroll : n ∈ s.cat.encodeSnapshotTo.namesOf id [] ↔ s.names.files n = some k := by
    rw [mem_namesOf_snapshot ht]
    constructor
    · rintro ⟨h, E, hE, rfl, hn⟩
      rwa [hids.inj hk (hids.entry hE)]
    · intro hn
      obtain ⟨E, hE, -⟩ := ht.alive hn
      refine ⟨k, E, hE, ?_, hn⟩
      have := hids.entry hE
      rw [hk] at this
      exact (some.inj this).symm
  cases ho : e.persist s.persists with
  | appended =>
    simp only [persistRecord, ho]
    rw [← hr]
    show n ∈ loggedNames (s.log.records ++ [r]) id ↔ _
    rw [loggedNames_append]
    rfl
  | rolled =>
    simp only [persistRecord, ho]
    exact hroll
  | failed | rollFailed => simp [ho, PersistOutcome.ok] at hok

theorem syncFileMetadata_rightAbout (ht : s.names.Tidy) (hids : HasIds ids s.names)
    (hE : s.names.entry h = some E) (hl : E.isDeleted = false)
    (hok : (e.persist s.persists).ok = true) (hk : ids k = some id)
    (hright : k = h ∨ RightAbout s k id n) :
    RightAbout (s.syncFileMetadata e h false).2 k id n := by
  obtain ⟨f, hf, rfl⟩ := exists_of_entry hE
  have hnames : (s.touch e h).names = s.names := editFile_names_same s h _ fun _ => rfl
  let r := (s.touch e h).persistRecord e
    (.update ({ f with mTime := e.clock s.clockReads } : ZoneFile).encodeUpdateTo)
  have heq : (s.syncFileMetadata e h false).2 =
      if r.1.ok then r.2.editFile h ZoneFile.metadataSynced else r.2 :=
    congrArg Prod.snd (syncFileMetadata_eq hf (show f.isDeleted = false from hl) false)
  have hstep : RightAbout r.2 k id n := by
    refine persistRecord_rightAbout (s := s.touch e h) (by rw [hnames]; exact ht)
      (by rw [hnames]; exact hids) hok hk ?_
    show n ∈ (if f.fileId = id then f.linkfiles else s.logged id) ↔ _
    have hid : f.fileId = id ↔ k = h := hids.fileId_eq_iff hE hk
    by_cases hkh : k = h
    · rw [if_pos (hid.mpr hkh), hkh]
      exact ht.links hE n
    · rw [if_neg (mt hid.mp hkh)]
      exact hright.resolve_left hkh
  rw [heq]
  split
  · exact hstep.congr rfl (congrArg Names.files (editFile_names_same _ h _ fun _ => rfl))
  · exact hstep

private theorem sync_follows (hids : HasIds ids s.names) (hok : (e.persist s.persists).ok = true)
    (hlog : t.log = s.log)
    (hpersists : t.persists = s.persists) (hfollows : Names.Follows s.names t.names)
    (hE : t.names.entry h = some E) (hl : E.isDeleted = false)
    (hother : k ≠ h → (t.names.files n = some k ↔ s.names.files n = some k))
    (hk : ids k = some id) (hright : k = h ∨ RightAbout s k id n) :
    RightAbout (t.syncFileMetadata e h false).2 k id n := by
  refine syncFileMetadata_rightAbout hfollows.tidy (hids.follows hfollows) hE hl
    (hpersists ▸ hok) hk ?_
  by_cases hkh : k = h
  · exact .inl hkh
  · refine .inr ?_
    rw [RightAbout, logged, hlog, hother hkh]
    exact hright.resolve_left hkh

variable (ht : s.names.Tidy) (hids : HasIds ids s.names) (hok : (e.persist s.persists).ok = true)

include ht hids hok

theorem deleteFileNoLock_rightAbout (hm : s.names.files m = some h)
    (hk : ids k = some id) (hright : (k = h ∧ n = m) ∨ RightAbout s k id n) :
    RightAbout (s.deleteFileNoLock e m).2 k id n := by
  obtain ⟨f, hf, hl, hmem⟩ := exists_file ht hm
  have hfollows := unlinked_follows ht hf hl hm
  let r := (s.unlinked h f m).persistRecord e (.deletion f.fileId m)
  have hstep : RightAbout r.2 k id n := by
    refine persistRecord_rightAbout hfollows.tidy (hids.follows hfollows) hok hk ?_
    rw [unlinked_names hf, Names.put_files, Names.update_none_eq_some]
    show n ∈ (if f.fileId = id then (s.logged id).filter (· ≠ m) else s.logged id) ↔ _
    have hid : f.fileId = id ↔ k = h := hids.fileId_eq_iff (entry_of_heap hf) hk
    by_cases hkh : k = h
    · subst hkh
      rw [if_pos (hid.mpr rfl)]
      by_cases hnm : n = m
      · simp [hnm]
      · have hn : n ∈ s.logged id ↔ s.names.files n = some k :=
          hright.resolve_left fun hc => hnm hc.2
        simpa [hnm] using hn
    · have hn : n ∈ s.logged id ↔ s.names.files n = some k :=
        hright.resolve_left fun hc => hkh hc.1
      rw [if_neg (mt hid.mp hkh), hn, ← Names.update_none_eq_some, Names.update_none_of_ne hm hkh]
  have heq : s.deleteFileNoLock e m = (r.1, r.2.editFile h ZoneFile.markDeleted) := by
    have hst : r.1.ok = true := (persistRecord_ok e).trans hok
    rw [deleteFileNoLock_eq hm hf hmem]
    exact if_pos hst
  rw [heq]
  refine hstep.congr rfl ?_
  rfl

theorem renameTo_rightAbout (hsource : s.names.files source = some h)
    (hdest : s.names.files dest = none) (hk : ids k = some id)
    (hright : k = h ∨ RightAbout s k id n) :
    RightAbout (s.renameTo e h source dest).2 k id n := by
  obtain ⟨f, hf, hl, hmem⟩ := exists_file ht hsource
  have hnames := renamed_names hf source hdest
  have hE : (s.renamed h f source dest).names.entry h =
      some ⟨f.fileId, f.linkfiles.erase source ++ [dest], f.isDeleted⟩ := by
    rw [hnames, Names.put_entry_self]
  have hst : ((s.renamed h f source dest).syncFileMetadata e h false).1.ok = true :=
    (syncFileMetadata_names hE hl false).1.trans hok
  have heq : s.renameTo e h source dest = (s.renamed h f source dest).syncFileMetadata e h false := by
    rw [renameTo_eq dest hf hmem]
    exact if_pos hst
  rw [heq]
  refine sync_follows hids hok rfl rfl (renamed_follows ht hf hl hsource hdest) hE hl
    (fun hkh => ?_) hk hright
  rw [hnames, Names.put_files, Moves.moved_eq_some hdest, ← Names.update_none_of_ne hsource hkh,
    Names.update_none_eq_some]
  simp [hkh]

theorem linkFile_rightAbout (hfile : s.names.files file = some h)
    (hlink : s.names.files link = none) (hk : ids k = some id)
    (hright : k = h ∨ RightAbout s k id n) :
    RightAbout (s.linkFile e file link).2 k id n := by
  obtain ⟨f, hf, hl, -⟩ := exists_file ht hfile
  have hnames := linked_names hf hlink
  have hE : (s.linked h link).names.entry h =
      some ⟨f.fileId, f.linkfiles ++ [link], f.isDeleted⟩ := by
    rw [hnames, Names.put_entry_self]
  have hst : ((s.linked h link).syncFileMetadata e h false).1.ok = true :=
    (syncFileMetadata_names hE hl false).1.trans hok
  have heq : s.linkFile e file link = (s.linked h link).syncFileMetadata e h false := by
    rw [linkFile_eq hlink hfile]
    exact if_pos hst
  rw [heq]
  refine sync_follows hids hok rfl rfl (linked_follows ht hf hl hfile hlink) hE hl
    (fun hkh => ?_) hk hright
  rw [hnames, Names.put_files, Names.update_some_eq_some]
  by_cases hn : n = link <;> simp [hn, hkh, hlink]

end State

end ZenFs
