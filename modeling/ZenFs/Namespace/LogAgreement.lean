import ZenFs.Namespace.Replay

/-!
Agreement of the metadata log with a table of files.

`LogAgrees` says that the records replay to a table that agrees with the one in memory:
the same names and ids, the same link lists, the synced extents, and all data of a file
without unsynced extents. Every kind of record keeps log and memory in agreement.
-/

namespace ZenFs

open Library LinkTable List ZoneFile

variable {T' : Name → Option ZoneFile} {g : Geometry} {records : List Record} {u : ZoneFile}

/-- What the log has to say about the file `f`, as the recovered file `u`. -/
structure Recorded (u f : ZoneFile) : Prop where
  fileId : u.fileId = f.fileId
  linkfiles : u.linkfiles = f.linkfiles
  extents : u.extents = f.extents.take f.nrSyncedExtents
  synced : f.nrSyncedExtents = f.extents.length →
    u.fileSize = f.fileSize ∧ u.lifetime = f.lifetime ∧ u.isSparse = f.isSparse

def LogAgrees (g : Geometry) (records : List Record) (T : Name → Option ZoneFile) : Prop :=
  Record.endRecord ∉ records ∧ ∃ d : Catalog,
    Catalog.replay g records false Catalog.empty = .ok (true, d) ∧ d.Sound ∧
      Agree Recorded d.table T

namespace Catalog

def replayRecord (g : Geometry) (r : Record) (p : Bool × Catalog) :
    Except Status (Bool × Catalog) :=
  match r with
  | .endRecord => .ok p
  | .snapshot imgs => (decodeSnapshotFrom g imgs p.2.clearFiles).map fun d => (true, d)
  | .update img => (decodeFileUpdateFrom g img false p.2).map fun d => (p.1, d)
  | .replace img => (decodeFileUpdateFrom g img true p.2).map fun d => (p.1, d)
  | .deletion id name => (decodeFileDeletionFrom id name p.2).map fun d => (p.1, d)

theorem replayRecord_ofFile (g : Geometry) (replace : Bool) (img : FileImage)
    (p : Bool × Catalog) : replayRecord g (.ofFile replace img) p =
      (decodeFileUpdateFrom g img replace p.2).map fun d => (p.1, d) := by
  cases replace <;> rfl

theorem replay_append (hend : Record.endRecord ∉ records)
    (r : Record) (seen : Bool) (c : Catalog) :
    replay g (records ++ [r]) seen c = (replay g records seen c).bind (replayRecord g r) := by
  induction records generalizing seen c with
  | nil =>
    cases r <;> simp only [nil_append, replay, replayRecord, Except.bind, bind, Except.map]
  | cons q records ih =>
    have hrest : Record.endRecord ∉ records := fun h => hend (by simp [h])
    cases q with
    | endRecord => exact absurd (by simp) hend
    | snapshot imgs =>
      simp only [cons_append, replay, bind]
      cases decodeSnapshotFrom g imgs c.clearFiles <;> simp [Except.bind, ih hrest]
    | update img =>
      simp only [cons_append, replay, bind]
      cases decodeFileUpdateFrom g img false c <;> simp [Except.bind, ih hrest]
    | replace img =>
      simp only [cons_append, replay, bind]
      cases decodeFileUpdateFrom g img true c <;> simp [Except.bind, ih hrest]
    | deletion id name =>
      simp only [cons_append, replay, bind]
      cases decodeFileDeletionFrom id name c <;> simp [Except.bind, ih hrest]

end Catalog

namespace LogAgrees

variable {T : Name → Option ZoneFile} {n : Name} {f new : ZoneFile}

private theorem append {r : Record} (hlog : LogAgrees g records T)
    (hr : r ≠ .endRecord) (hstep : ∀ d : Catalog, d.Sound → Agree Recorded d.table T →
      ∃ d', Catalog.replayRecord g r (true, d) = .ok (true, d') ∧ d'.Sound ∧
        Agree Recorded d'.table T') : LogAgrees g (records ++ [r]) T' := by
  obtain ⟨hend, d, hreplay, hd, hagree⟩ := hlog
  obtain ⟨d', hd', hs', hagree'⟩ := hstep d hd hagree
  refine ⟨?_, d', ?_, hs', hagree'⟩
  · simpa [hend] using Ne.symm hr
  · rw [Catalog.replay_append hend, hreplay]
    exact hd'

theorem mono (hlog : LogAgrees g records T)
    (hT : ∀ n, Option.Rel (fun f f' => ∀ u, Recorded u f → Recorded u f') (T n) (T' n)) :
    LogAgrees g records T' := by
  obtain ⟨hend, d, hreplay, hd, hagree⟩ := hlog
  refine ⟨hend, d, hreplay, hd, fun n => ?_⟩
  have hn := hagree n
  have hn' := hT n
  revert hn hn'
  generalize d.table n = x
  generalize T n = y
  generalize T' n = z
  rintro (⟨hu⟩ | -) (⟨hf⟩ | -)
  · exact .some (hf _ hu)
  · exact .none

private theorem recovered {d : Catalog} (hagree : Agree Recorded d.table T) (hf : T n = some f) :
    ∃ h u, d.files[n]? = some h ∧ d.heap h = some u ∧ Recorded u f := by
  obtain ⟨u, hu, hrec⟩ := hagree.right hf
  obtain ⟨h, hn, hh⟩ := Catalog.table_eq_some.mp hu
  exact ⟨h, u, hn, hh, hrec⟩

private theorem id_ne {d : Catalog} (hd : d.Sound) {h : Handle}
    (hn : d.files[n]? = some h) (hh : d.heap h = some u) {id : ℕ} (hid : u.fileId = id) :
    ∀ (m : Name) (k v), d.files[m]? = some k → k ≠ h → d.heap k = some v → v.fileId ≠ id := by
  intro m k v hm hk hv hvid
  exact hk (hd.inj hm hn hv hh (hvid.trans hid.symm))

private theorem merge {d : Catalog} (hd : d.Sound) (hagree : Agree Recorded d.table T)
    (hf : T n = some f) (hnew : Encodable g new) (hid : new.fileId = f.fileId)
    (hnd : new.linkfiles.Nodup) (hfree : ∀ m ∈ new.linkfiles, m ∈ f.linkfiles ∨ T m = none)
    (replace : Bool) :
    ∃ u d', Recorded u f ∧
      Catalog.replayRecord g (.ofFile replace new.encodeUpdateTo) (true, d) = .ok (true, d') ∧
      d'.Sound ∧ d'.table = swap d.table f.linkfiles new.linkfiles
        (u.mergeUpdate (new.redecoded new.nrSyncedExtents) replace) := by
  obtain ⟨h, u, hn, hh, hrec⟩ := recovered hagree hf
  have hdec := decodeFrom_encodeTo hnew new.nrSyncedExtents
  have heq := Catalog.decodeFileUpdateFrom_known hd hn hh hdec (hid.trans hrec.fileId.symm) replace
  have hfree' : ∀ m ∈ new.linkfiles, m ∈ u.linkfiles ∨ d.files[m]? = none := by
    intro m hm
    rcases hfree m hm with hmf | hmT
    · exact .inl (hrec.linkfiles ▸ hmf)
    · exact .inr ((hd.table_isSome m).mp ((hagree.none_iff m).mpr hmT))
  have hrel := Catalog.relink_merged (u := new.redecoded new.nrSyncedExtents) hd hn hh hfree' replace
  have hable : Catalog.Relinkable d h u.linkfiles
      (u.mergeUpdate (new.redecoded new.nrSyncedExtents) replace) := by
    refine ⟨?_, hfree', hnd, fun _ => id_ne hd hn hh rfl⟩
    intro m
    exact ⟨hd.all hn hh, fun hm => hd.mem hm hh⟩
  refine ⟨u, _, hrec, ?_, hrel.sound hd hable, ?_⟩
  · rw [Catalog.replayRecord_ofFile,
      show new.encodeUpdateTo = new.encodeTo new.nrSyncedExtents from rfl, heq]
    rfl
  · rw [hrel.table_eq hable, hrec.linkfiles]
    rfl

/-- The extents a file has after the replay of its record: those the log knows of and those of the
record. -/
theorem merged_extents (hrec : Recorded u f) (replace : Bool) :
    (u.mergeUpdate (new.redecoded new.nrSyncedExtents) replace).extents =
      (if replace then [] else f.extents.take f.nrSyncedExtents) ++
        new.extents.drop new.nrSyncedExtents := by
  cases replace <;> simp [ZoneFile.mergeUpdate, redecoded, hrec.extents]

section

variable (hlog : LogAgrees g records T)
include hlog

theorem replay_file (hf : T n = some f)
    (hnew : Encodable g new) (hid : new.fileId = f.fileId) (hnd : new.linkfiles.Nodup)
    (hfree : ∀ m ∈ new.linkfiles, m ∈ f.linkfiles ∨ T m = none) (replace : Bool) :
    ∃ d, Catalog.replay g (records ++ [.ofFile replace new.encodeUpdateTo]) false .empty =
        .ok (true, d) ∧
      ∀ m ∈ new.linkfiles, ∃ v, d.table m = some v ∧
        v.extents = (if replace then [] else f.extents.take f.nrSyncedExtents) ++
          new.extents.drop new.nrSyncedExtents := by
  obtain ⟨hend, d, hreplay, hd, hagree⟩ := hlog
  obtain ⟨u, d', hrec, hstep, -, htable⟩ := merge hd hagree hf hnew hid hnd hfree replace
  refine ⟨d', ?_, ?_⟩
  · rw [Catalog.replay_append hend, hreplay]
    exact hstep
  · intro m hm
    rw [htable, swap_of_mem _ _ _ _ hm]
    exact ⟨_, rfl, merged_extents hrec replace⟩

theorem file (hf : T n = some f)
    (hnew : Encodable g new) (hid : new.fileId = f.fileId) (hnd : new.linkfiles.Nodup)
    (hfree : ∀ m ∈ new.linkfiles, m ∈ f.linkfiles ∨ T m = none) (replace : Bool)
    (hext : (if replace then [] else f.extents.take f.nrSyncedExtents) ++
      new.extents.drop new.nrSyncedExtents = new.extents) :
    LogAgrees g (records ++ [.ofFile replace new.encodeUpdateTo])
      (swap T f.linkfiles new.linkfiles new.metadataSynced) := by
  refine hlog.append (by cases replace <;> simp [Record.ofFile]) fun d hd hagree => ?_
  obtain ⟨u, d', hrec, hstep, hd', htable⟩ := merge hd hagree hf hnew hid hnd hfree replace
  refine ⟨d', hstep, hd', ?_⟩
  rw [htable]
  refine hagree.swap _ _ ⟨hrec.fileId.trans hid.symm, rfl, ?_, fun _ => ⟨rfl, rfl, rfl⟩⟩
  rw [merged_extents hrec replace, hext]
  simp [ZoneFile.metadataSynced]

theorem create (hnew : Encodable g new)
    (hnames : new.linkfiles = [n]) (hn : T n = none) (hsync : new.nrSyncedExtents = 0)
    (hid : ∀ m f, T m = some f → f.fileId ≠ new.fileId) :
    LogAgrees g (records ++ [.update new.encodeUpdateTo])
      (swap T [] new.linkfiles new.metadataSynced) := by
  refine hlog.append (by simp) fun d hd hagree => ?_
  have hfiles : d.files[n]? = none := (hd.table_isSome n).mp ((hagree.none_iff n).mpr hn)
  have hid' : ∀ (m : Name) (k v), d.files[m]? = some k → d.heap k = some v →
      v.fileId ≠ new.fileId := by
    intro m k v hm hv
    obtain ⟨f, hf, hrec⟩ := hagree.left (Catalog.table_eq_some.mpr ⟨k, hm, hv⟩)
    rw [hrec.fileId]
    exact hid m f hf
  have hfind : d.findId new.fileId = none := by
    cases hfind : d.findId new.fileId with
    | none => rfl
    | some p =>
      obtain ⟨⟨m, hm⟩, hp, hpid⟩ := Catalog.findId_some hfind
      exact absurd hpid (hid' m p.1 p.2 hm hp)
  have hdec := decodeFrom_encodeTo hnew new.nrSyncedExtents
  have heq := Catalog.decodeFileUpdateFrom_unknown (u := new.redecoded new.nrSyncedExtents)
    hfind hdec hnames false
  have hrel := Catalog.relink_adopt (u := new.redecoded new.nrSyncedExtents) hd
    (by rintro m hm; rw [show m = n by simpa [redecoded, hnames] using hm]; exact hfiles)
  have hable : Catalog.Relinkable d d.nextHandle [] (new.redecoded new.nrSyncedExtents) := by
    refine ⟨?_, ?_, by simp [redecoded, hnames], fun _ m k v hm _ hv => hid' m k v hm hv⟩
    · exact fun m => ⟨by simp, fun hm => absurd hm (hd.nextHandle_unused m)⟩
    · intro m hm
      rw [show m = n by simpa [redecoded, hnames] using hm]
      exact .inr hfiles
  refine ⟨_, ?_, hrel.sound hd hable, ?_⟩
  · rw [Catalog.replayRecord, show new.encodeUpdateTo = new.encodeTo new.nrSyncedExtents from rfl,
      heq]
    simp [Except.map, redecoded, hnames]
  · rw [hrel.table_eq hable]
    refine hagree.swap _ _ ⟨rfl, rfl, ?_, fun _ => ⟨rfl, rfl, rfl⟩⟩
    simp [redecoded, ZoneFile.metadataSynced, hsync]

theorem delete (hf : T n = some f) :
    LogAgrees g (records ++ [.deletion f.fileId n])
      (swap T f.linkfiles (f.linkfiles.erase n) { f with linkfiles := f.linkfiles.erase n }) := by
  refine hlog.append (by simp) fun d hd hagree => ?_
  obtain ⟨h, u, hn, hh, hrec⟩ := recovered hagree hf
  have heq := Catalog.decodeFileDeletionFrom_eq hn hh (hd.mem hn hh)
  have hrel := Catalog.relink_unlinked hd hn hh
  have hable : Catalog.Relinkable d h u.linkfiles
      { u with linkfiles := u.linkfiles.erase n } := by
    refine ⟨fun m => ⟨hd.all hn hh, fun hm => hd.mem hm hh⟩, ?_, (hd.nodup hn hh).erase n,
      fun _ => id_ne hd hn hh rfl⟩
    intro m hm
    exact .inl (mem_of_mem_erase hm)
  refine ⟨_, ?_, hrel.sound hd hable, ?_⟩
  · rw [Catalog.replayRecord, ← hrec.fileId, heq]
    rfl
  · rw [hrel.table_eq hable]
    simp only [hrec.linkfiles]
    exact hagree.swap _ _ ⟨hrec.fileId, rfl, hrec.extents, hrec.synced⟩

end

end LogAgrees

theorem logAgrees_snapshot {c : Catalog} (hc : c.Sound)
    (henc : ∀ n f, c.table n = some f → Encodable g f) :
    LogAgrees g [c.encodeSnapshotTo] fun n => (c.table n).map ZoneFile.metadataSynced := by
  obtain ⟨fs, hfs, -⟩ := Catalog.encodeSnapshotTo_eq c
  obtain ⟨d, hd, hs, htable⟩ :=
    Catalog.decodeSnapshotFrom_encode hc henc hfs Catalog.sound_empty
  refine ⟨by simp [hfs], d, ?_, hs, ?_⟩
  · simp only [hfs, Catalog.replay, hd, bind, Except.bind]
  · intro n
    rw [htable]
    show Option.Rel Recorded ((c.table n).map _) ((c.table n).map _)
    cases c.table n with
    | none => exact .none
    | some f =>
      refine .some ⟨rfl, rfl, ?_, fun _ => ⟨rfl, rfl, rfl⟩⟩
      simp [redecoded, ZoneFile.metadataSynced]

end ZenFs
