import ZenFs.Namespace.Memory

/-!
The metadata operations keep the log in agreement with the catalog when their metadata
writes succeed, by appending a record or by rolling to a new zone.
-/

namespace ZenFs

open Library LinkTable List Option State

variable {c : Catalog} {dest : List UInt8} {e : Env} {f : ZoneFile} {h : Handle} {n source : Name}
variable {old : List Name} {s t : State}

namespace Agreeing

variable {new : ZoneFile}

theorem syncFile (hc : CatalogOk e.toGeometry t.cat)
    (hr : Catalog.Relink c h old new t.cat) (ho : Catalog.Relinkable c h old new)
    (hh : t.cat.heap h = some new) (hl : new.isDeleted = false) (replace : Bool)
    (hrec : ∀ time, LogAgrees e.toGeometry
      (t.log.records ++ [.ofFile replace ({ new with mTime := time } : ZoneFile).encodeUpdateTo])
      (swap c.table old new.linkfiles ({ new with mTime := time } : ZoneFile).metadataSynced))
    (hp : (e.persist t.persists).ok = true) :
    (t.syncFileMetadata e h replace).1 = .OK ∧ Agreeing e (t.syncFileMetadata e h replace).2 := by
  -- the file as it is encoded, and the state it is encoded in
  let new' := if replace then new else { new with mTime := e.clock t.clockReads }
  let t' := if replace then t else t.touch e h
  have hlinks : new'.linkfiles = new.linkfiles := by cases replace <;> rfl
  have hid' : new'.fileId = new.fileId := by cases replace <;> rfl
  have hp' : t'.persists = t.persists := by cases replace <;> rfl
  have htouch : CatalogOk e.toGeometry (t.touch e h).cat :=
    hc.editFile h (fun _ => rfl) (fun _ => rfl) fun f hf =>
      ⟨⟨hf.enc.extents, hf.enc.names⟩, hf.live, hf.synced_le, hf.id_lt⟩
  have hc' : CatalogOk e.toGeometry t'.cat := by
    cases replace
    · exact htouch
    · exact hc
  have hr' : Catalog.Relink c h old new' t'.cat := by
    cases replace
    · exact hr.editFile hh (fun f => { f with mTime := e.clock t.clockReads }) rfl
    · exact hr
  have hh' : t'.cat.heap h = some new' := by
    cases replace
    · simp [t', new', State.touch, State.editFile, State.onCat, hh]
    · exact hh
  have hrec' : LogAgrees e.toGeometry (t'.log.records ++ [.ofFile replace new'.encodeUpdateTo])
      (swap c.table old new'.linkfiles new'.metadataSynced) := by
    cases replace
    · exact hrec (e.clock t.clockReads)
    · exact hrec new.mTime
  obtain ⟨hst, hag⟩ := persistFile hc' hr' (ho.edit hlinks hid') hh' hrec' (hp' ▸ hp)
  have heq : t.syncFileMetadata e h replace =
      ((t'.persistRecord e (.ofFile replace new'.encodeUpdateTo)).1,
        (t'.persistRecord e (.ofFile replace new'.encodeUpdateTo)).2.editFile h
          ZoneFile.metadataSynced) := by
    rw [State.syncFileMetadata_eq hh hl]
    show (_, if (t'.persistRecord e (.ofFile replace new'.encodeUpdateTo)).1.ok then _ else _) = _
    rw [hst]
    rfl
  rw [heq]
  exact ⟨hst, hag⟩

theorem sync (hlog : LogAgrees e.toGeometry t.log.records c.table)
    (hc : CatalogOk e.toGeometry t.cat) (hr : Catalog.Relink c h f.linkfiles new t.cat)
    (ho : Catalog.Relinkable c h f.linkfiles new) (hh : t.cat.heap h = some new)
    (hnew : FileOk e.toGeometry t.cat.nextFileId new) (hf : c.table n = some f)
    (hfree : ∀ m ∈ new.linkfiles, m ∈ f.linkfiles ∨ c.table m = none)
    (hid : new.fileId = f.fileId) (replace : Bool)
    (hext : (if replace then [] else f.extents.take f.nrSyncedExtents) ++
      new.extents.drop new.nrSyncedExtents = new.extents)
    (hp : (e.persist t.persists).ok = true) :
    (t.syncFileMetadata e h replace).1 = .OK ∧ Agreeing e (t.syncFileMetadata e h replace).2 := by
  refine syncFile hc hr ho hh hnew.live replace (fun time => ?_) hp
  have henc : Encodable e.toGeometry { new with mTime := time } :=
    ⟨hnew.enc.extents, hnew.enc.names⟩
  exact hlog.file hf henc hid ho.nodup hfree replace hext

end Agreeing

namespace UnnamedDeleted

theorem persistRecord (hs : UnnamedDeleted s.cat) (r : Record) :
    UnnamedDeleted (s.persistRecord e r).2.cat := by
  unfold State.persistRecord
  cases e.persist s.persists with
  | appended | failed | rollFailed => exact hs
  | rolled => exact hs.metadataSynced

theorem syncFileMetadata (hs : UnnamedDeleted s.cat) (h : Handle) (replace : Bool) :
    UnnamedDeleted (s.syncFileMetadata e h replace).2.cat := by
  cases hh : s.cat.heap h with
  | none => simpa [State.syncFileMetadata, hh] using hs
  | some f =>
    cases hl : f.isDeleted with
    | true => simpa [State.syncFileMetadata, hh, hl] using hs
    | false =>
      rw [State.syncFileMetadata_eq hh hl]
      have ht : UnnamedDeleted (if replace then s else s.touch e h).cat := by
        cases replace
        · exact hs.editFile h fun _ hf => hf
        · exact hs
      have hmark : ∀ (ok : Bool) (t : State), UnnamedDeleted t.cat →
          UnnamedDeleted (if ok then t.editFile h ZoneFile.metadataSynced else t).cat := by
        intro ok t ht
        cases ok
        · exact ht
        · exact ht.editFile h fun _ hf => hf
      exact hmark _ _ (ht.persistRecord _)

end UnnamedDeleted

namespace Catalog

theorem markDeleted_of_named (hc : c.Sound) (hn : c.files[n]? = some h)
    (hf : c.heap h = some f) : f.markDeleted = f :=
  if_pos (length_pos_of_mem (hc.mem hn hf))

theorem markDeleted_table (hc : c.Sound) (h : Handle) :
    (c.editFile h ZoneFile.markDeleted).Sound ∧
      (c.editFile h ZoneFile.markDeleted).table = c.table := by
  refine hc.congr (fun _ => rfl) ?_ ?_
  · intro k hk
    by_cases hkh : k = h
    · subst hkh
      obtain ⟨n, hn⟩ := (named_iff _ _).mp hk
      obtain ⟨f, hf⟩ := hc.alive hn
      simp [hf, markDeleted_of_named hc hn hf]
    · exact editFile_heap_of_ne hkh
  · intro k hk
    by_cases hkh : k = h
    · subst hkh
      simp [hc.fresh hk]
    · rw [editFile_heap_of_ne hkh]
      exact hc.fresh hk

end Catalog

def UnnamedBut (c : Catalog) (h : Handle) : Prop :=
  ∀ k f, k ≠ h → c.heap k = some f → ¬ c.Named k → f.isDeleted = true

namespace UnnamedBut

theorem metadataSynced (hc : UnnamedBut c h) : UnnamedBut c.metadataSynced h := by
  intro k f hk hf hn
  have hf' : c.heap k = some f := by
    have hn' : ¬ c.Named k := hn
    simpa [Catalog.metadataSynced, hn'] using hf
  exact hc k f hk hf' hn

theorem mark (hc : UnnamedBut c h)
    (hh : ∀ f, c.heap h = some f → f.linkfiles ≠ [] → c.Named h) :
    UnnamedDeleted (c.editFile h ZoneFile.markDeleted) := by
  intro k f hf hn
  by_cases hk : k = h
  · subst hk
    rw [Catalog.editFile_heap_self] at hf
    obtain ⟨f₀, hf₀, rfl⟩ := map_eq_some_iff.mp hf
    by_cases hl : f₀.linkfiles = []
    · simp [ZoneFile.markDeleted, hl]
    · exact absurd (hh f₀ hf₀ hl) hn
  · rw [Catalog.editFile_heap_of_ne hk] at hf
    exact hc k f hk hf hn

end UnnamedBut

def ZoneFile.appendExtents (f : ZoneFile) (extents : List ZoneExtent) (fileSize : ℕ)
    (lifetime : Lifetime) : ZoneFile :=
  { f with extents := f.extents ++ extents, fileSize, lifetime }

@[simp] theorem State.release_files (s : State) (h : Handle) :
    (s.release h).cat.files = s.cat.files := by
  unfold State.release
  split
  · rfl
  · exact Catalog.release_files

@[simp] theorem State.release_persists (s : State) (h : Handle) :
    (s.release h).persists = s.persists := by
  unfold State.release
  split <;> rfl

namespace Consistent

section

variable (hs : Consistent e s)
include hs

theorem exists_name (hh : s.cat.heap h = some f)
    (hl : f.isDeleted = false) : ∃ n : Name, s.cat.files[n]? = some h := by
  by_contra hn
  have := hs.unnamed h f hh fun hnamed => hn ((Catalog.named_iff _ _).mp hnamed)
  rw [hl] at this
  cases this

theorem syncRenaming {new : ZoneFile}
    (hr : Renaming e.toGeometry s.cat h f new t.cat) (hlog : t.log = s.log)
    (hpersists : t.persists = s.persists) (hp : (e.persist s.persists).ok = true) :
    (t.syncFileMetadata e h false).1 = .OK ∧ Consistent e (t.syncFileMetadata e h false).2 := by
  obtain ⟨n, hf⟩ := hr.named
  have hfree : ∀ m ∈ new.linkfiles, m ∈ f.linkfiles ∨ s.cat.table m = none := fun m hm =>
    (hr.able.free m hm).imp_right (hs.cat.sound.table_isSome m).mpr
  obtain ⟨hst, hag⟩ := Agreeing.sync (hlog ▸ hs.log) (hr.cat hs.cat) hr.relink hr.able
    hr.heap (hr.nextFileId ▸ hr.fileOk) hf hfree hr.fileId false (by simp [hr.extents, hr.synced])
    (hpersists ▸ hp)
  exact ⟨hst, hag, (hr.unnamed hs.unnamed).syncFileMetadata h false⟩

theorem syncFileMetadata (h : Handle)
    (hp : (e.persist s.persists).ok = true) :
    Consistent e (s.syncFileMetadata e h false).2 := by
  cases hh : s.cat.heap h with
  | none => simpa [State.syncFileMetadata, hh] using hs
  | some f =>
    cases hl : f.isDeleted with
    | true => simpa [State.syncFileMetadata, hh, hl] using hs
    | false =>
      obtain ⟨n, hn⟩ := hs.exists_name hh hl
      exact (hs.syncRenaming (hs.cat.renaming_self hn hh) rfl rfl hp).2

theorem linkFile (file : Name) {link : Name} (hne : link ≠ [])
    (hp : (e.persist s.persists).ok = true) : Consistent e (s.linkFile e file link).2 := by
  cases hlink : s.getFile link with
  | some k =>
    simp only [State.linkFile, hlink]
    exact hs
  | none =>
    cases hfile : s.getFile file with
    | none =>
      simp only [State.linkFile, hlink, hfile]
      exact hs.congr rfl rfl
    | some h =>
      obtain ⟨f, hh, -, -⟩ := hs.cat.exists_of_files hfile
      obtain ⟨hst, hsync⟩ := hs.syncRenaming (t := s.linked h link)
        (hs.cat.renaming_link hfile hh hne hlink) rfl rfl hp
      rw [State.linkFile_eq hlink hfile]
      rw [if_pos (by rw [hst]; rfl)]
      exact hsync

theorem deleteFile (hn : s.getFile n = some h)
    (hp : (e.persist s.persists).ok = true) :
    (s.deleteFileNoLock e n).1 = .OK ∧ Consistent e (s.deleteFileNoLock e n).2 ∧
      (∀ m : Name, (s.deleteFileNoLock e n).2.cat.files[m]? =
        if n = m then none else s.cat.files[m]?) ∧
      (∃ v, (s.deleteFileNoLock e n).2.cat.heap h = some v ∧ n ∉ v.linkfiles) ∧
      (s.deleteFileNoLock e n).2.persists = s.persists + 1 := by
  obtain ⟨f, hh, hf, hok⟩ := hs.cat.exists_of_files hn
  have hmem := hs.cat.sound.mem hn hh
  let f' : ZoneFile := { f with linkfiles := f.linkfiles.erase n }
  let t := (s.onCat (·.eraseName n)).editFile h fun _ => f'
  have hr : Catalog.Relink s.cat h f.linkfiles f' t.cat :=
    Catalog.relink_delete hs.cat.sound hn hh
  have ho : Catalog.Relinkable s.cat h f.linkfiles f' :=
    hs.cat.sound.relinkable hn hh (fun m hm => .inl (mem_of_mem_erase hm))
      ((hs.cat.sound.nodup hn hh).erase n) rfl
  have hok' : FileOk e.toGeometry t.cat.nextFileId f' :=
    ⟨⟨hok.enc.extents, fun hm => hok.enc.names (mem_of_mem_erase hm)⟩, hok.live,
      hok.synced_le, hok.id_lt⟩
  have hc : CatalogOk e.toGeometry t.cat := hs.cat.relink hr ho (le_refl _) fun _ => hok'
  have hheap : t.cat.heap h = some f' := by simp [t, State.editFile, State.onCat, hh]
  have hbut : UnnamedBut t.cat h := by
    intro k v hk hv hkn
    refine hs.unnamed k v (by simpa [t, State.editFile, State.onCat,
      Catalog.editFile_heap_of_ne hk] using hv) fun hkn' => hkn ?_
    obtain ⟨m, hm⟩ := (Catalog.named_iff _ _).mp hkn'
    have hmn : n ≠ m := by
      rintro rfl
      rw [show s.cat.files[n]? = some h from hn] at hm
      exact hk (some.inj hm).symm
    exact (Catalog.named_iff _ _).mpr ⟨m, by simp [t, State.editFile, State.onCat, hmn, hm]⟩
  have hnamed : f'.linkfiles ≠ [] → t.cat.Named h := by
    intro hne
    obtain ⟨m, hm⟩ := exists_mem_of_ne_nil _ hne
    exact (Catalog.named_iff _ _).mpr ⟨m, by rw [hr.files]; exact if_pos hm⟩
  have hdone : ∀ u : State, Agreeing e u → UnnamedBut u.cat h →
      (∀ v, u.cat.heap h = some v → v.linkfiles ≠ [] → u.cat.Named h) →
      Consistent e (u.editFile h ZoneFile.markDeleted) := by
    intro u hu hub huh
    obtain ⟨hsound, htable⟩ := Catalog.markDeleted_table hu.cat.sound h
    refine ⟨⟨⟨hsound, fun m v hv => hu.cat.file m v (htable ▸ hv)⟩, ?_⟩, hub.mark huh⟩
    show LogAgrees _ u.log.records (u.cat.editFile h ZoneFile.markDeleted).table
    rw [htable]
    exact hu.log
  have hfiles : ∀ m : Name, t.cat.files[m]? = if n = m then none else s.cat.files[m]? :=
    fun m => Catalog.eraseName_files n m
  have hgone : n ∉ f'.linkfiles := by
    simp [f', (hs.cat.sound.nodup hn hh).mem_erase_iff]
  have hmark : ∀ v : ZoneFile, v.markDeleted.linkfiles = v.linkfiles := by
    intro v
    unfold ZoneFile.markDeleted
    split <;> rfl
  have heq : s.deleteFileNoLock e n =
      let r := t.persistRecord e (.deletion f.fileId n)
      if r.1.ok then (r.1, r.2.editFile h ZoneFile.markDeleted)
      else (r.1, (r.2.onCat (·.insertName h n)).editFile h (·.addLinkName n)) :=
    State.deleteFileNoLock_eq hn hh hmem
  rw [heq]
  rcases PersistOutcome.eq_of_ok hp with hp | hp
  · rw [persistRecord_appended (s := t) _ hp]
    refine ⟨rfl, hdone _ ⟨hc, ?_⟩ hbut ?_, hfiles, ⟨f'.markDeleted, ?_, by rwa [hmark]⟩, rfl⟩
    · show LogAgrees _ (s.log.records ++ [.deletion f.fileId n]) t.cat.table
      rw [hr.table_eq ho]
      exact hs.log.delete hf
    · intro v hv hne
      rw [show t.cat.heap h = some v from hv] at hheap
      exact hnamed (some.inj hheap ▸ hne)
    · show (t.cat.editFile h ZoneFile.markDeleted).heap h = some f'.markDeleted
      rw [Catalog.editFile_heap_self, hheap, map_some]
  · rw [persistRecord_rolled (s := t) _ hp]
    obtain ⟨v, hv, hvl⟩ : ∃ v, t.cat.metadataSynced.heap h = some v ∧
        v.linkfiles = f'.linkfiles := by
      by_cases hk : t.cat.Named h
      · exact ⟨f'.metadataSynced, by simp [Catalog.metadataSynced, hk, hheap], rfl⟩
      · exact ⟨f', by simp [Catalog.metadataSynced, hk, hheap], rfl⟩
    refine ⟨rfl, hdone _ (.roll hc) hbut.metadataSynced ?_, hfiles,
      ⟨v.markDeleted, ?_, by rwa [hmark, hvl]⟩, rfl⟩
    · intro w hw hne
      rw [show t.cat.metadataSynced.heap h = some w from hw, some.injEq] at hv
      exact hnamed (hvl ▸ hv ▸ hne)
    · show (t.cat.metadataSynced.editFile h ZoneFile.markDeleted).heap h = some v.markDeleted
      rw [Catalog.editFile_heap_self, hv, map_some]

/-- `RenameFileNoLock` after an existing destination has gone: the file gets its new name,
or it does not list the old one and stays as it is. -/
theorem renameTo (hh : s.cat.heap h = some f) {dest : Name}
    (hne : dest ≠ []) (hdest : s.getFile dest = none)
    (hsource : s.getFile source = some h ∨ source ∉ f.linkfiles)
    (hp : (e.persist s.persists).ok = true) : Consistent e (s.renameTo e h source dest).2 := by
  by_cases hmem : source ∈ f.linkfiles
  swap
  · rw [State.renameTo_of_not_mem dest hh hmem]
    exact hs
  have hn : s.cat.files[source]? = some h := hsource.resolve_right (not_not.mpr hmem)
  obtain ⟨hst, hsync⟩ := hs.syncRenaming (t := s.renamed h f source dest)
    (hs.cat.renaming_rename hn hh hne hdest) rfl rfl hp
  rw [State.renameTo_eq dest hh hmem]
  rw [if_pos (by rw [hst]; rfl)]
  exact hsync

theorem edit (h : Handle) {edit : ZoneFile → ZoneFile}
    (hlinks : ∀ f, (edit f).linkfiles = f.linkfiles) (hid : ∀ f, (edit f).fileId = f.fileId)
    (hdel : ∀ f, (edit f).isDeleted = f.isDeleted)
    (hok : ∀ f, FileOk e.toGeometry s.cat.nextFileId f →
      FileOk e.toGeometry s.cat.nextFileId (edit f) ∧ ∀ u, Recorded u f → Recorded u (edit f)) :
    Consistent e (s.editFile h edit) := by
  refine ⟨⟨hs.cat.editFile h hlinks hid fun f hf => (hok f hf).1, ?_⟩,
    hs.unnamed.editFile h fun f hf => (hdel f).trans hf⟩
  refine hs.log.mono fun n => ?_
  show Option.Rel _ (s.cat.table n) ((s.cat.editFile h edit).table n)
  rw [Catalog.editFile_eq, Catalog.mapHeap_table, Catalog.table]
  cases hn : s.cat.files[n]? with
  | none => exact .none
  | some k =>
    obtain ⟨f, hf, -, hfok⟩ := hs.cat.exists_of_files hn
    simp only [bind_some, hf]
    by_cases hk : k = h
    · simpa [hk] using (hok f hfok).2
    · simp [hk]

/-- The files with a name stay as they are. -/
theorem keep (hfiles : t.cat.files = s.cat.files)
    (hheap : ∀ k, s.cat.Named k → t.cat.heap k = s.cat.heap k)
    (hfresh : ∀ k, t.cat.nextHandle ≤ k → t.cat.heap k = none)
    (hid : t.cat.nextFileId = s.cat.nextFileId) (hlog : t.log = s.log)
    (hun : ∀ k f, t.cat.heap k = some f → ¬ s.cat.Named k → f.isDeleted = true) :
    Consistent e t := by
  obtain ⟨hsound, htable⟩ := hs.cat.sound.congr (fun m => by rw [hfiles]) hheap hfresh
  refine ⟨⟨⟨hsound, fun n f hf => ?_⟩, ?_⟩, fun k f hf hk => hun k f hf fun hn => hk ?_⟩
  · rw [hid]
    exact hs.cat.file n f (htable ▸ hf)
  · rw [hlog, htable]
    exact hs.log
  · rw [Catalog.named_iff] at hn ⊢
    rwa [hfiles]

theorem congr_cat (hfiles : t.cat.files = s.cat.files)
    (hheap : t.cat.heap = s.cat.heap) (hnext : t.cat.nextHandle = s.cat.nextHandle)
    (hid : t.cat.nextFileId = s.cat.nextFileId) (hlog : t.log = s.log) : Consistent e t :=
  hs.keep hfiles (fun k _ => by rw [hheap])
    (fun k hk => by rw [hheap]; exact hs.cat.sound.fresh (hnext ▸ hk)) hid hlog
    fun k f hf => hs.unnamed k f (hheap ▸ hf)

theorem appendExtents (h : Handle) {extents : List ZoneExtent}
    (hne : extents ≠ []) (hext : ExtentsOk e.toGeometry extents) {fileSize : ℕ}
    {lifetime : Lifetime} : Consistent e
      ((s.editFile h (·.appendExtents extents fileSize lifetime)).onCat (·.addUsed extents)) := by
  have hedit : Consistent e (s.editFile h (·.appendExtents extents fileSize lifetime)) := by
    refine hs.edit h (fun _ => rfl) (fun _ => rfl) (fun _ => rfl) fun f hf => ⟨?_, fun u hu => ?_⟩
    · refine ⟨⟨?_, hf.enc.names⟩, hf.live, ?_, hf.id_lt⟩
      · exact fun x hx => (mem_append.mp hx).elim (hf.enc.extents x) (hext x)
      · exact hf.synced_le.trans (by simp [ZoneFile.appendExtents])
    · refine ⟨hu.fileId, hu.linkfiles, ?_, fun hlen => ?_⟩
      · rw [hu.extents]
        simp [ZoneFile.appendExtents, take_append_of_le_length hf.synced_le]
      · have hpos := length_pos_iff.mpr hne
        have hle := hf.synced_le
        simp [ZoneFile.appendExtents] at hlen
        omega
  exact hedit.congr_cat rfl rfl rfl rfl rfl

theorem release (h : Handle) : Consistent e (s.release h) := by
  unfold State.release
  split
  · exact hs
  · refine hs.keep Catalog.release_files (fun k hk => Catalog.release_heap_of_named hk)
      (fun k hk => ?_) Catalog.release_nextFileId rfl fun k f hf hk => ?_
    · replace hk : (s.cat.release h).nextHandle ≤ k := hk
      show (s.cat.release h).heap k = none
      rw [Catalog.release_nextHandle] at hk
      by_cases hkn : s.cat.Named k
      · rw [Catalog.release_heap_of_named hkn]
        exact hs.cat.sound.fresh hk
      · by_cases hkh : k = h
        · subst hkh
          simp [Catalog.release, hkn, Catalog.destroy_heap]
        · rw [Catalog.release_heap_of_ne hkh]
          exact hs.cat.sound.fresh hk
    · refine hs.unnamed k f ?_ hk
      replace hf : (s.cat.release h).heap k = some f := hf
      by_cases hkh : k = h
      · subst hkh
        simp [Catalog.release, hk, Catalog.destroy_heap] at hf
      · rwa [Catalog.release_heap_of_ne hkh] at hf

theorem openWriter (h : Handle) (fname : Name) (directWrites : Bool) :
    Consistent e (s.openWriter e h fname directWrites) := by
  unfold State.openWriter
  cases s.cat.heap h with
  | none => exact hs
  | some f =>
    have hopen : Consistent e (s.editFile h ({ · with openForWr := true })) :=
      hs.edit h (fun _ => rfl) (fun _ => rfl) (fun _ => rfl) fun f hf =>
        ⟨⟨⟨hf.enc.extents, hf.enc.names⟩, hf.live, hf.synced_le, hf.id_lt⟩,
          fun u hu => ⟨hu.fileId, hu.linkfiles, hu.extents, hu.synced⟩⟩
    exact hopen.congr rfl rfl

end

end Consistent

section NewZoneFile

variable (id now : ℕ) (fname : Name) (directWrites : Bool)

theorem newZoneFile_eq : ∃ ioType isSparse, newZoneFile id now fname directWrites =
    { ZoneFile.new id with mTime := now, linkfiles := [fname], ioType, isSparse } := by
  unfold newZoneFile
  split
  · exact ⟨.wal, !directWrites, rfl⟩
  · split
    · exact ⟨.data, false, rfl⟩
    · exact ⟨.unknown, false, rfl⟩

end NewZoneFile

/-- When the creation record is appended, it makes no difference that the name is entered
only afterwards. -/
theorem State.createFile_appended (fname : Name) (directWrites : Bool)
    (hp : e.persist s.persists = .appended) :
    s.createFile e fname directWrites = (.OK,
      (((s.allocFile e fname directWrites).onCat (·.insertName s.cat.nextHandle fname)).syncFileMetadata
        e s.cat.nextHandle false).2.openWriter e s.cat.nextHandle fname directWrites) := by
  let f := newZoneFile s.cat.nextFileId (e.clock s.clockReads) fname directWrites
  let t := s.allocFile e fname directWrites
  let t' := t.onCat (·.insertName s.cat.nextHandle fname)
  have hh : t.cat.heap s.cat.nextHandle = some f := Catalog.alloc_heap_self f
  have hh' : t'.cat.heap s.cat.nextHandle = some f := hh
  have hl : f.isDeleted = false := by
    obtain ⟨_, _, heq⟩ := newZoneFile_eq s.cat.nextFileId (e.clock s.clockReads) fname directWrites
    simp only [f, heq]
    rfl
  have hpt : ∀ r, (t.touch e s.cat.nextHandle).persistRecord e r =
      (.OK, _) := fun r => persistRecord_appended r hp
  have hpt' : ∀ r, (t'.touch e s.cat.nextHandle).persistRecord e r =
      (.OK, _) := fun r => persistRecord_appended r hp
  have hsync := State.syncFileMetadata_eq (e := e) hh hl false
  have hsync' := State.syncFileMetadata_eq (e := e) hh' hl false
  simp only [Bool.false_eq_true, if_false, hpt, hpt'] at hsync hsync'
  have hcreate : s.createFile e fname directWrites =
      let r := t.syncFileMetadata e s.cat.nextHandle false
      if !r.1.ok then (r.1, r.2.onCat (·.destroy s.cat.nextHandle))
      else (r.1, (r.2.onCat (·.insertName s.cat.nextHandle fname)).openWriter e
        s.cat.nextHandle fname directWrites) := rfl
  rw [hcreate, hsync]
  rw [hsync']
  rfl

namespace Consistent

section

variable (hs : Consistent e s)
include hs

theorem createFile {fname : Name} (hne : fname ≠ [])
    (hfree : s.getFile fname = none) (directWrites : Bool)
    (hp : e.persist s.persists = .appended) :
    Consistent e (s.createFile e fname directWrites).2 := by
  let f := newZoneFile s.cat.nextFileId (e.clock s.clockReads) fname directWrites
  let t := (s.allocFile e fname directWrites).onCat (·.insertName s.cat.nextHandle fname)
  obtain ⟨ioType, isSparse, heq⟩ : ∃ ioType isSparse, f =
      { ZoneFile.new s.cat.nextFileId with
        mTime := e.clock s.clockReads, linkfiles := [fname], ioType, isSparse } :=
    newZoneFile_eq _ _ _ _
  have hlinks : f.linkfiles = [fname] := by rw [heq]
  have hid : f.fileId = s.cat.nextFileId := by rw [heq]; rfl
  have hids : ∀ m v, s.cat.table m = some v → v.fileId ≠ f.fileId := fun m v hv =>
    hid ▸ (hs.cat.file m v hv).id_lt.ne
  have hr : Catalog.Relink s.cat s.cat.nextHandle [] f t.cat :=
    let hr := Catalog.relink_new hs.cat.sound hlinks hfree
    ⟨hr.files, hr.self, hr.other, hr.fresh⟩
  have ho : Catalog.Relinkable s.cat s.cat.nextHandle [] f := by
    refine ⟨fun m => ⟨by simp, fun hm => absurd hm (hs.cat.sound.nextHandle_unused m)⟩, ?_, ?_, ?_⟩
    · rw [hlinks]
      exact fun m hm => .inr (mem_singleton.mp hm ▸ hfree)
    · simp [hlinks]
    · exact fun _ m k v hm _ hv => hids m v (Catalog.table_eq_some.mpr ⟨k, hm, hv⟩)
  have hok : FileOk e.toGeometry t.cat.nextFileId f := by
    refine ⟨⟨by rw [heq]; simp [ZoneFile.new, ExtentsOk], ?_⟩, by rw [heq]; rfl, by rw [heq]; rfl, ?_⟩
    · simpa [hlinks] using hne
    · rw [hid]
      exact Nat.lt_succ_self _
  have hc : CatalogOk e.toGeometry t.cat := hs.cat.relink hr ho (Nat.le_succ _) fun _ => hok
  have hheap : t.cat.heap s.cat.nextHandle = some f := Catalog.alloc_heap_self f
  have hun : UnnamedDeleted t.cat := hs.unnamed.relink hr ho
    (fun k hk => Catalog.alloc_heap_of_ne f hk) (by simp [hlinks])
  obtain ⟨-, hag⟩ := Agreeing.syncFile hc hr ho hheap hok.live false
    (fun time => hs.log.create
      (show Encodable e.toGeometry { f with mTime := time } from
        ⟨hok.enc.extents, hok.enc.names⟩) hlinks ((hs.cat.sound.table_isSome fname).mpr hfree)
      (by show f.nrSyncedExtents = 0; rw [heq]; rfl) hids)
    (by rw [show t.persists = s.persists from rfl, hp]; rfl)
  have hsynced : Consistent e (t.syncFileMetadata e s.cat.nextHandle false).2 :=
    ⟨hag, hun.syncFileMetadata _ _⟩
  rw [createFile_appended fname directWrites hp]
  exact hsynced.openWriter _ _ _

theorem renameFile
    (hsource : s.getFile source = some h) (hne : dest ≠ []) (hp : ∀ n, (e.persist n).ok = true) :
    Consistent e (s.deleteExisting e dest).2 ∧
      Consistent e ((s.deleteExisting e dest).2.renameTo e h source dest).2 := by
  unfold State.deleteExisting
  cases hdest : s.getFile dest with
  | none =>
    obtain ⟨f, hh, -, -⟩ := hs.cat.exists_of_files hsource
    exact ⟨hs, hs.renameTo hh hne hdest (.inl hsource) (hp _)⟩
  | some k =>
    obtain ⟨-, ht, hfiles, ⟨v, hv, hgone⟩, -⟩ := hs.deleteFile hdest (hp _)
    have hfree : (s.deleteFileNoLock e dest).2.getFile dest = none := by
      rw [State.getFile, hfiles, if_pos rfl]
    refine ⟨ht, ?_⟩
    by_cases hsd : dest = source
    · -- the file has just lost the name it is to be renamed from
      subst hsd
      rw [hsource, some.injEq] at hdest
      subst hdest
      exact ht.renameTo hv hne hfree (.inr hgone) (hp _)
    · have hsource' : (s.deleteFileNoLock e dest).2.getFile source = some h := by
        rw [State.getFile, hfiles, if_neg hsd]
        exact hsource
      obtain ⟨f, hh, -, -⟩ := ht.cat.exists_of_files hsource'
      exact ht.renameTo hh hne hfree (.inl hsource') (hp _)

theorem edit_unnamed {edit : ZoneFile → ZoneFile}
    (hh : ¬ s.cat.Named h) (hdel : ∀ f, (edit f).isDeleted = f.isDeleted) :
    Consistent e (s.editFile h edit) := by
  have hother {k : Handle} (hk : k ≠ h) : (s.cat.editFile h edit).heap k = s.cat.heap k :=
    Catalog.editFile_heap_of_ne hk
  refine hs.keep rfl (fun k hk => hother fun hkh => hh (hkh ▸ hk)) (fun k hk => ?_) rfl rfl
    fun k f hf hk => hs.unnamed.editFile h (fun f hf => (hdel f).trans hf) k f hf hk
  by_cases hkh : k = h
  · subst hkh
    show (s.cat.editFile k edit).heap k = none
    simp [hs.cat.sound.fresh hk]
  · exact (hother hkh).trans (hs.cat.sound.fresh hk)

theorem syncFileExtents (h : Handle) {newExtents : List ZoneExtent}
    (hext : ExtentsOk e.toGeometry newExtents) (hp : (e.persist s.persists).ok = true) :
    Consistent e (s.syncFileExtents e h newExtents).2 := by
  cases hh : s.cat.heap h with
  | none => simpa [State.syncFileExtents, hh] using hs
  | some f =>
    let edit : ZoneFile → ZoneFile := fun f => ({ f with extents := newExtents }).metadataUnsynced
    let t := s.editFile h edit
    have hth : t.cat.heap h = some (edit f) := by simp [t, State.editFile, State.onCat, hh]
    have hsynced : Consistent e (t.syncFileMetadata e h true).2 := by
      cases hl : f.isDeleted with
      | true =>
        have hun : ¬ s.cat.Named h := by
          intro hn
          obtain ⟨n, hn⟩ := (Catalog.named_iff _ _).mp hn
          obtain ⟨v, hv, -, hok⟩ := hs.cat.exists_of_files hn
          rw [hh, some.injEq] at hv
          have := hok.live
          rw [← hv, hl] at this
          cases this
        have hskip : t.syncFileMetadata e h true = (.OK, t) := by
          have hl' : (edit f).isDeleted = true := hl
          simp only [State.syncFileMetadata, hth, hl', if_true]
        rw [hskip]
        exact hs.edit_unnamed hun fun _ => rfl
      | false =>
        obtain ⟨n, hn⟩ := hs.exists_name hh hl
        obtain ⟨v, hv, hf, hok⟩ := hs.cat.exists_of_files hn
        rw [hh, some.injEq] at hv
        subst hv
        have hr := Catalog.relink_edit hs.cat.sound hn hh edit rfl
        have hnd : (edit f).linkfiles.Nodup := hs.cat.sound.nodup (f := f) hn hh
        have ho : Catalog.Relinkable s.cat h f.linkfiles (edit f) :=
          hs.cat.sound.relinkable hn hh (fun m hm => .inl hm) hnd rfl
        have hok' : FileOk e.toGeometry s.cat.nextFileId (edit f) :=
          ⟨⟨hext, hok.enc.names⟩, hl, Nat.zero_le _, hok.id_lt⟩
        have hc : CatalogOk e.toGeometry t.cat := hs.cat.relink hr ho (le_refl _) fun _ => hok'
        have hun : UnnamedDeleted t.cat := hs.unnamed.editFile h fun _ hf => hf
        exact ⟨(Agreeing.sync (t := t) hs.log hc hr ho hth hok' hf (fun m hm => .inl hm) rfl true
          (by simp [edit, ZoneFile.metadataUnsynced]) hp).2, hun.syncFileMetadata h true⟩
    simp only [State.syncFileExtents, hh]
    split
    · exact hsynced
    · exact hsynced.congr_cat rfl rfl rfl rfl rfl

end

end Consistent

end ZenFs
