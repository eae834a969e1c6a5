import ZenFs.Namespace.LogAgreement

/-!
The state in memory and the log, kept in agreement by the metadata operations.

`CatalogOk` collects what holds of every file in memory, `Agreeing` adds that the log
agrees with the catalog. Each operation changes one file by a `Relink` and persists it,
with an appended record or the snapshot of a roll (`Agreeing.persistFile`).
-/

namespace ZenFs

open Library LinkTable List Option

variable {dest link n : Name} {e : Env} {k : ℕ}
variable {new new' : ZoneFile} {old : List Name} {s t : State}

structure FileOk (g : Geometry) (nextFileId : ℕ) (f : ZoneFile) : Prop where
  enc : Encodable g f
  live : f.isDeleted = false
  synced_le : f.nrSyncedExtents ≤ f.extents.length
  id_lt : f.fileId < nextFileId

structure CatalogOk (g : Geometry) (c : Catalog) : Prop where
  sound : c.Sound
  file : ∀ n f, c.table n = some f → FileOk g c.nextFileId f

def UnnamedDeleted (c : Catalog) : Prop :=
  ∀ h f, c.heap h = some f → ¬ c.Named h → f.isDeleted = true

namespace FileOk

variable {g : Geometry} {m : ℕ} {f : ZoneFile}

theorem metadataSynced (hf : FileOk g m f) : FileOk g m f.metadataSynced :=
  ⟨⟨hf.enc.extents, hf.enc.names⟩, hf.live, le_refl _, hf.id_lt⟩

theorem mono (hf : FileOk g m f) (hk : m ≤ k) : FileOk g k f :=
  ⟨hf.enc, hf.live, hf.synced_le, hf.id_lt.trans_le hk⟩

end FileOk

namespace Catalog

variable {c d : Catalog} {h : Handle}

def mapHeap (c : Catalog) (edit : Handle → ZoneFile → ZoneFile) : Catalog :=
  { c with heap := fun h => (c.heap h).map (edit h) }

theorem editFile_eq (c : Catalog) (h : Handle) (edit : ZoneFile → ZoneFile) :
    c.editFile h edit = c.mapHeap fun k => if k = h then edit else id := by
  rw [editFile]
  congr 1
  funext k
  by_cases hk : k = h
  · subst hk
    simp
  · simp [hk]

theorem metadataSynced_eq (c : Catalog) : c.metadataSynced =
    c.mapHeap fun k => if c.Named k then ZoneFile.metadataSynced else id := by
  rw [metadataSynced]
  congr 1
  funext k
  by_cases hk : c.Named k <;> simp [hk]

theorem mapHeap_table (c : Catalog) (edit : Handle → ZoneFile → ZoneFile) (n : Name) :
    (c.mapHeap edit).table n = c.files[n]?.bind fun h => (c.heap h).map (edit h) := rfl

theorem metadataSynced_table (c : Catalog) (n : Name) :
    c.metadataSynced.table n = (c.table n).map ZoneFile.metadataSynced := by
  rw [metadataSynced_eq, mapHeap_table, table]
  cases hn : c.files[n]? with
  | none => rfl
  | some h => simp [(named_iff c h).mpr ⟨n, hn⟩]

theorem Sound.mapHeap {edit : Handle → ZoneFile → ZoneFile} (hc : c.Sound)
    (hlinks : ∀ h f, (edit h f).linkfiles = f.linkfiles)
    (hid : ∀ h f, (edit h f).fileId = f.fileId) : (c.mapHeap edit).Sound where
  alive {n h} hn := by
    obtain ⟨f, hf⟩ := hc.alive hn
    exact ⟨edit h f, by simp [Catalog.mapHeap, hf]⟩
  mem hn hf := by
    obtain ⟨f₀, hf₀, rfl⟩ := map_eq_some_iff.mp hf
    rw [hlinks]
    exact hc.mem hn hf₀
  all hn hf hm := by
    obtain ⟨f₀, hf₀, rfl⟩ := map_eq_some_iff.mp hf
    rw [hlinks] at hm
    exact hc.all hn hf₀ hm
  nodup hn hf := by
    obtain ⟨f₀, hf₀, rfl⟩ := map_eq_some_iff.mp hf
    rw [hlinks]
    exact hc.nodup hn hf₀
  inj hn hm hf hf' heq := by
    obtain ⟨f₀, hf₀, rfl⟩ := map_eq_some_iff.mp hf
    obtain ⟨f₁, hf₁, rfl⟩ := map_eq_some_iff.mp hf'
    rw [hid, hid] at heq
    exact hc.inj hn hm hf₀ hf₁ heq
  fresh hk := by
    simp [Catalog.mapHeap, hc.fresh hk]

theorem Relink.editFile (hr : Relink c h old new d)
    (hh : d.heap h = some new) (edit : ZoneFile → ZoneFile)
    (hlinks : (edit new).linkfiles = new.linkfiles) :
    Relink c h old (edit new) (d.editFile h edit) where
  files m := by rw [editFile_files, hr.files, hlinks]
  self _ := by simp [hh]
  other k hk hn := by rw [editFile_heap_of_ne hk, hr.other k hk hn]
  fresh k hk := by
    have hkh : k ≠ h := by
      rintro rfl
      rw [hr.fresh k hk] at hh
      cases hh
    rw [editFile_heap_of_ne hkh]
    exact hr.fresh k hk

theorem Relinkable.edit (ho : Relinkable c h old new)
    (hlinks : new'.linkfiles = new.linkfiles) (hid : new'.fileId = new.fileId) :
    Relinkable c h old new' :=
  ⟨ho.old_iff, by rw [hlinks]; exact ho.free, by rw [hlinks]; exact ho.nodup,
    by rw [hlinks, hid]; exact ho.id_ne⟩

end Catalog

namespace CatalogOk

open Catalog

variable {g : Geometry} {c d : Catalog} {h : Handle}

section

variable (hc : CatalogOk g c)
include hc

theorem exists_of_files (hn : c.files[n]? = some h) :
    ∃ f, c.heap h = some f ∧ c.table n = some f ∧ FileOk g c.nextFileId f := by
  obtain ⟨f, hf⟩ := hc.sound.alive hn
  have ht : c.table n = some f := table_eq_some.mpr ⟨h, hn, hf⟩
  exact ⟨f, hf, ht, hc.file n f ht⟩

theorem mapHeap {edit : Handle → ZoneFile → ZoneFile}
    (hlinks : ∀ h f, (edit h f).linkfiles = f.linkfiles)
    (hid : ∀ h f, (edit h f).fileId = f.fileId)
    (hok : ∀ h f, FileOk g c.nextFileId f → FileOk g c.nextFileId (edit h f)) :
    CatalogOk g (c.mapHeap edit) where
  sound := hc.sound.mapHeap hlinks hid
  file n f hf := by
    obtain ⟨h, hn, hf⟩ := bind_eq_some_iff.mp hf
    obtain ⟨f', hf', rfl⟩ := map_eq_some_iff.mp hf
    exact hok h f' (hc.file n f' (table_eq_some.mpr ⟨h, hn, hf'⟩))

theorem editFile {edit : ZoneFile → ZoneFile} (h : Handle)
    (hlinks : ∀ f, (edit f).linkfiles = f.linkfiles) (hid : ∀ f, (edit f).fileId = f.fileId)
    (hok : ∀ f, FileOk g c.nextFileId f → FileOk g c.nextFileId (edit f)) :
    CatalogOk g (c.editFile h edit) := by
  rw [editFile_eq]
  refine hc.mapHeap ?_ ?_ ?_ <;> intro k f <;> by_cases hk : k = h <;> simp [hk, hlinks, hid]
  exact hok f

theorem metadataSynced : CatalogOk g c.metadataSynced := by
  rw [metadataSynced_eq]
  refine hc.mapHeap ?_ ?_ ?_ <;> intro k f <;> by_cases hk : c.Named k <;>
    simp [hk, ZoneFile.metadataSynced]
  exact FileOk.metadataSynced

theorem relink (hr : Relink c h old new d) (ho : Relinkable c h old new)
    (hnext : c.nextFileId ≤ d.nextFileId)
    (hnew : new.linkfiles ≠ [] → FileOk g d.nextFileId new) : CatalogOk g d where
  sound := hr.sound hc.sound ho
  file n f hf := by
    rw [hr.table_eq ho] at hf
    rcases (swap_eq_some _ _ _ _).mp hf with ⟨hn, rfl⟩ | ⟨-, -, hf⟩
    · exact hnew (ne_nil_of_mem hn)
    · exact (hc.file n f hf).mono hnext

end

end CatalogOk

namespace UnnamedDeleted

open Catalog

variable {c d : Catalog} {h : Handle}

section

variable (hc : UnnamedDeleted c)
include hc

theorem mapHeap {edit : Handle → ZoneFile → ZoneFile}
    (hdel : ∀ h f, f.isDeleted = true → (edit h f).isDeleted = true) :
    UnnamedDeleted (c.mapHeap edit) := by
  intro h f hf hn
  obtain ⟨f', hf', rfl⟩ := map_eq_some_iff.mp hf
  exact hdel h f' (hc h f' hf' hn)

theorem editFile {edit : ZoneFile → ZoneFile} (h : Handle)
    (hdel : ∀ f, f.isDeleted = true → (edit f).isDeleted = true) :
    UnnamedDeleted (c.editFile h edit) := by
  rw [editFile_eq]
  refine hc.mapHeap fun k f hf => ?_
  by_cases hk : k = h <;> simp [hk, hf, hdel]

theorem metadataSynced : UnnamedDeleted c.metadataSynced := by
  rw [metadataSynced_eq]
  refine hc.mapHeap fun k f hf => ?_
  by_cases hk : c.Named k <;> simp [hk, hf, ZoneFile.metadataSynced]

theorem relink (hr : Relink c h old new d) (ho : Relinkable c h old new)
    (hother : ∀ k, k ≠ h → d.heap k = c.heap k)
    (hself : new.linkfiles = [] → ∀ f, d.heap h = some f → f.isDeleted = true) :
    UnnamedDeleted d := by
  intro k f hf hk
  by_cases hkh : k = h
  · subst hkh
    refine hself ?_ f hf
    by_contra hne
    obtain ⟨m, hm⟩ := exists_mem_of_ne_nil _ hne
    exact hk ((named_iff _ _).mpr ⟨m, by rw [hr.files]; exact if_pos hm⟩)
  · rw [hother k hkh] at hf
    refine hc k f hf fun hck => hk ?_
    obtain ⟨n, hn⟩ := (named_iff _ _).mp hck
    have hno : n ∉ old := by
      rw [ho.old_iff, hn]
      simpa using hkh
    have hnn : n ∉ new.linkfiles := by
      intro hnn
      rcases ho.free n hnn with hno' | hnone
      · exact hno hno'
      · rw [hn] at hnone
        cases hnone
    exact (named_iff _ _).mpr ⟨n, by rw [hr.files]; simp [hnn, hno, hn]⟩

end

end UnnamedDeleted

/-- In `d` the object `f` of the catalog `c` has become `new`, which may have other names;
everything else is as in `c`. -/
structure Renaming (g : Geometry) (c : Catalog) (h : Handle) (f new : ZoneFile) (d : Catalog) :
    Prop where
  named : ∃ n : Name, c.table n = some f
  relink : Catalog.Relink c h f.linkfiles new d
  able : Catalog.Relinkable c h f.linkfiles new
  heap : d.heap h = some new
  other : ∀ k, k ≠ h → d.heap k = c.heap k
  nextFileId : d.nextFileId = c.nextFileId
  fileOk : FileOk g c.nextFileId new
  fileId : new.fileId = f.fileId
  links : new.linkfiles ≠ []
  extents : new.extents = f.extents
  synced : new.nrSyncedExtents = f.nrSyncedExtents

namespace Renaming

variable {g : Geometry} {c d : Catalog} {h : Handle} {f : ZoneFile}

theorem cat (hr : Renaming g c h f new d) (hc : CatalogOk g c) : CatalogOk g d :=
  hc.relink hr.relink hr.able hr.nextFileId.ge fun _ => hr.nextFileId ▸ hr.fileOk

theorem unnamed (hr : Renaming g c h f new d) (hc : UnnamedDeleted c) : UnnamedDeleted d :=
  hc.relink hr.relink hr.able hr.other fun hnil => absurd hnil hr.links

end Renaming

namespace CatalogOk

variable {g : Geometry} {c : Catalog} {h : Handle} {f : ZoneFile}

section

variable (hc : CatalogOk g c)
include hc

section

variable (hn : c.files[n]? = some h)
include hn

section

variable (hh : c.heap h = some f)
include hh

theorem renaming_self :
    Renaming g c h f f c := by
  have hf : c.table n = some f := Catalog.table_eq_some.mpr ⟨h, hn, hh⟩
  have hr := Catalog.relink_edit hc.sound hn hh id rfl
  rw [Catalog.editFile_id] at hr
  exact ⟨⟨n, hf⟩, hr,
    hc.sound.relinkable hn hh (fun m hm => .inl hm) (hc.sound.nodup hn hh) rfl, hh, fun _ _ => rfl,
    rfl, hc.file n f hf, rfl, ne_nil_of_mem (hc.sound.mem hn hh), rfl, rfl⟩

theorem not_mem_of_free {m : Name} (hm : c.files[m]? = none) : m ∉ f.linkfiles := by
  intro hmem
  have := hc.sound.all hn hh hmem
  rw [hm] at this
  cases this

theorem renaming_link (hne : link ≠ []) (hlink : c.files[link]? = none) :
    Renaming g c h f (f.addLinkName link)
      ((c.editFile h (·.addLinkName link)).insertName h link) := by
  have hf : c.table n = some f := Catalog.table_eq_some.mpr ⟨h, hn, hh⟩
  have hok := hc.file n f hf
  have hfresh := hc.not_mem_of_free hn hh hlink
  refine ⟨⟨n, hf⟩, Catalog.relink_link hc.sound hn hh hlink, ?_, by simp [hh],
    fun k hk => Catalog.editFile_heap_of_ne hk, rfl, ?_, rfl, by simp [ZoneFile.addLinkName],
    rfl, rfl⟩
  · refine hc.sound.relinkable hn hh (fun m hm => ?_) ?_ rfl
    · rcases mem_append.mp hm with hm | hm
      · exact .inl hm
      · rw [mem_singleton.mp hm]
        exact .inr hlink
    · exact nodup_append.mpr ⟨hc.sound.nodup hn hh, by simp,
        by rintro m hm _ hm' rfl; exact hfresh (mem_singleton.mp hm' ▸ hm)⟩
  · exact ⟨⟨hok.enc.extents, by simpa [ZoneFile.addLinkName, Ne.symm hne] using hok.enc.names⟩,
      hok.live, hok.synced_le, hok.id_lt⟩

theorem renaming_rename (hne : dest ≠ []) (hdest : c.files[dest]? = none) :
    Renaming g c h f { f with linkfiles := f.linkfiles.erase n ++ [dest] }
      (((c.editFile h fun _ => { f with linkfiles := f.linkfiles.erase n ++ [dest] }).eraseName
        n).insertName h dest) := by
  have hf : c.table n = some f := Catalog.table_eq_some.mpr ⟨h, hn, hh⟩
  have hok := hc.file n f hf
  have hfresh := hc.not_mem_of_free hn hh hdest
  refine ⟨⟨n, hf⟩, Catalog.relink_rename hc.sound hn hh hdest, ?_, by simp [hh],
    fun k hk => Catalog.editFile_heap_of_ne hk, rfl, ?_, rfl, by simp, rfl, rfl⟩
  · refine hc.sound.relinkable hn hh (fun m hm => ?_) ?_ rfl
    · rcases mem_append.mp hm with hm | hm
      · exact .inl (mem_of_mem_erase hm)
      · rw [mem_singleton.mp hm]
        exact .inr hdest
    · exact nodup_append.mpr ⟨(hc.sound.nodup hn hh).erase n, by simp, by
        rintro m hm _ hm' rfl
        exact hfresh (mem_singleton.mp hm' ▸ mem_of_mem_erase hm)⟩
  · refine ⟨⟨hok.enc.extents, fun hm => ?_⟩, hok.live, hok.synced_le, hok.id_lt⟩
    rcases mem_append.mp hm with hm | hm
    · exact hok.enc.names (mem_of_mem_erase hm)
    · exact hne (mem_singleton.mp hm).symm

end

end

end

end CatalogOk

structure Agreeing (e : Env) (s : State) : Prop where
  cat : CatalogOk e.toGeometry s.cat
  log : LogAgrees e.toGeometry s.log.records s.cat.table

structure Consistent (e : Env) (s : State) : Prop extends Agreeing e s where
  unnamed : UnnamedDeleted s.cat

theorem Consistent.congr (hs : Consistent e s) (hcat : t.cat = s.cat)
    (hlog : t.log = s.log) : Consistent e t :=
  ⟨⟨hcat ▸ hs.cat, by rw [hcat, hlog]; exact hs.log⟩, hcat ▸ hs.unnamed⟩

theorem State.persistRecord_appended (r : Record)
    (hp : e.persist s.persists = .appended) : s.persistRecord e r =
      (.OK, ({ s with persists := s.persists + 1 } : State).addRecord r) := by
  simp [State.persistRecord, hp]

theorem State.persistRecord_rolled (r : Record)
    (hp : e.persist s.persists = .rolled) : s.persistRecord e r =
      (.OK, ({ s with persists := s.persists + 1 } : State).rollMetaZoneLocked) := by
  simp [State.persistRecord, hp]

theorem PersistOutcome.eq_of_ok {o : PersistOutcome} (ho : o.ok = true) :
    o = .appended ∨ o = .rolled := by
  cases o <;> simp [PersistOutcome.ok] at ho ⊢

theorem Agreeing.roll (hc : CatalogOk e.toGeometry t.cat) :
    Agreeing e t.rollMetaZoneLocked where
  cat := hc.metadataSynced
  log := by
    have htable : t.cat.metadataSynced.table =
        fun n => (t.cat.table n).map ZoneFile.metadataSynced :=
      funext t.cat.metadataSynced_table
    show LogAgrees e.toGeometry [t.cat.encodeSnapshotTo] t.cat.metadataSynced.table
    rw [htable]
    exact logAgrees_snapshot hc.sound fun n f hf => (hc.file n f hf).enc

/-- A file that has been given other names or other data in memory is persisted and
marked as synced. -/
theorem Agreeing.persistFile {c : Catalog} {h : Handle}
    {r : Record} (hc : CatalogOk e.toGeometry t.cat)
    (hr : Catalog.Relink c h old new t.cat) (ho : Catalog.Relinkable c h old new)
    (hh : t.cat.heap h = some new)
    (hrec : LogAgrees e.toGeometry (t.log.records ++ [r])
      (swap c.table old new.linkfiles new.metadataSynced))
    (hp : (e.persist t.persists).ok = true) :
    (t.persistRecord e r).1 = .OK ∧
      Agreeing e ((t.persistRecord e r).2.editFile h ZoneFile.metadataSynced) := by
  have hsync : ∀ d : Catalog, CatalogOk e.toGeometry d →
      CatalogOk e.toGeometry (d.editFile h ZoneFile.metadataSynced) := fun d hd =>
    hd.editFile h (fun _ => rfl) (fun _ => rfl) fun _ => FileOk.metadataSynced
  rcases PersistOutcome.eq_of_ok hp with hp | hp
  · rw [State.persistRecord_appended r hp]
    refine ⟨rfl, hsync _ hc, ?_⟩
    have htable := (hr.editFile hh ZoneFile.metadataSynced rfl).table_eq (ho.edit rfl rfl)
    show LogAgrees e.toGeometry (t.log.records ++ [r])
      (t.cat.editFile h ZoneFile.metadataSynced).table
    rw [htable]
    exact hrec
  · rw [State.persistRecord_rolled r hp]
    have hroll : Agreeing e ({ t with persists := t.persists + 1 } : State).rollMetaZoneLocked :=
      .roll hc
    refine ⟨rfl, hsync _ hroll.cat, ?_⟩
    have htable : (t.cat.metadataSynced.editFile h ZoneFile.metadataSynced).table =
        t.cat.metadataSynced.table := by
      funext n
      show (t.cat.files[n]?.bind (t.cat.metadataSynced.editFile h _).heap) =
        t.cat.files[n]?.bind t.cat.metadataSynced.heap
      cases hn : t.cat.files[n]? with
      | none => rfl
      | some k =>
        have hk : t.cat.Named k := (Catalog.named_iff _ _).mpr ⟨n, hn⟩
        by_cases hkh : k = h
        · subst hkh
          cases hf : t.cat.heap k <;>
            simp [Catalog.metadataSynced, hk, hf, ZoneFile.metadataSynced]
        · exact Catalog.editFile_heap_of_ne hkh
    show LogAgrees e.toGeometry _ (t.cat.metadataSynced.editFile h ZoneFile.metadataSynced).table
    rw [htable]
    exact hroll.log

end ZenFs
