import ZenFs.Namespace.Links

/-!
What the replay of one record does to a sound catalog.

An update of a known file and a deletion give the file other names; an update of an
unknown file adds it under its only name; a snapshot rebuilds the table it was taken
from. Each case is a `Relink`, so the catalog stays sound.
-/

namespace ZenFs

open Library List Option

variable {f : ZoneFile} {g : Geometry} {imgs : List FileImage} {k : Handle} {l : List ZoneExtent}
variable {name : Name} {rest : List Name}

/-- The extents lie in the zones they are booked on. -/
def ExtentsOk (g : Geometry) (l : List ZoneExtent) : Prop :=
  ∀ x ∈ l, g.getIOZone x.start = some x.zone

/-- A file that `DecodeFrom` accepts back from its record. -/
structure Encodable (g : Geometry) (f : ZoneFile) : Prop where
  extents : ExtentsOk g f.extents
  names : [] ∉ f.linkfiles

/-- What `DecodeFrom` makes of the record of a file with its extents from `k` on. -/
def ZoneFile.redecoded (f : ZoneFile) (k : ℕ) : ZoneFile :=
  { ZoneFile.new f.fileId with
    fileSize := f.fileSize
    lifetime := f.lifetime
    extents := f.extents.drop k
    nrSyncedExtents := (f.extents.drop k).length
    mTime := f.mTime
    extentStart := f.extentStart
    isSparse := f.isSparse
    linkfiles := f.linkfiles }

theorem mapM_decodeExtent (hl : ExtentsOk g l) :
    (l.map fun x => (x.start, x.length)).mapM (decodeExtent g) = .ok l := by
  induction l with
  | nil => rfl
  | cons x l ih =>
    have hx : decodeExtent g (x.start, x.length) = .ok x := by
      simp [decodeExtent, hl x (by simp)]
    rw [map_cons, mapM_cons, hx, ih fun y hy => hl y (by simp [hy])]
    rfl

theorem decodeFrom_encodeTo (hf : Encodable g f) (k : ℕ) :
    decodeFrom g (f.encodeTo k) = .ok (f.redecoded k) := by
  have hx : ExtentsOk g (f.extents.drop k) := fun x hx => hf.extents x (mem_of_mem_drop hx)
  have hm : (f.encodeTo k).extents.mapM (decodeExtent g) = .ok (f.extents.drop k) :=
    mapM_decodeExtent hx
  have hn : (f.encodeTo k).linkfiles.any (·.isEmpty) = false := by
    rw [List.any_eq_false]
    intro n hn hempty
    rw [isEmpty_iff.mp hempty] at hn
    exact hf.names hn
  simp only [decodeFrom, hm, hn]
  rfl

namespace Catalog

variable {c d : Catalog} {h : Handle} {u : ZoneFile} {img : FileImage}

def eraseAll (c : Catalog) (names : List Name) : Catalog := names.foldl eraseName c

theorem eraseAll_files (c : Catalog) (names : List Name) (m : Name) :
    (c.eraseAll names).files[m]? = if m ∈ names then none else c.files[m]? := by
  induction names generalizing c with
  | nil => simp [eraseAll]
  | cons n names ih =>
    have : (c.eraseAll (n :: names)) = (c.eraseName n).eraseAll names := rfl
    rw [this, ih]
    by_cases hm : m ∈ names
    · simp [hm]
    · by_cases hnm : n = m
      · simp [hnm]
      · simp [hnm, Ne.symm hnm]

@[simp] theorem eraseAll_heap (c : Catalog) (names : List Name) :
    (c.eraseAll names).heap = c.heap := by
  induction names generalizing c with
  | nil => rfl
  | cons n names ih => exact ih (c.eraseName n)

@[simp] theorem eraseAll_nextHandle (c : Catalog) (names : List Name) :
    (c.eraseAll names).nextHandle = c.nextHandle := by
  induction names generalizing c with
  | nil => rfl
  | cons n names ih => exact ih (c.eraseName n)

@[simp] theorem eraseAll_nextFileId (c : Catalog) (names : List Name) :
    (c.eraseAll names).nextFileId = c.nextFileId := by
  induction names generalizing c with
  | nil => rfl
  | cons n names ih => exact ih (c.eraseName n)

theorem eraseLinks_eq (names : List Name) (hnd : names.Nodup)
    (hc : ∀ n ∈ names, c.files[n]?.isSome) : c.eraseLinks names = .ok (c.eraseAll names) := by
  induction names generalizing c with
  | nil => rfl
  | cons n names ih =>
    obtain ⟨hn, hnd⟩ := nodup_cons.mp hnd
    have hmem : n ∈ c.files := Std.ExtTreeMap.isSome_getElem?_iff_mem.mp (hc n (by simp))
    rw [eraseLinks, if_pos hmem, ih hnd]
    · rfl
    · intro m hm
      have hnm : n ≠ m := fun hnm => hn (hnm ▸ hm)
      simpa [hnm] using hc m (by simp [hm])

theorem insertLinks_files (c : Catalog) (h : Handle) (names : List Name) (m : Name) :
    (c.insertLinks h names).files[m]? =
      if m ∈ names ∧ c.files[m]? = none then some h else c.files[m]? := by
  induction names generalizing c with
  | nil => simp [insertLinks]
  | cons n names ih =>
    have : c.insertLinks h (n :: names) = (c.insertName h n).insertLinks h names := rfl
    rw [this, ih]
    by_cases hm : m ∈ names
    · by_cases hnm : n = m <;> by_cases hf : c.files[m]? = none <;> simp [hm, hf]
    · by_cases hnm : n = m
      · by_cases hf : c.files[m]? = none <;> simp [hm, hnm]
      · simp [hnm, Ne.symm hnm]

@[simp] theorem insertLinks_heap (c : Catalog) (h : Handle) (names : List Name) :
    (c.insertLinks h names).heap = c.heap := by
  induction names generalizing c with
  | nil => rfl
  | cons n names ih => exact ih (c.insertName h n)

@[simp] theorem insertLinks_nextHandle (c : Catalog) (h : Handle) (names : List Name) :
    (c.insertLinks h names).nextHandle = c.nextHandle := by
  induction names generalizing c with
  | nil => rfl
  | cons n names ih => exact ih (c.insertName h n)

@[simp] theorem insertLinks_nextFileId (c : Catalog) (h : Handle) (names : List Name) :
    (c.insertLinks h names).nextFileId = c.nextFileId := by
  induction names generalizing c with
  | nil => rfl
  | cons n names ih => exact ih (c.insertName h n)

theorem findId_some {id : ℕ} (hfind : c.findId id = some (h, f)) :
    (∃ n : Name, c.files[n]? = some h) ∧ c.heap h = some f ∧ f.fileId = id := by
  obtain ⟨⟨n, k⟩, hp, hk⟩ := exists_of_findSome?_eq_some hfind
  obtain ⟨f', hf', hif⟩ := bind_eq_some_iff.mp hk
  split at hif
  · next hid =>
    obtain ⟨rfl, rfl⟩ := hif
    exact ⟨⟨n, Std.ExtTreeMap.mem_toList_iff_getElem?_eq_some.mp hp⟩, hf', hid⟩
  · cases hif

variable {n : Name}

theorem findId_none {id : ℕ} (hfind : c.findId id = none)
    (hn : c.files[n]? = some h) (hf : c.heap h = some f) : f.fileId ≠ id := by
  intro hid
  have := findSome?_eq_none_iff.mp hfind (n, h)
    (Std.ExtTreeMap.mem_toList_iff_getElem?_eq_some.mpr hn)
  simp [hf, hid] at this

theorem findId_eq (hc : c.Sound) (hn : c.files[n]? = some h)
    (hf : c.heap h = some f) : c.findId f.fileId = some (h, f) := by
  cases hfind : c.findId f.fileId with
  | none => exact absurd rfl (findId_none hfind hn hf)
  | some p =>
    obtain ⟨⟨m, hm⟩, hp, hid⟩ := findId_some hfind
    obtain rfl := hc.inj hm hn hp hf hid
    rw [hp] at hf
    rw [← some.inj hf]

def merged (c : Catalog) (h : Handle) (f u : ZoneFile) (replace : Bool) : Catalog :=
  let c := ((c.addUsed u.extents).bumpFileId u.fileId).eraseAll f.linkfiles
  let c := c.subUsed (if replace then f.extents else [])
  let c := (c.addUsed u.extents).editFile h fun _ => f.mergeUpdate u replace
  ((c.subUsed u.extents).insertLinks h u.linkfiles).release h

theorem decodeFileUpdateFrom_known (hc : c.Sound) (hn : c.files[n]? = some h)
    (hf : c.heap h = some f) (hd : decodeFrom g img = .ok u) (hid : u.fileId = f.fileId)
    (replace : Bool) :
    decodeFileUpdateFrom g img replace c = .ok (c.merged h f u replace) := by
  have hfind : ((c.addUsed u.extents).bumpFileId u.fileId).findId u.fileId = some (h, f) := by
    rw [hid]
    show c.findId f.fileId = some (h, f)
    exact findId_eq hc hn hf
  have herase := eraseLinks_eq (c := (c.addUsed u.extents).bumpFileId u.fileId) f.linkfiles
    (hc.nodup hn hf) fun m hm => by simp [hc.all hn hf hm]
  simp only [decodeFileUpdateFrom, hd, bind, Except.bind, hfind, herase, mergeUpdate]
  rw [if_neg (by simp [hid])]
  rfl

theorem relink_merged (hc : c.Sound) (hn : c.files[n]? = some h)
    (hf : c.heap h = some f) (hfree : ∀ m ∈ u.linkfiles, m ∈ f.linkfiles ∨ c.files[m]? = none)
    (replace : Bool) :
    Relink c h f.linkfiles (f.mergeUpdate u replace) (c.merged h f u replace) := by
  have hne : ∀ k, c.nextHandle ≤ k → k ≠ h := by
    rintro k hk rfl
    rw [hc.fresh hk] at hf
    cases hf
  refine .release ⟨?_, fun _ => by simp [hf], ?_, ?_⟩
  · intro m
    simp only [insertLinks_files, subUsed_files, editFile_files, addUsed_files, eraseAll_files, ZoneFile.mergeUpdate]
    by_cases hm : m ∈ u.linkfiles
    · rcases hfree m hm with hmf | hmn
      · simp [hmf]
      · by_cases hmf : m ∈ f.linkfiles <;> simp [hmn]
    · simp [hm]
  · intro k hk _
    simp [editFile_heap_of_ne hk]
  · intro k hk
    have hk' : c.nextHandle ≤ k := by simpa [editFile] using hk
    simp [editFile_heap_of_ne (hne k hk'), hc.fresh hk']

/-- The catalog with a newly decoded file under those of `names` that are free. -/
def adopt (c : Catalog) (u : ZoneFile) (names : List Name) : Catalog :=
  ((((c.addUsed u.extents).bumpFileId u.fileId).alloc u).insertLinks c.nextHandle names).release
    c.nextHandle

theorem decodeFileUpdateFrom_unknown
    (hfind : c.findId u.fileId = none) (hd : decodeFrom g img = .ok u)
    (hl : u.linkfiles = name :: rest) (replace : Bool) :
    decodeFileUpdateFrom g img replace c = .ok (c.adopt u [name]) := by
  have hfind' : ((c.addUsed u.extents).bumpFileId u.fileId).findId u.fileId = none := hfind
  simp only [decodeFileUpdateFrom, hd, bind, Except.bind, hfind', hl]
  rfl

section Adopt

variable (c u)

section

variable (names : List Name)
include names

theorem adopt_files (m : Name) : (c.adopt u names).files[m]? =
    if m ∈ names ∧ c.files[m]? = none then some c.nextHandle else c.files[m]? := by
  simp [adopt, insertLinks_files]

theorem adopt_heap_of_ne (hk : k ≠ c.nextHandle) :
    (c.adopt u names).heap k = c.heap k := by
  rw [adopt, release_heap_of_ne hk, insertLinks_heap]
  exact alloc_heap_of_ne u hk

theorem adopt_heap_self (hn : (c.adopt u names).Named c.nextHandle) :
    (c.adopt u names).heap c.nextHandle = some u := by
  have hn' := (named_iff _ _).mp hn
  rw [adopt, release_heap_of_named, insertLinks_heap]
  · exact alloc_heap_self u
  · rw [named_iff]
    simpa only [adopt, release_files] using hn'

@[simp] theorem adopt_nextHandle :
    (c.adopt u names).nextHandle = c.nextHandle + 1 := by
  simp [adopt, alloc]

end

end Adopt

theorem adopt_fresh (hc : c.Sound) (names : List Name)
    (hk : (c.adopt u names).nextHandle ≤ k) : (c.adopt u names).heap k = none := by
  rw [adopt_nextHandle] at hk
  rw [adopt_heap_of_ne _ _ _ (Nat.lt_of_succ_le hk).ne']
  exact hc.fresh (Nat.le_of_succ_le hk)

theorem relink_adopt (hc : c.Sound) (hfree : ∀ m ∈ u.linkfiles, c.files[m]? = none) :
    Relink c c.nextHandle [] u (c.adopt u u.linkfiles) where
  files m := by
    rw [adopt_files]
    by_cases hm : m ∈ u.linkfiles
    · simp [hfree m hm]
    · simp [hm]
  self hne := by
    obtain ⟨m, hm⟩ := exists_mem_of_ne_nil _ hne
    refine adopt_heap_self _ _ _ ((named_iff _ _).mpr ⟨m, ?_⟩)
    rw [adopt_files, if_pos ⟨hm, hfree m hm⟩]
  other k hk _ := adopt_heap_of_ne _ _ _ hk
  fresh _ hk := adopt_fresh hc _ hk

def unlinked (c : Catalog) (h : Handle) (f : ZoneFile) (name : Name) : Catalog :=
  ((c.eraseName name).editFile h fun _ =>
    { f with linkfiles := f.linkfiles.erase name }).release h

theorem decodeFileDeletionFrom_eq (hn : c.files[name]? = some h)
    (hf : c.heap h = some f) (hm : name ∈ f.linkfiles) :
    decodeFileDeletionFrom f.fileId name c = .ok (c.unlinked h f name) := by
  simp [decodeFileDeletionFrom, hn, hf, ZoneFile.removeLinkName, hm, unlinked]

theorem relink_unlinked (hc : c.Sound) (hn : c.files[name]? = some h) (hf : c.heap h = some f) :
    Relink c h f.linkfiles { f with linkfiles := f.linkfiles.erase name }
      (c.unlinked h f name) :=
  (relink_delete hc hn hf).release

/-- Every name of `d` leads to what `DecodeFrom` makes of the snapshot record of the file
it leads to in `c`. -/
def DecodedFrom (c d : Catalog) : Prop :=
  ∀ n u, d.table n = some u → ∃ f, c.table n = some f ∧ u = f.redecoded 0

theorem adopt_taken {names : List Name} (hd : d.Sound) (u : ZoneFile)
    (htaken : ∀ m ∈ names, d.files[m]? ≠ none) :
    (d.adopt u names).Sound ∧ (d.adopt u names).table = d.table := by
  refine hd.congr ?_ ?_ fun k hk => adopt_fresh hd _ hk
  · intro m
    rw [adopt_files, if_neg]
    rintro ⟨hm, hnone⟩
    exact htaken m hm hnone
  · intro k hk
    obtain ⟨n, hn⟩ := (named_iff _ _).mp hk
    obtain ⟨f, hf⟩ := hd.alive hn
    refine adopt_heap_of_ne _ _ _ ?_
    rintro rfl
    rw [hd.fresh (le_refl _)] at hf
    cases hf

private theorem adopt_snapshot (hc : c.Sound) (hd : d.Sound) (hdc : DecodedFrom c d)
    (hf : c.table n = some f) :
    (d.adopt (f.redecoded 0) f.linkfiles).Sound ∧
    DecodedFrom c (d.adopt (f.redecoded 0) f.linkfiles) ∧
    (∀ m, d.table m ≠ none → (d.adopt (f.redecoded 0) f.linkfiles).table m ≠ none) ∧
    ∀ m ∈ f.linkfiles, (d.adopt (f.redecoded 0) f.linkfiles).table m ≠ none := by
  have hlinked := hc.table_linked
  by_cases hall : ∀ m ∈ f.linkfiles, d.files[m]? = none
  · -- no name of the file is known: it is added
    have hr : Relink d d.nextHandle [] (f.redecoded 0) (d.adopt (f.redecoded 0) f.linkfiles) :=
      relink_adopt hd hall
    have ho : Relinkable d d.nextHandle [] (f.redecoded 0) := by
      refine ⟨?_, fun m hm => .inr (hall m hm), ?_, ?_⟩
      · intro m
        refine ⟨by simp, fun hm => ?_⟩
        obtain ⟨u, hu⟩ := hd.alive hm
        rw [hd.fresh (le_refl _)] at hu
        cases hu
      · obtain ⟨h, hn, hh⟩ := table_eq_some.mp hf
        show f.linkfiles.Nodup
        exact hc.nodup hn hh
      · intro _ m k u hm _ hu hid
        obtain ⟨f', hf', rfl⟩ := hdc m u (table_eq_some.mpr ⟨k, hm, hu⟩)
        obtain rfl := hlinked.inj hf' hf hid
        rw [hall m (hlinked.mem hf')] at hm
        cases hm
    have htable : (d.adopt (f.redecoded 0) f.linkfiles).table =
        LinkTable.swap d.table [] f.linkfiles (f.redecoded 0) := hr.table_eq ho
    refine ⟨hr.sound hd ho, ?_, ?_, ?_⟩
    · intro m u hu
      rw [htable] at hu
      rcases (LinkTable.swap_eq_some _ _ _ _).mp hu with ⟨hm, rfl⟩ | ⟨-, -, hu⟩
      · exact ⟨f, hlinked.all hf hm, rfl⟩
      · exact hdc m u hu
    · intro m hm
      rw [htable]
      by_cases hmf : m ∈ f.linkfiles
      · rw [LinkTable.swap_of_mem _ _ _ _ hmf]
        simp
      · rwa [LinkTable.swap_of_not_mem _ _ _ _ hmf (by simp)]
    · intro m hm
      rw [htable, LinkTable.swap_of_mem _ _ _ _ hm]
      simp
  · -- some name is known, and then all of them are
    have htaken : ∀ m ∈ f.linkfiles, d.files[m]? ≠ none := by
      push Not at hall
      obtain ⟨m, hm, hmd⟩ := hall
      obtain ⟨k, hk⟩ := ne_none_iff_exists'.mp hmd
      obtain ⟨u, hu⟩ := hd.alive hk
      obtain ⟨f', hf', rfl⟩ := hdc m u (table_eq_some.mpr ⟨k, hk, hu⟩)
      rw [hlinked.all hf hm] at hf'
      obtain rfl := some.inj hf'
      intro m' hm'
      rw [hd.all hk hu hm']
      simp
    obtain ⟨hsound, htable⟩ := adopt_taken hd (f.redecoded 0) htaken
    refine ⟨hsound, ?_, ?_, ?_⟩
    · intro m u hu
      rw [htable] at hu
      exact hdc m u hu
    · intro m hm
      rwa [htable]
    · intro m hm
      rw [htable, ne_eq, hd.table_isSome]
      exact htaken m hm

private theorem decodeSnapshotFrom_files (hc : c.Sound)
    (henc : ∀ n f, c.table n = some f → Encodable g f) (fs : List ZoneFile) :
    ∀ d : Catalog, d.Sound → DecodedFrom c d → (∀ f ∈ fs, ∃ n, c.table n = some f) →
    ∃ d', decodeSnapshotFrom g (fs.map ZoneFile.encodeSnapshotTo) d = .ok d' ∧ d'.Sound ∧
      DecodedFrom c d' ∧ (∀ m, d.table m ≠ none → d'.table m ≠ none) ∧
      ∀ f ∈ fs, ∀ m ∈ f.linkfiles, d'.table m ≠ none := by
  induction fs with
  | nil =>
    intro d hd hdc _
    exact ⟨d, rfl, hd, hdc, fun m hm => hm, by simp⟩
  | cons f fs ih =>
    intro d hd hdc hfs
    obtain ⟨n, hn⟩ := hfs f (by simp)
    obtain ⟨hs, hdc', hmono, hnames⟩ := adopt_snapshot hc hd hdc hn
    obtain ⟨d', heq, hs', hdc'', hmono', hnames'⟩ :=
      ih _ hs hdc' fun f' hf' => hfs f' (by simp [hf'])
    refine ⟨d', ?_, hs', hdc'', fun m hm => hmono' m (hmono m hm), ?_⟩
    · rw [map_cons, decodeSnapshotFrom, ZoneFile.encodeSnapshotTo,
        decodeFrom_encodeTo (henc n f hn)]
      exact heq
    · intro f' hf' m hm
      rcases mem_cons.mp hf' with rfl | hf'
      · exact hmono' m (hnames m hm)
      · exact hnames' f' hf' m hm

theorem encodeSnapshotTo_eq (c : Catalog) : ∃ fs : List ZoneFile,
    c.encodeSnapshotTo = .snapshot (fs.map ZoneFile.encodeSnapshotTo) ∧
    (∀ f ∈ fs, ∃ n, c.table n = some f) ∧ ∀ n f, c.table n = some f → f ∈ fs := by
  refine ⟨c.files.toList.filterMap fun p => c.heap p.2, ?_, ?_, ?_⟩
  · rw [encodeSnapshotTo, map_filterMap]
  · intro f hf
    obtain ⟨⟨n, h⟩, hp, hh⟩ := mem_filterMap.mp hf
    exact ⟨n, table_eq_some.mpr ⟨h, Std.ExtTreeMap.mem_toList_iff_getElem?_eq_some.mp hp, hh⟩⟩
  · intro n f hf
    obtain ⟨h, hn, hh⟩ := table_eq_some.mp hf
    exact mem_filterMap.mpr
      ⟨(n, h), Std.ExtTreeMap.mem_toList_iff_getElem?_eq_some.mpr hn, hh⟩

theorem destroyAll_files {l : List (Name × Handle)} :
    (l.foldl (fun d p => d.destroy p.2) c).files = c.files := by
  induction l generalizing c with
  | nil => rfl
  | cons p l ih => rw [foldl_cons, ih, destroy_files]

theorem destroyAll_fresh {l : List (Name × Handle)} (c : Catalog) (hc : ∀ k, c.nextHandle ≤ k →
    c.heap k = none) : ∀ k, (l.foldl (fun d p => d.destroy p.2) c).nextHandle ≤ k →
    (l.foldl (fun d p => d.destroy p.2) c).heap k = none := by
  induction l generalizing c with
  | nil => exact hc
  | cons p l ih =>
    refine ih (c.destroy p.2) fun k hk => ?_
    rw [destroy_nextHandle] at hk
    rw [destroy_heap]
    split
    · rfl
    · exact hc k hk

theorem clearFiles_files (c : Catalog) : c.clearFiles.files = ∅ := destroyAll_files

theorem sound_clearFiles (hfresh : ∀ k, c.nextHandle ≤ k → c.heap k = none) :
    c.clearFiles.Sound where
  alive h := by simp [clearFiles_files] at h
  mem h := by simp [clearFiles_files] at h
  all h := by simp [clearFiles_files] at h
  nodup h := by simp [clearFiles_files] at h
  inj h := by simp [clearFiles_files] at h
  fresh h := destroyAll_fresh { c with files := ∅ } hfresh _ h

theorem decodeSnapshotFrom_encode (hc : c.Sound)
    (henc : ∀ n f, c.table n = some f → Encodable g f)
    (himgs : c.encodeSnapshotTo = .snapshot imgs) (hd : d.Sound) :
    ∃ d', decodeSnapshotFrom g imgs d.clearFiles = .ok d' ∧ d'.Sound ∧
      ∀ n, d'.table n = (c.table n).map (·.redecoded 0) := by
  obtain ⟨fs, hfs, hmem, hall⟩ := encodeSnapshotTo_eq c
  rw [hfs] at himgs
  cases himgs
  have hnone : ∀ n, d.clearFiles.table n = none := fun n => by simp [table, clearFiles_files]
  obtain ⟨d', heq, hs, hdc, -, hnames⟩ := decodeSnapshotFrom_files hc henc fs d.clearFiles
    (sound_clearFiles fun k hk => hd.fresh hk) (by intro n u hu; simp [hnone] at hu) hmem
  refine ⟨d', heq, hs, fun n => ?_⟩
  cases hn : c.table n with
  | none =>
    cases hu : d'.table n with
    | none => rfl
    | some u =>
      obtain ⟨f, hf, -⟩ := hdc n u hu
      rw [hn] at hf
      cases hf
  | some f =>
    have hne := hnames f (hall n f hn) n (hc.table_linked.mem hn)
    obtain ⟨u, hu⟩ := ne_none_iff_exists'.mp hne
    obtain ⟨f', hf', rfl⟩ := hdc n u hu
    rw [hn] at hf'
    rw [hu, ← some.inj hf']
    rfl

end Catalog

end ZenFs
