import ZenFs.Namespace.Orderly

/-!
What `RecoverFrom` makes of records that it did not necessarily write itself.

The decoders check that the names of a known file are there, but not that the names of a
record are free or occur once, and of the names of an unknown file only the first is
entered. Records that fit the catalog they are replayed on leave it in order.
-/

namespace ZenFs

open Library Option

variable {imgs : List FileImage} {names : List Name} {p : Bool × Catalog} {r : Record}
variable {records : List Record} {replace seen : Bool}

namespace Catalog

variable {g : Geometry} {c d : Catalog} {h k : Handle} {f u : ZoneFile} {img : FileImage}

/-- An image of a snapshot is a copy of a file that is there under all its names, or a new
file with names of its own. -/
def ImageFits (c : Catalog) (img : FileImage) : Prop :=
  (∀ m ∈ img.linkfiles, c.files[m]? ≠ none) ∨
    (∀ m ∈ img.linkfiles, c.files[m]? = none) ∧ img.linkfiles.Nodup ∧ c.findId img.fileId = none

def ImagesFit (g : Geometry) : List FileImage → Catalog → Prop
  | [], _ => True
  | img :: rest, c => c.ImageFits img ∧
      ∀ u, decodeFrom g img = .ok u → ImagesFit g rest (c.adopt u u.linkfiles)

/-- An update has names that occur once and are free or the file's own; that of an unknown
file has one name. -/
def UpdateFits (c : Catalog) (img : FileImage) : Prop :=
  match c.findId img.fileId with
  | some (_, f) => img.linkfiles.Nodup ∧ ∀ m ∈ img.linkfiles, m ∈ f.linkfiles ∨ c.files[m]? = none
  | none => ∃ m, img.linkfiles = [m] ∧ c.files[m]? = none

def RecordFits (g : Geometry) (c : Catalog) : Record → Prop
  | .endRecord => True
  | .snapshot imgs => ImagesFit g imgs c.clearFiles
  | .update img => c.UpdateFits img
  | .replace img => c.UpdateFits img
  | .deletion _ _ => True

def RecordsFit (g : Geometry) : List Record → Bool → Catalog → Prop
  | [], _, _ => True
  | .endRecord :: _, _, _ => True
  | r :: rest, seen, c => RecordFits g c r ∧
      ∀ p, replayRecord g r (seen, c) = .ok p → RecordsFit g rest p.1 p.2

/-- Objects other than `h` have names, and no object is marked deleted or has an id that
is yet to be given out. -/
structure OwnedBut (c : Catalog) (h : Handle) : Prop where
  named : ∀ k f, k ≠ h → c.heap k = some f → c.Named k
  live : ∀ k f, c.heap k = some f → f.isDeleted = false ∧ f.fileId < c.nextFileId

/-- The catalog is sound, and has no object without a name. -/
structure Restored (c : Catalog) : Prop where
  sound : c.Sound
  named : ∀ k f, c.heap k = some f → c.Named k
  live : ∀ k f, c.heap k = some f → f.isDeleted = false ∧ f.fileId < c.nextFileId

theorem restored_empty : empty.Restored where
  sound := sound_empty
  named _ _ hk := by simp [empty] at hk
  live _ _ hk := by simp [empty] at hk

theorem OwnedBut.release (hc : c.OwnedBut h) :
    (∀ k f, (c.release h).heap k = some f → (c.release h).Named k) ∧
      ∀ k f, (c.release h).heap k = some f →
        f.isDeleted = false ∧ f.fileId < (c.release h).nextFileId := by
  have hnamed : ∀ k, (c.release h).Named k ↔ c.Named k := by
    intro k
    rw [named_iff, named_iff, release_files]
  have hheap : ∀ k f, (c.release h).heap k = some f → c.heap k = some f ∧ c.Named k := by
    intro k f hk
    by_cases hkh : k = h
    · subst hkh
      by_cases hn : c.Named k
      · rw [release_heap_of_named hn] at hk
        exact ⟨hk, hn⟩
      · rw [Catalog.release, if_neg hn, destroy_heap, if_pos rfl] at hk
        cases hk
    · rw [release_heap_of_ne hkh] at hk
      exact ⟨hk, hc.named k f hkh hk⟩
  constructor
  · intro k f hk
    exact (hnamed k).mpr (hheap k f hk).2
  · intro k f hk
    rw [release_nextFileId]
    exact hc.live k f (hheap k f hk).1

theorem restored_release (hc : c.OwnedBut h) (hs : (c.release h).Sound) :
    (c.release h).Restored := ⟨hs, hc.release.1, hc.release.2⟩

theorem decodeFrom_eq (hd : decodeFrom g img = .ok u) :
    u.fileId = img.fileId ∧ u.linkfiles = img.linkfiles ∧ u.isDeleted = false := by
  unfold decodeFrom at hd
  split at hd
  · cases hd
  · split at hd <;> cases hd
    exact ⟨rfl, rfl, rfl⟩

theorem le_bumpFileId (c : Catalog) (id : ℕ) :
    c.nextFileId ≤ (c.bumpFileId id).nextFileId ∧ id < (c.bumpFileId id).nextFileId := by
  simp only [bumpFileId]
  split <;> omega

section

variable (hc : c.Restored)
include hc

theorem findId_none_iff_ne {id : ℕ} (hfind : c.findId id = none)
    (hk : c.heap k = some f) : f.fileId ≠ id := by
  obtain ⟨n, hn⟩ := (named_iff c k).mp (hc.named k f hk)
  exact findId_none hfind hn hk

theorem ownedBut_insertLinks (hu : u.isDeleted = false) (names : List Name) :
    ((((c.addUsed u.extents).bumpFileId u.fileId).alloc u).insertLinks c.nextHandle
      names).OwnedBut c.nextHandle := by
  have hheap : ∀ k, k ≠ c.nextHandle → ((((c.addUsed u.extents).bumpFileId u.fileId).alloc
      u).insertLinks c.nextHandle names).heap k = c.heap k := by
    intro k hk
    rw [insertLinks_heap]
    exact alloc_heap_of_ne u hk
  have hself : ((((c.addUsed u.extents).bumpFileId u.fileId).alloc u).insertLinks c.nextHandle
      names).heap c.nextHandle = some u := by
    rw [insertLinks_heap]
    exact alloc_heap_self u
  have hid : ((((c.addUsed u.extents).bumpFileId u.fileId).alloc u).insertLinks c.nextHandle
      names).nextFileId = (c.bumpFileId u.fileId).nextFileId := by
    rw [insertLinks_nextFileId]
    rfl
  constructor
  · intro k f hk hf
    rw [hheap k hk] at hf
    obtain ⟨n, hn⟩ := (named_iff c k).mp (hc.named k f hf)
    refine (named_iff _ _).mpr ⟨n, ?_⟩
    rw [insertLinks_files]
    simp [hn]
  · intro k f hf
    rw [hid]
    by_cases hk : k = c.nextHandle
    · subst hk
      rw [hself] at hf
      cases hf
      exact ⟨hu, (le_bumpFileId c _).2⟩
    · rw [hheap k hk] at hf
      exact ⟨(hc.live k f hf).1, (hc.live k f hf).2.trans_le (le_bumpFileId c _).1⟩

theorem Restored.adopt (hu : u.isDeleted = false)
    (hs : (c.adopt u names).Sound) : (c.adopt u names).Restored :=
  restored_release (ownedBut_insertLinks hc hu names) hs

theorem Restored.relinkable_new (hfree : ∀ m ∈ u.linkfiles, c.files[m]? = none)
    (hnd : u.linkfiles.Nodup) (hid : c.findId u.fileId = none) :
    Relinkable c c.nextHandle [] u := by
  refine ⟨?_, fun m hm => .inr (hfree m hm), hnd, fun _ n k f _ _ hk => ?_⟩
  · intro m
    refine ⟨by simp, fun hm => ?_⟩
    obtain ⟨f, hf⟩ := hc.sound.alive hm
    rw [hc.sound.fresh (le_refl _)] at hf
    cases hf
  · exact findId_none_iff_ne hc hid hk

/-- A file may get names that are its own or free. -/
theorem Restored.relinkable {new : ZoneFile} (hf : c.heap h = some f) (hid : new.fileId = f.fileId)
    (hnd : new.linkfiles.Nodup)
    (hfree : ∀ m ∈ new.linkfiles, m ∈ f.linkfiles ∨ c.files[m]? = none) :
    Relinkable c h f.linkfiles new := by
  obtain ⟨n, hn⟩ := (named_iff c h).mp (hc.named h f hf)
  refine ⟨fun m => ⟨fun hm => hc.sound.all hn hf hm, fun hm => hc.sound.mem hm hf⟩, hfree, hnd,
    fun _ m k f' hm hk hf' hidf => ?_⟩
  exact hk (hc.sound.inj hm hn hf' hf (hidf.trans hid))

theorem Restored.adopt_new (hu : u.isDeleted = false)
    (hfree : ∀ m ∈ u.linkfiles, c.files[m]? = none) (hnd : u.linkfiles.Nodup)
    (hid : c.findId u.fileId = none) : (c.adopt u u.linkfiles).Restored :=
  hc.adopt hu ((relink_adopt hc.sound hfree).sound hc.sound (hc.relinkable_new hfree hnd hid))

theorem Restored.adopt_fits (hd : decodeFrom g img = .ok u)
    (hfit : c.ImageFits img) : (c.adopt u u.linkfiles).Restored := by
  obtain ⟨hid, hlinks, hdel⟩ := decodeFrom_eq hd
  rcases hfit with htaken | ⟨hfree, hnd, hnew⟩
  · rw [← hlinks] at htaken
    exact hc.adopt hdel (adopt_taken hc.sound u htaken).1
  · rw [← hlinks] at hfree hnd
    exact hc.adopt_new hdel hfree hnd (hid ▸ hnew)

theorem Restored.decodeSnapshotFrom
    (hfit : ImagesFit g imgs c) (hd : decodeSnapshotFrom g imgs c = .ok d) : d.Restored := by
  induction imgs generalizing c with
  | nil =>
    cases hd
    exact hc
  | cons img rest ih =>
    rw [Catalog.decodeSnapshotFrom] at hd
    cases hu : decodeFrom g img with
    | error s =>
      rw [hu] at hd
      cases hd
    | ok u =>
      rw [hu] at hd
      exact ih (hc.adopt_fits hu hfit.1) (hfit.2 u hu) hd

theorem Restored.merged (hf : c.heap h = some f) (hnd : u.linkfiles.Nodup)
    (hfree : ∀ m ∈ u.linkfiles, m ∈ f.linkfiles ∨ c.files[m]? = none)
    (replace : Bool) : (c.merged h f u replace).Restored := by
  obtain ⟨n, hn⟩ := (named_iff c h).mp (hc.named h f hf)
  have hrelinkable : Relinkable c h f.linkfiles (f.mergeUpdate u replace) :=
    hc.relinkable hf rfl hnd hfree
  apply restored_release _ ((relink_merged hc.sound hn hf hfree replace).sound hc.sound hrelinkable)
  constructor
  · intro k f' hk hf'
    simp only [insertLinks_heap, subUsed_heap, editFile_heap_of_ne hk, addUsed_heap,
      eraseAll_heap] at hf'
    obtain ⟨m, hm⟩ := (named_iff c k).mp (hc.named k f' hf')
    refine (named_iff _ _).mpr ⟨m, ?_⟩
    have hmf : m ∉ f.linkfiles := by
      intro hmf
      rw [(hrelinkable.old_iff m).mp hmf] at hm
      exact hk (some.inj hm).symm
    simp [insertLinks_files, eraseAll_files, hmf, hm]
  · intro k f' hf'
    have hlt : f'.isDeleted = false ∧ f'.fileId < c.nextFileId := by
      simp only [insertLinks_heap] at hf'
      by_cases hk : k = h
      · subst hk
        simp only [editFile_heap_self, addUsed_heap, subUsed_heap, eraseAll_heap,
          bumpFileId_heap, hf, map_some, some.injEq] at hf'
        rw [← hf']
        exact hc.live k f hf
      · simp only [editFile_heap_of_ne hk, addUsed_heap, subUsed_heap, eraseAll_heap] at hf'
        exact hc.live k f' hf'
    refine ⟨hlt.1, hlt.2.trans_le ((le_bumpFileId c u.fileId).1.trans_eq ?_)⟩
    simp only [insertLinks_nextFileId, subUsed_nextFileId, editFile_nextFileId,
      addUsed_nextFileId, eraseAll_nextFileId]
    rfl

/-- An update that fits changes a known file, or brings in an unknown one. -/
theorem Restored.update_cases (hfit : c.UpdateFits img)
    (hd : decodeFileUpdateFrom g img replace c = .ok d) : ∃ u, decodeFrom g img = .ok u ∧
      u.linkfiles.Nodup ∧
      ((∃ (n : Name) (h : Handle) (f : ZoneFile), c.files[n]? = some h ∧ c.heap h = some f ∧
          f.fileId = u.fileId ∧ (∀ m ∈ u.linkfiles, m ∈ f.linkfiles ∨ c.files[m]? = none) ∧
          d = c.merged h f u replace) ∨
        c.findId u.fileId = none ∧ (∀ m ∈ u.linkfiles, c.files[m]? = none) ∧
          d = c.adopt u u.linkfiles) := by
  cases hu : decodeFrom g img with
  | error s => simp [Catalog.decodeFileUpdateFrom, hu, bind, Except.bind] at hd
  | ok u =>
    obtain ⟨hid, hlinks, -⟩ := decodeFrom_eq hu
    rw [UpdateFits, ← hid, ← hlinks] at hfit
    refine ⟨u, rfl, ?_⟩
    split at hfit
    · next h f hfind =>
      obtain ⟨⟨n, hn⟩, hf, hidf⟩ := findId_some hfind
      rw [decodeFileUpdateFrom_known hc.sound hn hf hu hidf.symm] at hd
      cases hd
      exact ⟨hfit.1, .inl ⟨n, h, f, hn, hf, hidf, hfit.2, rfl⟩⟩
    · next hfind =>
      obtain ⟨m, hm, hfree⟩ := hfit
      rw [decodeFileUpdateFrom_unknown hfind hu hm] at hd
      cases hd
      rw [hm]
      exact ⟨List.nodup_singleton m, .inr ⟨hfind, by simpa using hfree, rfl⟩⟩

theorem Restored.decodeFileUpdateFrom (hfit : c.UpdateFits img)
    (hd : decodeFileUpdateFrom g img replace c = .ok d) : d.Restored := by
  obtain ⟨u, hu, hnd, ⟨n, h, f, -, hf, -, hfree, rfl⟩ | ⟨hid, hfree, rfl⟩⟩ :=
    hc.update_cases hfit hd
  · exact hc.merged hf hnd hfree replace
  · exact hc.adopt_new (decodeFrom_eq hu).2.2 hfree hnd hid

/-- A deletion that is replayed takes a name of the file with its id. -/
theorem Restored.deletion_cases {id : ℕ} {name : Name}
    (hd : decodeFileDeletionFrom id name c = .ok d) : ∃ h f, c.files[name]? = some h ∧
      c.heap h = some f ∧ f.fileId = id ∧ d = c.unlinked h f name := by
  rw [Catalog.decodeFileDeletionFrom] at hd
  split at hd
  · cases hd
  · next h hn =>
    split at hd
    · cases hd
    · next f hf =>
      split at hd
      · cases hd
      · next hid =>
        simp only [ZoneFile.removeLinkName, hc.sound.mem hn hf] at hd
        cases hd
        exact ⟨h, f, hn, hf, not_not.mp hid, rfl⟩

theorem Restored.relinkable_erase {n : Name} (hn : c.files[n]? = some h) (hf : c.heap h = some f) :
    Relinkable c h f.linkfiles { f with linkfiles := f.linkfiles.erase n } :=
  hc.relinkable hf rfl ((hc.sound.nodup hn hf).erase n)
    fun _ hm => .inl (List.mem_of_mem_erase hm)

theorem Restored.decodeFileDeletionFrom {id : ℕ} {name : Name}
    (hd : decodeFileDeletionFrom id name c = .ok d) : d.Restored := by
  obtain ⟨h, f, hn, hf, -, rfl⟩ := hc.deletion_cases hd
  apply restored_release _
    ((relink_unlinked hc.sound hn hf).sound hc.sound (hc.relinkable_erase hn hf))
  constructor
  · intro k f' hk hf'
    rw [editFile_heap_of_ne hk] at hf'
    obtain ⟨m, hm⟩ := (named_iff c k).mp (hc.named k f' hf')
    have hmn : name ≠ m := by
      rintro rfl
      rw [hn] at hm
      exact hk (some.inj hm).symm
    refine (named_iff _ _).mpr ⟨m, ?_⟩
    simp [hmn, hm]
  · intro k f' hf'
    by_cases hk : k = h
    · subst hk
      simp only [editFile_heap_self, eraseName_heap, hf, map_some, some.injEq] at hf'
      rw [← hf']
      exact hc.live k f hf
    · rw [editFile_heap_of_ne hk] at hf'
      exact hc.live k f' hf'

theorem Restored.clearFiles : c.clearFiles.Restored := by
  have hdestroy : ∀ (l : List (Name × Handle)) (d : Catalog) k f,
      (l.foldl (fun d p => d.destroy p.2) d).heap k = some f →
        d.heap k = some f ∧ ∀ p ∈ l, p.2 ≠ k := by
    intro l
    induction l with
    | nil => exact fun d k f hk => ⟨hk, by simp⟩
    | cons p l ih =>
      intro d k f hk
      obtain ⟨hk, hl⟩ := ih (d.destroy p.2) k f hk
      rw [destroy_heap] at hk
      split at hk
      · cases hk
      · next hkp =>
        refine ⟨hk, fun q hq => ?_⟩
        rcases List.mem_cons.mp hq with rfl | hq
        · exact Ne.symm hkp
        · exact hl q hq
  have hnone : ∀ k f, c.clearFiles.heap k ≠ some f := by
    intro k f hk
    obtain ⟨hf, hl⟩ := hdestroy _ _ k f hk
    obtain ⟨p, hp, hpk⟩ := hc.named k f hf
    exact hl p hp hpk
  exact ⟨sound_clearFiles fun k hk => hc.sound.fresh hk, fun k f hk => absurd hk (hnone k f),
    fun k f hk => absurd hk (hnone k f)⟩

omit hc in
theorem decoded_of_map {b : Bool} {m : Except Status Catalog}
    (hm : m.map (fun d => (b, d)) = .ok p) : m = .ok p.2 := by
  cases m with
  | error s => cases hm
  | ok d =>
    cases hm
    rfl

theorem Restored.replayRecord (hfit : RecordFits g c r)
    (hp : replayRecord g r (seen, c) = .ok p) :
    p.2.Restored := by
  cases r with
  | endRecord =>
    cases hp
    exact hc
  | snapshot imgs => exact hc.clearFiles.decodeSnapshotFrom hfit (decoded_of_map hp)
  | update | replace => exact hc.decodeFileUpdateFrom hfit (decoded_of_map hp)
  | deletion id name => exact hc.decodeFileDeletionFrom (decoded_of_map hp)

end

theorem replay_cons (hr : r ≠ .endRecord) (rest : List Record) (seen : Bool) :
    replay g (r :: rest) seen c =
      (replayRecord g r (seen, c)).bind fun p => replay g rest p.1 p.2 := by
  cases r with
  | endRecord => exact absurd rfl hr
  | snapshot imgs =>
    cases hd : decodeSnapshotFrom g imgs c.clearFiles <;>
      simp [replay, replayRecord, hd, bind, Except.bind, Except.map]
  | update img =>
    cases hd : decodeFileUpdateFrom g img false c <;>
      simp [replay, replayRecord, hd, bind, Except.bind, Except.map]
  | replace img =>
    cases hd : decodeFileUpdateFrom g img true c <;>
      simp [replay, replayRecord, hd, bind, Except.bind, Except.map]
  | deletion id name =>
    cases hd : decodeFileDeletionFrom id name c <;>
      simp [replay, replayRecord, hd, bind, Except.bind, Except.map]

/-- Records that fit leave the catalog in order, one after the other. -/
theorem Restored.replay (hc : c.Restored) (hfit : RecordsFit g records seen c)
    (hp : replay g records seen c = .ok p) : p.2.Restored := by
  induction records generalizing seen c with
  | nil =>
    cases hp
    exact hc
  | cons r rest ih =>
    by_cases hr : r = .endRecord
    · subst hr
      cases hp
      exact hc
    · have hfit' : RecordFits g c r ∧
          ∀ q, Catalog.replayRecord g r (seen, c) = .ok q → RecordsFit g rest q.1 q.2 := by
        cases r with
        | endRecord => exact absurd rfl hr
        | _ => exact hfit
      rw [replay_cons hr] at hp
      cases hq : Catalog.replayRecord g r (seen, c) with
      | error s =>
        rw [hq] at hp
        cases hp
      | ok q =>
        rw [hq] at hp
        exact ih (hc.replayRecord hfit'.1 hq) (hfit'.2 q hq) hp

/-- A recovery that returns OK leaves the catalog in order, if the records fit. -/
theorem Restored.recoverFrom (hc : c.Restored)
    (hfit : RecordsFit g records false c) (hd : recoverFrom g records c = (.OK, d)) :
    d.Restored := by
  rw [Catalog.recoverFrom] at hd
  split at hd
  · next hr =>
    cases hd
    exact hc
  · next hr =>
    cases hd
    exact hc.replay hfit hr
  · cases hd

end Catalog

theorem Catalog.Restored.orderly {s : State} (hc : s.cat.Restored) : s.Orderly := by
  have hentry : ∀ {h E}, s.names.entry h = some E → ∃ f, s.cat.heap h = some f ∧ f.entry = E :=
    fun hE => State.exists_of_entry hE
  refine ⟨⟨?_, ?_, ?_, ?_⟩, ?_, ?_⟩
  · intro n h hn
    obtain ⟨f, hf⟩ := hc.sound.alive hn
    exact ⟨f.entry, by simp [State.names, hf], (hc.live h f hf).1⟩
  · intro h E hE n
    obtain ⟨f, hf, rfl⟩ := hentry hE
    obtain ⟨m, hm⟩ := (Catalog.named_iff _ _).mp (hc.named h f hf)
    exact ⟨fun hn => hc.sound.all hm hf hn, fun hn => hc.sound.mem hn hf⟩
  · intro h E hE
    obtain ⟨f, hf, rfl⟩ := hentry hE
    obtain ⟨m, hm⟩ := (Catalog.named_iff _ _).mp (hc.named h f hf)
    exact hc.sound.nodup hm hf
  · intro h k E F hE hF hid
    obtain ⟨f, hf, rfl⟩ := hentry hE
    obtain ⟨f', hf', rfl⟩ := hentry hF
    obtain ⟨m, hm⟩ := (Catalog.named_iff _ _).mp (hc.named h f hf)
    obtain ⟨n, hn⟩ := (Catalog.named_iff _ _).mp (hc.named k f' hf')
    exact hc.sound.inj hm hn hf hf' hid
  · intro h E hE
    obtain ⟨f, hf, rfl⟩ := hentry hE
    by_contra hlt
    rw [hc.sound.fresh (Nat.le_of_not_lt hlt)] at hf
    cases hf
  · intro h E hE
    obtain ⟨f, hf, rfl⟩ := hentry hE
    exact (hc.live h f hf).2

end ZenFs
