import ZenFs.Namespace.Restored
import ZenFs.Syncs.Model

/-!
The replay of the log, seen from one file.

`recoverFile` follows one file through the records. Where the records fit the catalog and leave
the file a name, `RecoverFrom` on the whole catalog comes to the same file.
-/

namespace ZenFs.Syncs

open Library Catalog Option

variable {g : Geometry} {c d : Catalog} {h : Handle} {f u new : ZoneFile} {img : FileImage}
variable {id : ℕ} {o o' : Option ZoneFile} {old : List Name} {imgs : List FileImage} {seen : Bool}

def Shows (c : Catalog) (id : ℕ) (o : Option ZoneFile) : Prop :=
  ∀ f, o = some f ↔ f.fileId = id ∧ ∃ n, c.table n = some f

/-- A file that gets other names is shown as it is then, and the others as before. -/
theorem Shows.relink (hs : Shows c id o) (hr : Relink c h old new d) (ho : Relinkable c h old new)
    (hold : ∀ n f, c.table n = some f → (f.fileId = new.fileId ↔ n ∈ old))
    (hne : new.fileId = id → new.linkfiles ≠ []) (hself : new.fileId = id → o' = some new)
    (hother : new.fileId ≠ id → o' = o) : Shows d id o' := by
  have hfree (n : Name) (f : ZoneFile) (hn : n ∈ new.linkfiles) (hf : c.table n = some f) :
      n ∈ old := by
    obtain ⟨k, hk, -⟩ := table_eq_some.mp hf
    exact (ho.free n hn).resolve_right (by simp [hk])
  intro f
  rw [hr.table_eq ho]
  by_cases hid : new.fileId = id
  · rw [hself hid, some.injEq]
    constructor
    · rintro rfl
      obtain ⟨n, hn⟩ := List.exists_mem_of_ne_nil _ (hne hid)
      exact ⟨hid, n, LinkTable.swap_of_mem _ _ _ _ hn⟩
    · rintro ⟨hf, n, hn⟩
      obtain ⟨-, rfl⟩ | ⟨-, hno, hn⟩ := (LinkTable.swap_eq_some ..).mp hn
      · rfl
      · exact absurd ((hold n f hn).mp (hf.trans hid.symm)) hno
  · rw [hother hid, hs f]
    refine and_congr_right fun hf => exists_congr fun n => ?_
    rw [LinkTable.swap_eq_some]
    constructor
    · intro hn
      have hno : n ∉ old := fun ho => hid (((hold n f hn).mpr ho).symm.trans hf)
      exact .inr ⟨fun hnew => hno (hfree n f hnew hn), hno, hn⟩
    · rintro (⟨-, rfl⟩ | ⟨-, -, hn⟩)
      · exact absurd hf hid
      · exact hn

theorem names_iff (hc : c.Restored) (hf : c.heap h = some f) (n : Name) (f' : ZoneFile)
    (hn : c.table n = some f') : f'.fileId = f.fileId ↔ n ∈ f.linkfiles := by
  obtain ⟨m, hm⟩ := (named_iff c h).mp (hc.named h f hf)
  have hlinked := hc.sound.table_linked
  have htable : c.table m = some f := table_eq_some.mpr ⟨h, hm, hf⟩
  constructor
  · intro hid
    rw [← hlinked.inj hn htable hid]
    exact hlinked.mem hn
  · intro hmem
    rw [some.inj (hn.symm.trans (hlinked.all htable hmem))]

theorem unknown_iff (hfind : c.findId u.fileId = none) (n : Name) (f : ZoneFile)
    (hn : c.table n = some f) : f.fileId = u.fileId ↔ n ∈ [] := by
  obtain ⟨k, hk, hf⟩ := table_eq_some.mp hn
  simpa using findId_none hfind hk hf

/-- What a record says about the file leaves it a name. In a snapshot the images of the file are
the same under all its names. -/
def LeavesName (g : Geometry) (c : Catalog) (id : ℕ) : Record → Prop
  | .update img | .replace img => img.fileId = id → img.linkfiles ≠ []
  | .deletion id' name => id' = id → ∀ h f, c.heap h = some f → f.fileId = id →
      f.linkfiles.erase name ≠ []
  | .snapshot imgs => ∀ img ∈ imgs, img.fileId = id →
      (∀ img' ∈ imgs, img'.fileId = id → img' = img) ∧
      ∀ d, decodeSnapshotFrom g imgs c.clearFiles = .ok d → ∃ n f, d.table n = some f ∧ f.fileId = id
  | .endRecord => True

theorem replayRecord_decoded (hu : decodeFrom g img = .ok u) (replace : Bool) :
    replayRecord g id (.ofFile replace img) o =
      .ok (if u.fileId = id then some (o.elim u fun f => f.mergeUpdate u replace) else o) := by
  have hid := (decodeFrom_eq hu).1
  cases replace <;> cases o <;> by_cases hself : img.fileId = id <;>
    simp [replayRecord, Record.ofFile, hu, hid, hself, Except.map]

/-- An update changes the file in the catalog as it changes the file alone. -/
theorem shows_update (replace : Bool) (hc : c.Restored) (hs : Shows c id o)
    (hfit : c.UpdateFits img) (hne : img.fileId = id → img.linkfiles ≠ [])
    (hd : decodeFileUpdateFrom g img replace c = .ok d) :
    ∃ o', replayRecord g id (.ofFile replace img) o = .ok o' ∧ Shows d id o' := by
  obtain ⟨u, hu, hnd, hcases⟩ := hc.update_cases hfit hd
  obtain ⟨hid, hlinks, -⟩ := decodeFrom_eq hu
  rw [← hid, ← hlinks] at hne
  refine ⟨_, replayRecord_decoded hu replace, ?_⟩
  obtain ⟨n, h, f, hn, hf, hidf, hfree, rfl⟩ | ⟨hfind, hfree, rfl⟩ := hcases
  · refine hs.relink (relink_merged hc.sound hn hf hfree replace)
      (hc.relinkable hf rfl hnd hfree) (names_iff hc hf) (fun h => hne (hidf.symm.trans h))
      (fun hself => ?_) fun hother => if_neg fun h => hother (hidf.trans h)
    rw [if_pos (hidf.symm.trans hself), (hs f).mpr ⟨hself, n, table_eq_some.mpr ⟨h, hn, hf⟩⟩]
    rfl
  · refine hs.relink (relink_adopt hc.sound hfree) (hc.relinkable_new hfree hnd hfind)
      (unknown_iff hfind) hne (fun hself => ?_) fun hother => if_neg hother
    have hnone : o = none := by
      rw [eq_none_iff_forall_ne_some]
      intro f hf
      obtain ⟨hidf, n, hn⟩ := (hs f).mp hf
      exact absurd ((unknown_iff hfind n f hn).mp (hidf.trans hself.symm)) List.not_mem_nil
    rw [if_pos hself, hnone]
    rfl

theorem shows_deletion {id' : ℕ} {name : Name} (hc : c.Restored) (hs : Shows c id o)
    (hne : LeavesName g c id (.deletion id' name))
    (hd : decodeFileDeletionFrom id' name c = .ok d) :
    ∃ o', replayRecord g id (.deletion id' name) o = .ok o' ∧ Shows d id o' := by
  obtain ⟨h, f, hn, hf, rfl, rfl⟩ := hc.deletion_cases hd
  refine ⟨_, rfl, hs.relink (relink_unlinked hc.sound hn hf) (hc.relinkable_erase hn hf)
    (names_iff hc hf) (fun hid => hne hid h f hf hid) (fun hself => ?_) fun hother => if_neg hother⟩
  rw [if_pos hself, (hs f).mpr ⟨hself, name, table_eq_some.mpr ⟨h, hn, hf⟩⟩]
  rfl

theorem decodeSnapshotFrom_table (hc : c.Restored) (hfit : ImagesFit g imgs c)
    (hd : decodeSnapshotFrom g imgs c = .ok d) {n : Name} (hn : d.table n = some f) :
    (∃ m, c.table m = some f) ∨ ∃ img ∈ imgs, decodeFrom g img = .ok f := by
  induction imgs generalizing c with
  | nil =>
    cases hd
    exact .inl ⟨n, hn⟩
  | cons img rest ih =>
    rw [Catalog.decodeSnapshotFrom] at hd
    cases hu : decodeFrom g img with
    | error s =>
      rw [hu] at hd
      cases hd
    | ok u =>
      rw [hu] at hd
      obtain ⟨m, hm⟩ | ⟨img', hmem, himg⟩ := ih (hc.adopt_fits hu hfit.1) (hfit.2 u hu) hd
      · obtain ⟨hid, hlinks, -⟩ := decodeFrom_eq hu
        have hfits := hfit.1
        rw [ImageFits, ← hid, ← hlinks] at hfits
        obtain htaken | ⟨hfree, hnd, hnew⟩ := hfits
        · rw [(adopt_taken hc.sound u htaken).2] at hm
          exact .inl ⟨m, hm⟩
        · rw [(relink_adopt hc.sound hfree).table_eq (hc.relinkable_new hfree hnd hnew)] at hm
          obtain ⟨-, rfl⟩ | ⟨-, -, hm⟩ := (LinkTable.swap_eq_some ..).mp hm
          · exact .inr ⟨img, List.mem_cons_self, hu⟩
          · exact .inl ⟨m, hm⟩
      · exact .inr ⟨img', List.mem_cons_of_mem _ hmem, himg⟩

theorem shows_snapshot (hc : c.Restored) (hfit : ImagesFit g imgs c.clearFiles)
    (hne : LeavesName g c id (.snapshot imgs))
    (hd : decodeSnapshotFrom g imgs c.clearFiles = .ok d) :
    ∃ o', replayRecord g id (.snapshot imgs) o = .ok o' ∧ Shows d id o' := by
  have hfrom {n : Name} {f : ZoneFile} (hn : d.table n = some f) :
      ∃ img ∈ imgs, decodeFrom g img = .ok f := by
    refine (decodeSnapshotFrom_table hc.clearFiles hfit hd hn).resolve_left ?_
    rintro ⟨m, hm⟩
    simp [table, clearFiles_files] at hm
  cases hfind : imgs.find? (·.fileId = id) with
  | none =>
    refine ⟨none, by rw [replayRecord, hfind], fun f => iff_of_false (fun hno => by cases hno) ?_⟩
    rintro ⟨hid, n, hn⟩
    obtain ⟨img, hmem, hdec⟩ := hfrom hn
    have hno := List.find?_eq_none.mp hfind img hmem
    rw [decide_eq_true_eq] at hno
    exact hno ((decodeFrom_eq hdec).1.symm.trans hid)
  | some img =>
    have hmem := List.mem_of_find?_eq_some hfind
    have hid : img.fileId = id := by simpa using List.find?_some hfind
    obtain ⟨hsame, hthere⟩ := hne img hmem hid
    have hdec {n : Name} {f : ZoneFile} (hn : d.table n = some f) (hf : f.fileId = id) :
        decodeFrom g img = .ok f := by
      obtain ⟨img', hmem', hdec'⟩ := hfrom hn
      rw [← hsame img' hmem' ((decodeFrom_eq hdec').1.symm.trans hf)]
      exact hdec'
    obtain ⟨n, f, hn, hf⟩ := hthere d hd
    refine ⟨some f, ?_, fun f' => ⟨?_, ?_⟩⟩
    · simp only [replayRecord, hfind, hdec hn hf]
      rfl
    · rintro ⟨⟩
      exact ⟨hf, n, hn⟩
    · rintro ⟨hf', n', hn'⟩
      have heq := (hdec hn hf).symm.trans (hdec hn' hf')
      cases heq
      rfl

def LeaveName (g : Geometry) (id : ℕ) : List Record → Bool → Catalog → Prop
  | [], _, _ => True
  | .endRecord :: _, _, _ => True
  | r :: rest, seen, c => LeavesName g c id r ∧
      ∀ p, Catalog.replayRecord g r (seen, c) = .ok p → LeaveName g id rest p.1 p.2

theorem replayRecord_shows {r : Record} {p : Bool × Catalog} (hc : c.Restored) (hs : Shows c id o)
    (hfit : RecordFits g c r) (hne : LeavesName g c id r)
    (hp : Catalog.replayRecord g r (seen, c) = .ok p) :
    ∃ o', replayRecord g id r o = .ok o' ∧ Shows p.2 id o' := by
  cases r with
  | endRecord =>
    cases hp
    exact ⟨o, rfl, hs⟩
  | snapshot imgs => exact shows_snapshot hc hfit hne (decoded_of_map hp)
  | update img => exact shows_update false hc hs hfit hne (decoded_of_map hp)
  | replace img => exact shows_update true hc hs hfit hne (decoded_of_map hp)
  | deletion id' name => exact shows_deletion hc hs hne (decoded_of_map hp)

/-- The replay of the log comes to the file that the replay for one file comes to. -/
theorem recoverFile_shows {records : List Record} {p : Bool × Catalog} (hc : c.Restored)
    (hs : Shows c id o) (hfit : RecordsFit g records seen c) (hne : LeaveName g id records seen c)
    (hp : replay g records seen c = .ok p) :
    ∃ o', recoverFile g id records o = .ok o' ∧ Shows p.2 id o' := by
  induction records generalizing seen c o with
  | nil =>
    cases hp
    exact ⟨o, rfl, hs⟩
  | cons r rest ih =>
    by_cases hr : r = .endRecord
    · subst hr
      cases hp
      exact ⟨o, rfl, hs⟩
    · have hfits : RecordFits g c r ∧
          ∀ q, Catalog.replayRecord g r (seen, c) = .ok q → RecordsFit g rest q.1 q.2 := by
        cases r <;> first | exact absurd rfl hr | exact hfit
      have hleaves : LeavesName g c id r ∧
          ∀ q, Catalog.replayRecord g r (seen, c) = .ok q → LeaveName g id rest q.1 q.2 := by
        cases r <;> first | exact absurd rfl hr | exact hne
      rw [replay_cons hr] at hp
      cases hq : Catalog.replayRecord g r (seen, c) with
      | error s =>
        rw [hq] at hp
        cases hp
      | ok q =>
        rw [hq] at hp
        obtain ⟨o₁, hrec, hs₁⟩ := replayRecord_shows hc hs hfits.1 hleaves.1 hq
        obtain ⟨o₂, hrest, hs₂⟩ :=
          ih (hc.replayRecord hfits.1 hq) hs₁ (hfits.2 q hq) (hleaves.2 q hq) hp
        refine ⟨o₂, ?_, hs₂⟩
        rw [recoverFile_cons hr, hrec]
        exact hrest

/-- Where the records of a metadata zone fit and leave a file its names, `RecoverFrom` comes to
what `recoverFile` makes of them. -/
theorem replay_shows {records : List Record} {p : Bool × Catalog}
    (hfit : RecordsFit g records false .empty) (hne : LeaveName g id records false .empty)
    (hp : replay g records false .empty = .ok p) :
    ∃ o, recoverFile g id records none = .ok o ∧ Shows p.2 id o := by
  refine recoverFile_shows restored_empty (fun f => iff_of_false nofun ?_) hfit hne hp
  simp [table, Catalog.empty]

end ZenFs.Syncs
