import ZenFs.Namespace.Recovery
import ZenFs.Namespace.Rename

/-!
Names stay tidy, however the metadata writes end.

Handles and file ids are given out in order, so that a new file gets a handle and an id of
its own. Every state that a run of operations reaches is orderly, also after writes that
failed.
-/

namespace ZenFs

open Library Function Nat

variable {P : State → MetaOp → Prop} {e : Env} {fname source : Name} {s : State}

namespace State

variable {t : State} {h : Handle}

def counters (s : State) : Handle × ℕ := (s.cat.nextHandle, s.cat.nextFileId)

structure Orderly (s : State) : Prop where
  tidy : s.names.Tidy
  handle_lt : ∀ {h E}, s.names.entry h = some E → h < s.counters.1
  fileId_lt : ∀ {h E}, s.names.entry h = some E → E.fileId < s.counters.2

theorem Orderly.congr (hs : s.Orderly) (hnames : t.names = s.names)
    (hc : t.counters = s.counters) : t.Orderly := by
  refine ⟨hnames ▸ hs.tidy, fun hE => ?_, fun hE => ?_⟩
  · rw [hc]
    exact hs.handle_lt (hnames ▸ hE)
  · rw [hc]
    exact hs.fileId_lt (hnames ▸ hE)

theorem Orderly.follows (hs : s.Orderly) (hf : Names.Follows s.names t.names)
    (hc : t.counters = s.counters) : t.Orderly := by
  refine ⟨hf.tidy, fun hE => ?_, fun hE => ?_⟩
  · obtain ⟨F, hF, -⟩ := hf.ids hE
    rw [hc]
    exact hs.handle_lt hF
  · obtain ⟨F, hF, hid⟩ := hf.ids hE
    rw [hc, ← hid]
    exact hs.fileId_lt hF

theorem persistRecord_counters (e : Env) (s : State) (r : Record) :
    (s.persistRecord e r).2.counters = s.counters := by
  unfold persistRecord
  cases e.persist s.persists <;> rfl

theorem callFile_counters (s : State) (h : Handle) (f : ZoneFile → Status × ZoneFile) :
    (s.callFile h f).2.counters = s.counters := by
  unfold callFile
  cases s.cat.heap h <;> rfl

theorem release_counters (s : State) (h : Handle) : (s.release h).counters = s.counters := by
  unfold release
  split
  · rfl
  · exact Prod.ext Catalog.release_nextHandle Catalog.release_nextFileId

theorem syncFileMetadata_counters (e : Env) (s : State) (h : Handle) (replace : Bool) :
    (s.syncFileMetadata e h replace).2.counters = s.counters := by
  cases hh : s.cat.heap h with
  | none => simp [syncFileMetadata, hh]
  | some f =>
    cases hl : f.isDeleted with
    | true => simp [syncFileMetadata, hh, hl]
    | false =>
      have hstep : ∀ u : State, u.counters = s.counters → ∀ r : Record,
          (if (u.persistRecord e r).1.ok then
            (u.persistRecord e r).2.editFile h ZoneFile.metadataSynced
          else (u.persistRecord e r).2).counters = s.counters := by
        intro u hu r
        split <;> exact (persistRecord_counters e u r).trans hu
      rw [syncFileMetadata_eq hh hl replace]
      refine hstep _ ?_ _
      cases replace <;> rfl

theorem deleteFileNoLock_counters (e : Env) (s : State) (n : Name) :
    (s.deleteFileNoLock e n).2.counters = s.counters := by
  unfold deleteFileNoLock
  cases s.getFile n with
  | none => rfl
  | some h =>
    have hcall := callFile_counters (s.onCat (·.eraseName n)) h (·.removeLinkName n)
    dsimp only
    split
    · exact hcall
    · split <;> exact (persistRecord_counters e _ _).trans hcall

theorem renameTo_counters (e : Env) (s : State) (h : Handle) (source dest : Name) :
    (s.renameTo e h source dest).2.counters = s.counters := by
  have hcall := callFile_counters s h (·.renameLink source dest)
  unfold renameTo
  dsimp only
  split
  · exact hcall
  · have hsync : ∀ u : State, u.counters = s.counters →
        (u.syncFileMetadata e h false).2.counters = s.counters := fun u hu =>
      (syncFileMetadata_counters e u h false).trans hu
    split
    · exact hsync _ hcall
    · split <;> exact (callFile_counters _ h _).trans (hsync _ hcall)

theorem linkFile_counters (e : Env) (s : State) (file link : Name) :
    (s.linkFile e file link).2.counters = s.counters := by
  unfold linkFile
  cases s.getFile link with
  | some k => rfl
  | none =>
    cases s.getFile file with
    | none => rfl
    | some h =>
      have hsync := syncFileMetadata_counters e
        ((s.editFile h (·.addLinkName link)).onCat (·.insertName h link)) h false
      dsimp only
      split
      · exact hsync
      · split <;> exact (callFile_counters _ h _).trans hsync

theorem openWriter_names (e : Env) (s : State) (h : Handle) (fname : Name) (directWrites : Bool) :
    (s.openWriter e h fname directWrites).names = s.names := by
  unfold openWriter
  split
  · rfl
  · exact editFile_names_same s h _ fun _ => rfl

/-- The names after a new file was made; nothing is left of it if its creation could not be
persisted. -/
theorem createFile_names (hs : s.Orderly) (hfree : s.names.files fname = none)
    (directWrites : Bool) :
    (s.createFile e fname directWrites).2.names =
      if (e.persist s.persists).ok then
        s.names.put s.cat.nextHandle ⟨s.cat.nextFileId, [fname], false⟩
          (update s.names.files fname (some s.cat.nextHandle))
      else s.names := by
  let f := newZoneFile s.cat.nextFileId (e.clock s.clockReads) fname directWrites
  let t := s.allocFile e fname directWrites
  have hE : f.entry = ⟨s.cat.nextFileId, [fname], false⟩ := by
    obtain ⟨_, _, heq⟩ := newZoneFile_eq s.cat.nextFileId (e.clock s.clockReads) fname directWrites
    simp only [f, heq]
    rfl
  have htnames : t.names = s.names.put s.cat.nextHandle f.entry s.names.files := by
    refine Names.ext rfl (funext fun k => ?_)
    show (update s.cat.heap s.cat.nextHandle (some f) k).map ZoneFile.entry = _
    by_cases hk : k = s.cat.nextHandle
    · rw [hk, update_self, Names.put_entry_self]
      rfl
    · rw [update_of_ne hk, Names.put_entry_of_ne _ hk]
      rfl
  let r := t.syncFileMetadata e s.cat.nextHandle false
  obtain ⟨hok, hnames, -⟩ : r.1.ok = (e.persist s.persists).ok ∧ r.2.names = t.names ∧
      r.2.persists = s.persists + 1 :=
    syncFileMetadata_names (by rw [htnames, Names.put_entry_self]) (by rw [hE]) false
  have heq : s.createFile e fname directWrites =
      if !r.1.ok then (r.1, r.2.onCat (·.destroy s.cat.nextHandle))
      else (r.1, (r.2.onCat (·.insertName s.cat.nextHandle fname)).openWriter e
        s.cat.nextHandle fname directWrites) := rfl
  rw [heq, hok]
  cases (e.persist s.persists).ok with
  | true =>
    show ((r.2.onCat (·.insertName s.cat.nextHandle fname)).openWriter e _ _ _).names = _
    have hfree' : r.2.names.files fname = none := by rw [hnames]; exact hfree
    rw [openWriter_names, insertName_names hfree', hnames, htnames, hE]
    rfl
  | false =>
    show (r.2.onCat (·.destroy s.cat.nextHandle)).names = s.names
    have hentry : ∀ k, (r.2.onCat (·.destroy s.cat.nextHandle)).names.entry k =
        if k = s.cat.nextHandle then none else r.2.names.entry k := by
      intro k
      show ((r.2.cat.destroy s.cat.nextHandle).heap k).map ZoneFile.entry = _
      rw [Catalog.destroy_heap]
      split <;> rfl
    refine Names.ext ?_ (funext fun k => ?_)
    · funext n
      show (r.2.cat.destroy s.cat.nextHandle).files[n]? = _
      rw [Catalog.destroy_files]
      exact congrFun (congrArg Names.files (hnames.trans htnames)) n
    · rw [hentry]
      split
      case isTrue hk =>
        cases hnone : s.names.entry k with
        | none => rfl
        | some E => exact absurd (hs.handle_lt hnone) (hk ▸ lt_irrefl _)
      case isFalse hk =>
        rw [hnames, htnames, Names.put_entry_of_ne _ hk]

theorem createFile_counters (e : Env) (s : State) (fname : Name) (directWrites : Bool) :
    (s.createFile e fname directWrites).2.counters =
      (s.cat.nextHandle + 1, s.cat.nextFileId + 1) := by
  have hsync := syncFileMetadata_counters e (s.allocFile e fname directWrites) s.cat.nextHandle
    false
  unfold createFile
  dsimp only
  split
  · refine Eq.trans (Prod.ext ?_ ?_) hsync
    · exact Catalog.destroy_nextHandle
    · exact Catalog.destroy_nextFileId
  · refine Eq.trans ?_ hsync
    unfold openWriter
    split <;> rfl

theorem Orderly.createFile (hs : s.Orderly) (hfree : s.names.files fname = none)
    (directWrites : Bool) : (s.createFile e fname directWrites).2.Orderly := by
  have hold : ∀ {h E}, s.names.entry h = some E → h ≠ s.cat.nextHandle := by
    rintro h E hE rfl
    exact lt_irrefl _ (hs.handle_lt hE)
  have hcounters := createFile_counters e s fname directWrites
  have hnames := createFile_names (e := e) hs hfree directWrites
  split at hnames
  case isFalse =>
    refine ⟨hnames ▸ hs.tidy, fun hE => ?_, fun hE => ?_⟩
    · rw [hcounters]
      exact lt_succ_of_lt (hs.handle_lt (hnames ▸ hE))
    · rw [hcounters]
      exact lt_succ_of_lt (hs.fileId_lt (hnames ▸ hE))
  case isTrue =>
    have hfresh : ∀ m, s.names.files m ≠ some s.cat.nextHandle := by
      intro m hm
      obtain ⟨E, hE, -⟩ := hs.tidy.alive hm
      exact hold hE rfl
    refine ⟨?_, fun hE => ?_, fun hE => ?_⟩
    · rw [hnames]
      refine hs.tidy.put (fun hF hid => ?_) (List.nodup_singleton _) (fun m => ?_) (fun m k hk => ?_)
        fun _ => rfl
      · exact absurd (hs.fileId_lt hF) (hid ▸ lt_irrefl _)
      · rw [Names.update_some_eq_some]
        simp [hfresh m]
      · rw [Names.update_some_eq_some]
        by_cases hm : m = fname
        · simp [hm, hk, hfree]
        · simp [hm]
    · rw [hnames] at hE
      rw [hcounters]
      rcases Names.put_entry_cases hE with ⟨rfl, -⟩ | ⟨-, hE⟩
      · exact lt_succ_self _
      · exact lt_succ_of_lt (hs.handle_lt hE)
    · rw [hnames] at hE
      rw [hcounters]
      rcases Names.put_entry_cases hE with ⟨-, rfl⟩ | ⟨-, hE⟩
      · exact lt_succ_self _
      · exact lt_succ_of_lt (hs.fileId_lt hE)

namespace Orderly

variable (hs : s.Orderly)

include hs

theorem auxCall (r : AuxRequest) : (s.auxCall e r).2.Orderly := hs.congr rfl rfl

theorem release (h : Handle) : (s.release h).Orderly := by
  have hc := release_counters s h
  refine ⟨release_tidy hs.tidy, fun hE => ?_, fun hE => ?_⟩
  · rw [hc]
    exact hs.handle_lt (release_entry hE)
  · rw [hc]
    exact hs.fileId_lt (release_entry hE)

theorem openWriter (h : Handle) (fname : Name) (directWrites : Bool) :
    (s.openWriter e h fname directWrites).Orderly := by
  refine hs.congr (openWriter_names e s h fname directWrites) ?_
  unfold State.openWriter
  split <;> rfl

theorem syncFileMetadata (h : Handle) (replace : Bool) :
    (s.syncFileMetadata e h replace).2.Orderly := by
  refine hs.congr ?_ (syncFileMetadata_counters e s h replace)
  cases hh : s.cat.heap h with
  | none => simp [State.syncFileMetadata, hh]
  | some f =>
    cases hl : f.isDeleted with
    | true => simp [State.syncFileMetadata, hh, hl]
    | false => exact (syncFileMetadata_names (entry_of_heap hh) hl replace).2.1

theorem editFile (h : Handle) (edit : ZoneFile → ZoneFile) (hedit : ∀ f, (edit f).entry = f.entry) :
    (s.editFile h edit).Orderly :=
  hs.congr (editFile_names_same s h edit hedit) rfl

theorem syncFileExtents (h : Handle) (newExtents : List ZoneExtent) :
    (s.syncFileExtents e h newExtents).2.Orderly := by
  unfold State.syncFileExtents
  split
  · exact hs
  · have hsync := (hs.editFile h (fun f => ({ f with extents := newExtents }).metadataUnsynced)
      fun _ => rfl).syncFileMetadata (e := e) h true
    dsimp only
    split
    · exact hsync
    · exact hsync.congr rfl rfl

theorem deleteFileNoLock (n : Name) : (s.deleteFileNoLock e n).2.Orderly := by
  cases hn : s.getFile n with
  | none =>
    rw [State.deleteFileNoLock, hn]
    exact hs.auxCall _
  | some h =>
    obtain ⟨-, -, hfollows, -⟩ := deleteFileNoLock_names hs.tidy hn
    exact hs.follows hfollows (deleteFileNoLock_counters e s n)

theorem linkFile (file link : Name) : (s.linkFile e file link).2.Orderly := by
  cases hlink : s.getFile link with
  | some k =>
    simp only [State.linkFile, hlink]
    exact hs
  | none =>
    cases hfile : s.getFile file with
    | none =>
      simp only [State.linkFile, hlink, hfile]
      exact hs.auxCall _
    | some h =>
      obtain ⟨-, -, hfollows, -⟩ := linkFile_names hs.tidy hfile hlink
      exact hs.follows hfollows (linkFile_counters e s file link)

theorem renameFile (hsource : s.getFile source = some h) (dest : Name) :
    (s.deleteExisting e dest).2.Orderly ∧ ((s.deleteExisting e dest).1.ok = true →
      ((s.deleteExisting e dest).2.renameTo e h source dest).2.Orderly) := by
  cases hdest : s.getFile dest with
  | none =>
    have hd : s.deleteExisting e dest = (.OK, s) := by rw [deleteExisting, hdest]
    obtain ⟨-, -, hfollows, -⟩ := renameTo_names hs.tidy hsource hdest
    rw [hd]
    exact ⟨hs, fun _ => hs.follows hfollows (renameTo_counters e s h source dest)⟩
  | some k =>
    have hd : s.deleteExisting e dest = s.deleteFileNoLock e dest := by rw [deleteExisting, hdest]
    rw [hd]
    have ht := hs.deleteFileNoLock (e := e) dest
    refine ⟨ht, fun hok => ?_⟩
    obtain ⟨hst, -, -, ⟨E, hE⟩, hfiles⟩ := deleteFileNoLock_names hs.tidy hdest
    rw [← hst, if_pos hok] at hfiles
    have hgone : (s.deleteFileNoLock e dest).2.names.files dest = none := by
      rw [hfiles, update_self]
    by_cases hne : source = dest
    · -- the file has just lost the name it is to be renamed from
      subst hne
      obtain rfl : k = h := Option.some.inj (hdest.symm.trans hsource)
      obtain ⟨f, hf, rfl⟩ := exists_of_entry hE
      have hlink : source ∉ f.linkfiles := by
        intro hmem
        have := (ht.tidy.links hE source).mp hmem
        rw [hgone] at this
        cases this
      rw [renameTo_of_not_mem source hf hlink]
      exact ht
    · have hsource' : (s.deleteFileNoLock e dest).2.names.files source = some h := by
        rw [hfiles, update_of_ne hne]
        exact hsource
      obtain ⟨-, -, hfollows, -⟩ := renameTo_names ht.tidy hsource' hgone
      exact ht.follows hfollows (renameTo_counters e _ h source dest)

end Orderly

end State

section Runs

theorem orderly_congr {t : State} (hs : s.Orderly) (hcat : t.cat = s.cat) : t.Orderly :=
  hs.congr (State.names_congr hcat) (by rw [State.counters, hcat]; rfl)

theorem keeps_orderly_reset : Keeps State.Orderly (resetUnusedIOZones e) :=
  keeps_resetUnusedIOZones fun _ _ hs hc _ => orderly_congr hs hc

theorem keeps_orderly_deleteFile (fname : Name) : Keeps State.Orderly (deleteFile e fname) :=
  (Keeps.read _).bind fun h => keeps_orReturn
    (keeps_holding (fun _ h hs => hs.release h) h (keeps_publish fun _ hs => hs.deleteFileNoLock _))
    (keeps_orderly_reset)

theorem keeps_orderly_renameFileNoLock (depth : ℕ) (source dest : Name) :
    Keeps State.Orderly (renameFileNoLock e depth source dest) :=
  keeps_rename (P := fun _ => True) (fun _ _ => trivial) (fun _ r hs => hs.auxCall r)
    (fun _ h hs => hs.release h) (fun _ _ b _ hs _ ha => hs.renameFile ha b) depth source trivial

theorem keeps_orderly_openWritableFile (fname : Name) (directWrites reopen : Bool) :
    Keeps State.Orderly (openWritableFile e fname directWrites reopen) := by
  intro s hs
  refine .bind (.read ?_)
  cases hn : s.getFile fname with
  | none => exact ends_publish (hs.createFile hn directWrites)
  | some h =>
    cases reopen with
    | true =>
      refine .bind (.read ?_)
      cases (s.writers h).isSome
      · exact ends_publish (hs.openWriter h fname directWrites)
      · exact .stuck
    | false =>
      have ht := hs.deleteFileNoLock (e := e) fname
      refine ends_orReturn (ends_holding _ (ends_publish ⟨fun hok => ?_, fun _ => ht.release h⟩))
      refine ends_orReturn_keeps (ends_publish ((ht.release h).createFile ?_ directWrites))
        (keeps_orderly_reset)
      obtain ⟨hst, -, -, -, hfiles⟩ := State.deleteFileNoLock_names hs.tidy hn
      rw [(State.release_names _ h).1, hfiles, ← hst, if_pos hok, update_self]

theorem keeps_orderly (op : MetaOp) : Keeps State.Orderly (op.prog e) := by
  cases op with
  | openWritableFile fname directWrites reopen =>
    exact keeps_orderly_openWritableFile fname directWrites reopen
  | appendExtents h extents fileSize lifetime =>
    exact keeps_publish fun s hs =>
      (hs.editFile h (·.appendExtents extents fileSize lifetime) fun _ => rfl).congr rfl rfl
  | syncFileMetadata h => exact keeps_publish fun s hs => hs.syncFileMetadata h false
  | syncFileExtents h newExtents => exact keeps_publish fun s hs => hs.syncFileExtents h newExtents
  | linkFile file link => exact keeps_publish fun s hs => hs.linkFile file link
  | renameFile depth source dest =>
    exact keeps_orReturn (keeps_orderly_renameFileNoLock depth source dest) (keeps_orderly_reset)
  | deleteFile fname => exact keeps_orderly_deleteFile fname

theorem MetaRun.orderly (hs : MetaRun e P s) :
    s.Orderly := by
  induction hs with
  | init =>
    refine ⟨⟨fun hn => ?_, fun hE => ?_, fun hE => ?_, fun hE => ?_⟩, fun hE => ?_, fun hE => ?_⟩
    all_goals simp [State.names, State.initial, State.getFile, Catalog.empty] at *
  | step op _ _ _ hr ih => exact keeps_orderly op _ ih _ _ hr

end Runs

end ZenFs
