import ZenFs.Namespace.Operations
import ZenFs.Namespace.Rules

/-!
Recovery after a run of metadata operations.

A run starts from a freshly made file system and performs metadata operations one after
another. If every device write succeeds and no creation record is replaced by a roll,
the log replays to the namespace in memory after each operation.
-/

namespace ZenFs

open Library LinkTable

variable {I : State → Prop} {child dir : Name} {dest fname link : List UInt8} {e : Env}
variable {renameChild : Name → Name → FsProg Status} {s t : State}

section Operations

theorem keeps_deleteFile (hp : ∀ n, (e.persist n).ok = true) (fname : Name) :
    Keeps (Consistent e) (deleteFile e fname) := by
  refine (Keeps.read _).bind fun h => keeps_orReturn ?_ ?_
  · refine keeps_holding (fun s h hs => hs.release h) h (keeps_publish fun s hs => ?_)
    cases hn : s.getFile fname with
    | none =>
      simp only [State.deleteFileNoLock, hn]
      exact hs.congr rfl rfl
    | some k => exact (hs.deleteFile hn (hp _)).2.1
  · exact keeps_resetUnusedIOZones fun s t hs hc hl => hs.congr hc hl

theorem childPath_ne_nil : childPath dir child ≠ [] := by
  unfold childPath withSeparator
  split
  · next h =>
    intro hnil
    rw [List.append_eq_nil_iff.mp hnil |>.1] at h
    cases h
  · simp

/-- Renaming children in a loop and rolling back keep what the rename of one child keeps. -/
theorem keeps_renameAuxPath (hchild : ∀ a b, b ≠ [] → Keeps I (renameChild a b))
    (haux : ∀ s r, I s → I (State.auxCall e s r).2) (source dest : Name) :
    Keeps I (renameAuxPath e renameChild source dest) := by
  have hcall : ∀ r, Keeps I (publish (State.auxCall e · r)) := fun r =>
    keeps_publish fun s hs => haux s r hs
  have hback : ∀ renamed, Keeps I (rollbackAuxDirRename e renameChild source dest renamed) := by
    intro renamed
    refine (keeps_forEach fun child _ => hchild _ _ (childPath_ne_nil)).bind fun st => ?_
    cases st.ok
    · exact .pure _
    · exact (hcall _).bind fun _ => .pure _
  have hloop : ∀ renamed children,
      Keeps I (renameChildren e renameChild source dest renamed children) := by
    intro renamed children
    induction children generalizing renamed with
    | nil => exact .pure _
    | cons child rest ih =>
      refine (hchild _ _ (childPath_ne_nil)).bind fun st => ?_
      cases st.ok
      · exact keeps_orReturn (hback renamed) (.pure _)
      · exact ih _
  exact keeps_orReturn (hcall _) ((Keeps.read _).bind fun children => hloop [] children)

/-- A rename keeps what its steps keep. -/
theorem keeps_rename {dest : Name} {P : Name → Prop} (hP : ∀ n, n ≠ [] → P n)
    (haux : ∀ s r, I s → I (State.auxCall e s r).2) (hrel : ∀ s h, I s → I (State.release s h))
    (hfile : ∀ s a b h, I s → P b → s.getFile a = some h → I (s.deleteExisting e b).2 ∧
      ((s.deleteExisting e b).1.ok = true → I ((s.deleteExisting e b).2.renameTo e h a b).2))
    (depth : ℕ) (source : Name) (hdest : P dest) :
    Keeps I (renameFileNoLock e depth source dest) := by
  induction depth generalizing source dest with
  | zero => exact .stuck
  | succ depth ih =>
    intro s hs
    refine .bind (.read ?_)
    cases hsource : s.getFile source with
    | none => exact keeps_renameAuxPath (fun a b hb => ih a (hP b hb)) haux source dest s hs
    | some h =>
      obtain ⟨hdel, hren⟩ := hfile s source dest h hs hdest hsource
      have hrel : ∀ (o : Option Handle) t, I t → I (o.elim t t.release) := by
        intro o t ht
        cases o with
        | none => exact ht
        | some k => exact hrel t k ht
      refine .bind (.read (ends_holding _ (ends_holding _ (ends_orReturn ?_))))
      refine ends_publish ⟨fun hok => ends_publish ?_, fun _ => ?_⟩
      · exact hrel _ _ (hrel _ _ (hren hok))
      · exact hrel _ _ (hrel _ _ hdel)

section

variable (hp : ∀ n, (e.persist n).ok = true)
include hp

theorem keeps_renameFileNoLock (depth : ℕ) (source : Name) (hne : dest ≠ []) :
    Keeps (Consistent e) (renameFileNoLock e depth source dest) := by
  refine keeps_rename (fun _ hn => hn) (fun _ _ hs => hs.congr rfl rfl) (fun _ h hs => hs.release h)
    (fun s a b h hs hb ha => ?_) depth source hne
  obtain ⟨hdel, hren⟩ := hs.renameFile ha hb hp
  exact ⟨hdel, fun _ => hren⟩

theorem keeps_linkFile (file : Name)
    (hne : link ≠ []) : Keeps (Consistent e) (linkFile e file link) :=
  keeps_publish fun _ hs => hs.linkFile file hne (hp _)

theorem keeps_renameFile (depth : ℕ) (source : Name)
    (hne : dest ≠ []) : Keeps (Consistent e) (renameFile e depth source dest) :=
  keeps_orReturn (keeps_renameFileNoLock hp depth source hne)
    (keeps_resetUnusedIOZones fun _ _ hs hc hl => hs.congr hc hl)

end

/-- Which outcome of `PersistRecord` the creation record of `OpenWritableFile` meets, if a
file is created: the deletion of an existing file comes before it. -/
def creationOutcome (e : Env) (s : State) (fname : Name) (reopen : Bool) : Option PersistOutcome :=
  match s.getFile fname with
  | none => some (e.persist s.persists)
  | some _ => if reopen then none else some (e.persist (s.persists + 1))

theorem ends_openWritableFile (hs : Consistent e s) (hp : ∀ n, (e.persist n).ok = true)
    (hne : fname ≠ []) (directWrites reopen : Bool)
    (hcreate : ∀ o ∈ creationOutcome e s fname reopen, o = .appended) :
    Ends (openWritableFile e fname directWrites reopen) s fun _ => Consistent e := by
  refine .bind (.read ?_)
  cases hn : s.getFile fname with
  | none =>
    refine ends_publish (hs.createFile hne hn directWrites ?_)
    exact hcreate _ (by simp [creationOutcome, hn])
  | some h =>
    cases reopen with
    | true =>
      refine .bind (.read ?_)
      cases (s.writers h).isSome
      · exact ends_publish (hs.openWriter h fname directWrites)
      · exact .stuck
    | false =>
      obtain ⟨-, ht, hfiles, -, hpersists⟩ := hs.deleteFile hn (hp _)
      have hreset : Keeps (Consistent e) (resetUnusedIOZones e) :=
        keeps_resetUnusedIOZones fun _ _ hs hc hl => hs.congr hc hl
      refine ends_orReturn (ends_holding _ (ends_publish ⟨fun _ => ?_, fun _ => ht.release h⟩))
      refine ends_orReturn_keeps (ends_publish ?_) hreset
      refine (ht.release h).createFile hne ?_ directWrites ?_
      · rw [State.getFile, State.release_files, hfiles, if_pos rfl]
      · rw [State.release_persists, hpersists]
        exact hcreate _ (by simp [creationOutcome, hn])

end Operations

/-- The operations of a run. A writer adds extents in memory; the other operations are
those of the source. -/
inductive MetaOp
  | openWritableFile (fname : Name) (directWrites reopen : Bool)
  | appendExtents (h : Handle) (extents : List ZoneExtent) (fileSize : ℕ) (lifetime : Lifetime)
  | syncFileMetadata (h : Handle)
  | syncFileExtents (h : Handle) (newExtents : List ZoneExtent)
  | linkFile (file link : Name)
  | renameFile (depth : ℕ) (source dest : Name)
  | deleteFile (fname : Name)

namespace MetaOp

def prog (e : Env) : MetaOp → FsProg Status
  | openWritableFile fname directWrites reopen => ZenFs.openWritableFile e fname directWrites reopen
  | appendExtents h extents fileSize lifetime => publish fun s =>
      (.OK, (s.editFile h (·.appendExtents extents fileSize lifetime)).onCat (·.addUsed extents))
  | syncFileMetadata h => publish (State.syncFileMetadata e · h false)
  | syncFileExtents h newExtents => publish (State.syncFileExtents e · h newExtents)
  | linkFile file link => ZenFs.linkFile e file link
  | renameFile depth source dest => ZenFs.renameFile e depth source dest
  | deleteFile fname => ZenFs.deleteFile e fname

/-- Paths are not empty, and extents lie in IO zones. -/
def Valid (g : Geometry) : MetaOp → Prop
  | openWritableFile fname _ _ => fname ≠ []
  | appendExtents _ extents _ _ => extents ≠ [] ∧ ExtentsOk g extents
  | syncFileMetadata _ => True
  | syncFileExtents _ newExtents => ExtentsOk g newExtents
  | linkFile _ link => link ≠ []
  | renameFile _ _ dest => dest ≠ []
  | deleteFile _ => True

/-- If the operation creates a file, its record is appended and no roll comes instead. -/
def CreationAppended (e : Env) (s : State) : MetaOp → Prop
  | openWritableFile fname _ reopen => ∀ o ∈ creationOutcome e s fname reopen, o = .appended
  | _ => True

end MetaOp

/-- A file system made by `MkFS` and mounted: an empty snapshot is all of its log. -/
def State.initial (e : Env) : State where
  cat := .empty
  zones z := ⟨e.maxCapacity z, e.start z, false, .notSet, -1⟩
  dev _ := 0
  log := ⟨[.snapshot []], []⟩
  writers _ := none
  activeIoZones := 0
  openIoZones := 0
  persists := 0
  auxCalls := 0
  resets := 0
  clockReads := 0

/-- The states a run of metadata operations reaches, when every operation meets `P`. -/
inductive MetaRun (e : Env) (P : State → MetaOp → Prop) : State → Prop
  | init : MetaRun e P (State.initial e)
  | step {s t : State} {st : Status} (op : MetaOp) : MetaRun e P s → op.Valid e.toGeometry →
      P s op → (op.prog e s).result = some (st, t) → MetaRun e P t

theorem Consistent.initial (e : Env) : Consistent e (State.initial e) where
  cat := ⟨Catalog.sound_empty, fun n f hf => by simp [State.initial, Catalog.table, Catalog.empty] at hf⟩
  log := by
    have h := logAgrees_snapshot (g := e.toGeometry) Catalog.sound_empty
      fun n f hf => by simp [Catalog.table, Catalog.empty] at hf
    exact h
  unnamed h f hf := by simp [State.initial, Catalog.empty] at hf

theorem Consistent.step {op : MetaOp} {st : Status} (hs : Consistent e s)
    (hp : ∀ n, (e.persist n).ok = true) (hop : op.Valid e.toGeometry)
    (hcreate : op.CreationAppended e s) (hr : (op.prog e s).result = some (st, t)) :
    Consistent e t := by
  refine (show Ends (op.prog e) s fun _ => Consistent e from ?_) st t hr
  cases op with
  | openWritableFile fname directWrites reopen =>
    exact ends_openWritableFile hs hp hop directWrites reopen hcreate
  | appendExtents h extents fileSize lifetime => exact ends_publish (hs.appendExtents h hop.1 hop.2)
  | syncFileMetadata h => exact ends_publish (hs.syncFileMetadata h (hp _))
  | syncFileExtents h newExtents => exact ends_publish (hs.syncFileExtents h hop (hp _))
  | linkFile file link => exact keeps_linkFile hp file hop s hs
  | renameFile depth source dest => exact keeps_renameFile hp depth source hop s hs
  | deleteFile fname => exact keeps_deleteFile hp fname s hs

theorem MetaRun.consistent (hp : ∀ n, (e.persist n).ok = true)
    (hs : MetaRun e (fun s op => op.CreationAppended e s) s) : Consistent e s := by
  induction hs with
  | init => exact Consistent.initial e
  | step op _ hop hcreate hr ih => exact ih.step hp hop hcreate hr

/-- `RecoverFrom` returns OK on the current metadata zone and rebuilds the namespace in
memory: the same names, one object for the same names, and for each file its id, its
synced extents and its link names, and its size, lifetime and sparse flag unless it has
unsynced extents. -/
def Recovers (e : Env) (s : State) : Prop :=
  ∃ d, Catalog.recoverFrom e.toGeometry s.log.records .empty = (.OK, d) ∧
    (∀ n : Name, d.files[n]? = none ↔ s.cat.files[n]? = none) ∧
    (∀ n m : Name, s.cat.files[n]? ≠ none → s.cat.files[m]? ≠ none →
      (d.files[n]? = d.files[m]? ↔ s.cat.files[n]? = s.cat.files[m]?)) ∧
    ∀ n f, s.cat.table n = some f → ∃ u, d.table n = some u ∧ Recorded u f

theorem Consistent.recovers (hs : Consistent e s) : Recovers e s := by
  obtain ⟨-, d, hreplay, hd, hagree⟩ := hs.log
  have hnone : ∀ n : Name, d.files[n]? = none ↔ s.cat.files[n]? = none := fun n => by
    rw [← hd.table_isSome, hagree.none_iff, hs.cat.sound.table_isSome]
  refine ⟨d, by simp [Catalog.recoverFrom, hreplay], hnone, ?_, fun n f hf => hagree.right hf⟩
  intro n m hn hm
  rw [ne_eq, ← hs.cat.sound.table_isSome, ← ne_eq, Option.ne_none_iff_exists'] at hn hm
  obtain ⟨f, hf⟩ := hn
  obtain ⟨f', hf'⟩ := hm
  obtain ⟨u, hu, hur⟩ := hagree.right hf
  obtain ⟨u', hu', hur'⟩ := hagree.right hf'
  rw [hd.same_iff hu hu', hs.cat.sound.same_iff hf hf', hur.fileId, hur'.fileId]

/-- In a run whose device writes succeed and whose creation records are all appended, the
log recovers to the namespace in memory after every operation. -/
theorem metaRun_recovers {e : Env} (hp : ∀ n, (e.persist n).ok = true) {s : State}
    (hs : MetaRun e (fun s op => op.CreationAppended e s) s) : Recovers e s :=
  (hs.consistent hp).recovers

/-- A small device with the given outcomes of `PersistRecord`; the auxiliary file system
refuses every request. -/
def Env.small (persist : ℕ → PersistOutcome) : Env where
  toGeometry := .small
  persist := persist
  aux _ _ := .NotFound ""
  reset _ := .OK
  clock n := n
  bufferMegabytes := 1
  aux_nested _ _ _ _ _ := rfl

/-- A run that makes a file and gives it a second name, with a roll. -/
theorem metaRun_recovers_small :
    let e := Env.small fun n => if n = 0 then .appended else .rolled
    ∃ s, MetaRun e (fun s op => op.CreationAppended e s) s ∧ Recovers e s := by
  intro e
  have hp : ∀ n, (e.persist n).ok = true := by
    intro n
    show (if n = 0 then PersistOutcome.appended else .rolled).ok = true
    split <;> rfl
  have hcreate : MetaRun e (fun s op => op.CreationAppended e s)
      ((State.initial e).createFile e [97] true).2 :=
    .step (.openWritableFile [97] true false) .init (by simp [MetaOp.Valid])
      (by rintro o ⟨⟩; rfl) rfl
  have hlink := MetaRun.step (.linkFile [97] [98]) hcreate (by simp [MetaOp.Valid]) trivial
    (publish_result)
  exact ⟨_, hlink, metaRun_recovers hp hlink⟩

/-- A roll in the place of a creation record leaves the new file out of the snapshot: the
file is in memory, and `RecoverFrom` does not find it. -/
theorem creation_lost_in_roll :
    let e := Env.small fun _ => .rolled
    (∀ n, (e.persist n).ok = true) ∧ ∃ s t : State, MetaRun e (fun _ _ => True) s ∧
      ((MetaOp.openWritableFile [97] true false).prog e s).result = some (.OK, t) ∧
      ¬ Recovers e t := by
  intro e
  refine ⟨fun _ => rfl, State.initial e, ((State.initial e).createFile e [97] true).2, .init,
    rfl, ?_⟩
  rintro ⟨d, hrec, hnone, -⟩
  have hd : d = _ := (congrArg Prod.snd hrec).symm
  have hlost : d.files[([97] : Name)]? = none := by
    rw [hd]
    rfl
  have hthere := (hnone [97]).mp hlost
  cases hthere

end ZenFs
