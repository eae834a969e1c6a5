import ZenFs.Library.Tasks
import ZenFs.Model.Namespace

/-!
The link names of files, while threads open, write, delete, link, rename, list and migrate
files.

`GetFilename` reads the first link name of a file. Link names change under `files_mtx_` only,
but not all who read them hold it: a writer that persists its file does not, nor does a
placement policy that looks at the extents of other files.

Zones are left out. What an allocation does with the records of the files, and whether it finds a
zone, is part of the request.
-/

namespace ZenFs.Filenames

open Library Task Function

inductive Mutex
  | files
  | levelwiseFiles
  deriving DecidableEq, Repr

/-- The atomic steps of the threads; where it matters, with the number of the thread. -/
inductive Call
  | lock (i : ℕ) (m : Mutex)
  | unlock (m : Mutex)
  /-- `files_.find`. -/
  | getFile (name : Name)
  | eraseFile (name : Name)
  | insertFile (name : Name) (h : Handle)
  | listFiles
  /-- `std::make_shared<ZoneFile>`. -/
  | newFile
  | addLinkName (h : Handle) (name : Name)
  /-- `std::find` and `erase` on `linkfiles_`: whether the name was there. -/
  | eraseLink (h : Handle) (name : Name)
  | getNrLinks (h : Handle)
  /-- `linkfiles_[0]`. -/
  | getFilename (h : Handle)
  | isSparse (h : Handle)
  | setSparse (h : Handle) (sparse : Bool)
  | isDeleted (h : Handle)
  /-- `is_deleted_ = true`. -/
  | markDeleted (h : Handle)
  | acquireWRLock (i : ℕ) (h : Handle)
  | tryAcquireWRLock (i : ℕ) (h : Handle)
  | releaseWRLock (i : ℕ) (h : Handle)
  /-- A new `ZonedWritableFile`. -/
  | openWriter (i : ℕ) (h : Handle)
  /-- `open = false`. -/
  | closeWriter (i : ℕ) (h : Handle)
  /-- A policy reads `levelwise_file_list_`. -/
  | readRecords
  | addRecord (h : Handle)
  | removeRecord (h : Handle)
  | isRecorded (h : Handle)
  | setRecorded (h : Handle)
  | persistRecord
  /-- A call of the auxiliary file system. -/
  | aux (r : AuxRequest)
  /-- Never returns. -/
  | hang

def Call.Res : Call → Type
  | getFile _ => Option Handle
  | listFiles => Files
  | newFile => Handle
  | eraseLink _ _ => Bool
  | getNrLinks _ => ℕ
  | getFilename _ => Name
  | isSparse _ => Bool
  | isDeleted _ => Bool
  | tryAcquireWRLock _ _ => Bool
  | readRecords => List Handle
  | isRecorded _ => Bool
  | persistRecord => Status
  | aux _ => Status
  | hang => Empty
  | _ => Unit

/-- How the calls of `PersistRecord` and of the auxiliary file system end. -/
structure Answers where
  persist : ℕ → Status
  aux : ℕ → AuxRequest → Status

/-- What the threads share. `recorded` are the files in `levelwise_file_list_`, of all
levels. -/
structure Shared where
  files : Files
  linkfiles : Handle → List Name
  nextHandle : Handle
  isSparse : Handle → Bool
  isDeleted : Handle → Bool
  isRecorded : Handle → Bool
  recorded : List Handle
  /-- The thread that holds the write lock of the file. -/
  wrLock : Handle → Option ℕ
  /-- The `ZonedWritableFile` objects that are open: thread and file. -/
  writers : List (ℕ × Handle)
  owner : Mutex → Option ℕ
  persists : ℕ
  auxCalls : ℕ

/-- Execute a call. There is no result when it blocks, nor when its effect is not defined: for
the first name of a file that has none, and for the unlocking of a mutex of another thread. -/
def exec (e : Answers) : (o : Call) → Shared → Option (o.Res × Shared)
  | .lock i m, s =>
    if s.owner m = none then
      some ((), { s with owner := Function.update s.owner m (some i) })
    else none
  | .unlock m, s => some ((), { s with owner := Function.update s.owner m none })
  | .getFile n, s => some (s.files[n]?, s)
  | .eraseFile n, s => some ((), { s with files := s.files.erase n })
  | .insertFile n h, s => some ((), { s with files := s.files.insertIfNew n h })
  | .listFiles, s => some (s.files, s)
  | .newFile, s => some (s.nextHandle, { s with nextHandle := s.nextHandle + 1 })
  | .addLinkName h n, s =>
    some ((), { s with linkfiles := Function.update s.linkfiles h (s.linkfiles h ++ [n]) })
  | .eraseLink h n, s =>
    some ((s.linkfiles h).contains n,
      { s with linkfiles := Function.update s.linkfiles h ((s.linkfiles h).erase n) })
  | .getNrLinks h, s => some ((s.linkfiles h).length, s)
  | .getFilename h, s => (s.linkfiles h).head?.map fun n => (n, s)
  | .isSparse h, s => some (s.isSparse h, s)
  | .setSparse h b, s => some ((), { s with isSparse := Function.update s.isSparse h b })
  | .isDeleted h, s => some (s.isDeleted h, s)
  | .markDeleted h, s => some ((), { s with isDeleted := Function.update s.isDeleted h true })
  | .acquireWRLock i h, s =>
    if s.wrLock h = none then
      some ((), { s with wrLock := Function.update s.wrLock h (some i) })
    else none
  | .tryAcquireWRLock i h, s =>
    if s.wrLock h = none then
      some (true, { s with wrLock := Function.update s.wrLock h (some i) })
    else some (false, s)
  | .releaseWRLock i h, s =>
    if s.wrLock h = some i then
      some ((), { s with wrLock := Function.update s.wrLock h none })
    else none
  | .openWriter i h, s => some ((), { s with writers := (i, h) :: s.writers })
  | .closeWriter i h, s => some ((), { s with writers := s.writers.erase (i, h) })
  | .readRecords, s => some (s.recorded, s)
  | .addRecord h, s => some ((), { s with recorded := h :: s.recorded })
  | .removeRecord h, s => some ((), { s with recorded := s.recorded.filter (· ≠ h) })
  | .isRecorded h, s => some (s.isRecorded h, s)
  | .setRecorded h, s =>
    some ((), { s with isRecorded := Function.update s.isRecorded h true })
  | .persistRecord, s => some (e.persist s.persists, { s with persists := s.persists + 1 })
  | .aux r, s => some (e.aux s.auxCalls r, { s with auxCalls := s.auxCalls + 1 })
  | .hang, _ => none

abbrev NameTask := Task Call.Res

def call (o : Call) : NameTask o.Res := op o

def hang {α : Type} : NameTask α := Task.call .hang nofun

def getFile (name : Name) : NameTask (Option Handle) := call (.getFile name)

def listFiles : NameTask Files := call .listFiles

def newFile : NameTask Handle := call .newFile

def eraseLink (h : Handle) (name : Name) : NameTask Bool := call (.eraseLink h name)

def getNrLinks (h : Handle) : NameTask ℕ := call (.getNrLinks h)

def getFilename (h : Handle) : NameTask Unit := do
  let _ ← call (.getFilename h)

def isSparse (h : Handle) : NameTask Bool := call (.isSparse h)

def isDeleted (h : Handle) : NameTask Bool := call (.isDeleted h)

def tryAcquireWRLock (i : ℕ) (h : Handle) : NameTask Bool := call (.tryAcquireWRLock i h)

def readRecords : NameTask (List Handle) := call .readRecords

def isRecorded (h : Handle) : NameTask Bool := call (.isRecorded h)

def persistRecord : NameTask Status := call .persistRecord

def aux (r : AuxRequest) : NameTask Status := call (.aux r)

def withMutex {α : Type} (i : ℕ) (m : Mutex) (body : NameTask α) : NameTask α := do
  call (.lock i m)
  let a ← body
  call (.unlock m)
  return a

def untilFailure {α : Type} (body : α → NameTask Status) : List α → NameTask Status
  | [] => return .OK
  | a :: rest => do
    let s ← body a
    if s.ok then untilFailure body rest else return s

def forAll {α : Type} (body : α → NameTask Unit) : List α → NameTask Unit
  | [] => return ()
  | a :: rest => do
    body a
    forAll body rest

section File

variable (i : ℕ) (h : Handle)

def removeLinkName (name : Name) : NameTask Status := do
  if ← eraseLink h name then return .OK
  else return .IOError "RemoveLinkInfo: Failed to find the link file"

/-- `RenameLink`: the old name is erased before the new one is added. -/
def renameLink (src dest : Name) : NameTask Status := do
  if ← eraseLink h src then
    call (.addLinkName h dest)
    return .OK
  else return .IOError "RenameLink: Failed to find the linked file"

/-- `SyncFileMetadataNoLock`. For a file that has been deleted its name is logged. -/
def syncFileMetadataNoLock : NameTask Status := do
  if ← isDeleted h then
    getFilename h
    return .OK
  else persistRecord

def syncFileMetadata : NameTask Status := withMutex i .files (syncFileMetadataNoLock h)

/-- `ZenFSMetadataWriter::Persist`. The name is logged before the mutex is taken. -/
def persist : NameTask Status := do
  getFilename h
  syncFileMetadata i h

/-- `AddZoneFileRecord`; `listed` says that the file is an SST file whose keys and level are
known. -/
def addZoneFileRecord (listed : Bool) : NameTask Unit :=
  withMutex i .levelwiseFiles (if listed then call (.addRecord h) else return ())

def removeZoneFileRecord : NameTask Unit := withMutex i .levelwiseFiles (call (.removeRecord h))

/-- `CreateOrUpdateRecord`; `leveled` says that the level of the file is known. -/
def createOrUpdateRecord (leveled listed : Bool) : NameTask Unit := do
  if !leveled then return ()
  else
    if ← isRecorded h then removeZoneFileRecord i h
    addZoneFileRecord i h listed
    call (.setRecorded h)

def setDeleted : NameTask Unit := do
  call (.markDeleted h)
  removeZoneFileRecord i h

/-- The run of a placement policy: whether it enters the file to be placed anew, and of which
recorded files it makes a `ZoneFileSnapshot`. -/
structure Survey where
  renews : Bool
  files : List Handle

def matchRecords (p : Survey) : NameTask Unit :=
  withMutex i .levelwiseFiles do
    if p.renews then
      call (.removeRecord h)
      call (.addRecord h)
    let recorded ← readRecords
    forAll getFilename (p.files.filter (· ∈ recorded))

/-- What `AllocateIOZone` or `TakeMigrateZone` comes to: the policies that run, the status,
and whether there is a zone. -/
structure Allocation where
  surveys : List Survey
  status : Status
  found : Bool

def allocateNewZone (a : Allocation) : NameTask Status := do
  forAll (matchRecords i h) a.surveys
  if !a.status.ok then return a.status
  else if !a.found then return .NoSpace "Zone allocation failure\n"
  else persist i h

/-- `BufferedAppend`, `SparseAppend` and `Append`, with the allocations that the data needs. -/
def append (allocations : List Allocation) : NameTask Status :=
  untilFailure (allocateNewZone i h) allocations

def dataSync (buffered : Bool) (allocations : List Allocation) : NameTask Status := do
  if buffered then
    let s ← append i h allocations
    if !s.ok then return s
    else if !(← isSparse h) then persist i h
    else return .OK
  else return .OK

def fsync (buffered : Bool) (allocations : List Allocation) : NameTask Status := do
  let s ← dataSync i h buffered allocations
  if !s.ok then return s
  else if buffered && !(← isSparse h) then return .OK
  else persist i h

/-- What a close meets: the level and the keys of the file, and how `CloseActiveZone` ends. -/
structure Closing where
  leveled : Bool
  listed : Bool
  zone : Status

/-- `CloseWR`. The lock is released before the active zone is closed. -/
def closeWR (c : Closing) : NameTask Status := do
  createOrUpdateRecord i h c.leveled c.listed
  let s ← persist i h
  if !s.ok then return s
  else
    call (.releaseWRLock i h)
    return c.zone

def closeInternal (buffered : Bool) (allocations : List Allocation) (c : Closing) :
    NameTask Status := do
  let s ← dataSync i h buffered allocations
  if !s.ok then return s
  else
    let s ← closeWR i h c
    if !s.ok then return s
    else
      call (.closeWriter i h)
      return s

inductive Action
  | append (allocations : List Allocation)
  | sync (allocations : List Allocation)
  | fsync (allocations : List Allocation)
  | close (allocations : List Allocation) (c : Closing)

/-- The work of a writer. A close that failed may be tried again. -/
def session (buffered : Bool) : List Action → NameTask Unit
  | [] => return ()
  | .append allocations :: rest => do
    let _ ← append i h allocations
    session buffered rest
  | .sync allocations :: rest => do
    let _ ← dataSync i h buffered allocations
    session buffered rest
  | .fsync allocations :: rest => do
    let _ ← fsync i h buffered allocations
    session buffered rest
  | .close allocations c :: rest => do
    let s ← closeInternal i h buffered allocations c
    if s.ok then return () else session buffered rest

end File

section Entries

variable (i : ℕ)

/-- `DeleteFileNoLock`. The file loses its name before the deletion is persisted, and its
record when it is. -/
def deleteFileNoLock (fname : Name) : NameTask Status := do
  match ← getFile fname with
  | none => aux (.deleteFile fname)
  | some h =>
    call (.eraseFile fname)
    let s ← removeLinkName h fname
    if !s.ok then return s
    else
      let s ← persistRecord
      if !s.ok then
        call (.insertFile fname h)
        call (.addLinkName h fname)
        return s
      else if (← getNrLinks h) > 0 then return s
      else
        setDeleted i h
        return s

/-- The part of `LinkFile` under the mutex; without a result the auxiliary file system is
asked. -/
def linkFileNoLock (fname lname : Name) : NameTask (Option Status) := do
  if (← getFile lname).isSome then
    return some (.InvalidArgument "Failed to create link, target exists")
  else
    match ← getFile fname with
    | none => return none
    | some h =>
      call (.addLinkName h lname)
      call (.insertFile lname h)
      let s ← syncFileMetadataNoLock h
      if s.ok then return some s
      else
        let s ← removeLinkName h lname
        if !s.ok then return some s
        else
          call (.eraseFile lname)
          return some s

def linkFile (fname lname : Name) : NameTask Status := do
  match ← withMutex i .files (linkFileNoLock fname lname) with
  | some s => return s
  | none => aux (.linkFile fname lname)

def rollbackAuxDirRename (renameChild : Name → Name → NameTask Status) (source dest : Name)
    (renamed : List Name) : NameTask Status := do
  let s ← untilFailure
    (fun child => renameChild (childPath dest child) (childPath source child)) renamed
  if !s.ok then
    return .Corruption "RollbackAuxDirRenameNoLock: Failed to roll back directory rename"
  else
    let s ← aux (.renameFile dest source)
    if !s.ok then
      return .Corruption
        "RollbackAuxDirRenameNoLock: Failed to roll back auxiliary path renaming"
    else return s

def renameChildren (renameChild : Name → Name → NameTask Status) (source dest : Name) :
    List Name → List Name → NameTask Status
  | _, [] => return .OK
  | renamed, child :: rest => do
    let s ← renameChild (childPath source child) (childPath dest child)
    if s.ok then renameChildren renameChild source dest (renamed ++ [child]) rest
    else
      let r ← rollbackAuxDirRename renameChild source dest renamed
      if !r.ok then return r else return s

def renameAuxPath (renameChild : Name → Name → NameTask Status) (source dest : Name) :
    NameTask Status := do
  let s ← aux (.renameFile source dest)
  if !s.ok then return s
  else
    let children := getChildren source (← listFiles)
    renameChildren renameChild source dest [] children

def renameTo (h : Handle) (source dest : Name) : NameTask Status := do
  let s ← renameLink h source dest
  if !s.ok then return s
  else
    call (.eraseFile source)
    call (.insertFile dest h)
    let s ← syncFileMetadataNoLock h
    if s.ok then return s
    else
      call (.eraseFile dest)
      let s ← renameLink h dest source
      if !s.ok then return s
      else
        call (.insertFile source h)
        return s

/-- `RenameFileNoLock`. It calls itself through `RenameAuxPathNoLock` for the files below a
directory; `depth` bounds how often. -/
def renameFileNoLock : ℕ → Name → Name → NameTask Status
  | 0, _, _ => hang
  | depth + 1, source, dest => do
    match ← getFile source with
    | none => renameAuxPath (renameFileNoLock depth) source dest
    | some h =>
      let s ← (match ← getFile dest with
        | none => return .OK
        | some _ => deleteFileNoLock i dest)
      if !s.ok then return s else renameTo h source dest

def createFileNoLock (fname : Name) (directWrites : Bool) : NameTask (Option Handle) := do
  let h ← newFile
  call (.addLinkName h fname)
  if endsWith fname logSuffix then call (.setSparse h (!directWrites))
  let s ← syncFileMetadataNoLock h
  if !s.ok then return none
  else
    call (.acquireWRLock i h)
    call (.insertFile fname h)
    call (.openWriter i h)
    return some h

def openWritableFileNoLock (fname : Name) (directWrites reopen : Bool) :
    NameTask (Option Handle) := do
  match ← getFile fname with
  | none => createFileNoLock i fname directWrites
  | some h =>
    if reopen then
      call (.acquireWRLock i h)
      call (.openWriter i h)
      return some h
    else
      let s ← deleteFileNoLock i fname
      if !s.ok then return none else createFileNoLock i fname directWrites

/-- `GetZenFSSnapshot` on one file: its own name, and its name for each of its extents. Files
that are open for writing are skipped. -/
def snapshotFile (extents : Handle → ℕ) (entry : Name × Handle) : NameTask Unit := do
  let h := entry.2
  if ← tryAcquireWRLock i h then
    forAll (fun _ => getFilename h) (List.range (extents h + 1))
    call (.releaseWRLock i h)
  else return ()

def getZenFSSnapshot (extents : Handle → ℕ) : NameTask Unit :=
  withMutex i .files do
    forAll (snapshotFile i extents) (← listFiles).toList

/-- The loop of `MigrateFileExtents` over the extents to be moved. It looks for the name
without the mutex, and ends when it is gone. -/
def migrateExtents (fname : Name) (h : Handle) : List Allocation → NameTask Unit
  | [] => return ()
  | a :: rest => do
    forAll (matchRecords i h) a.surveys
    if !a.status.ok || !a.found then migrateExtents fname h rest
    else if (← getFile fname).isNone then return ()
    else migrateExtents fname h rest

def migrateFileExtents (fname : Name) (targets : List Allocation) : NameTask Unit := do
  match ← withMutex i .files (getFile fname) with
  | none => return ()
  | some h =>
    if ← tryAcquireWRLock i h then
      migrateExtents i fname h targets
      let _ ← syncFileMetadata i h
      call (.releaseWRLock i h)
    else return ()

def moveFileToNewLevel (fname : Name) (listed : Bool) : NameTask Unit := do
  match ← withMutex i .files (getFile fname) with
  | none => return ()
  | some h =>
    removeZoneFileRecord i h
    addZoneFileRecord i h listed

end Entries

/-- What a thread may be asked to do. The garbage collector takes a snapshot and migrates
files. -/
inductive Job
  | openWritableFile (fname : Name) (directWrites reopen : Bool) (actions : List Action)
  | deleteFile (fname : Name)
  | linkFile (fname lname : Name)
  | renameFile (depth : ℕ) (source dest : Name)
  | getZenFSSnapshot (extents : Handle → ℕ)
  | migrateFileExtents (fname : Name) (targets : List Allocation)
  | moveFileToNewLevel (fname : Name) (listed : Bool)

def programOf (i : ℕ) : Job → NameTask Unit
  | .openWritableFile fname directWrites reopen actions => do
    match ← withMutex i .files (openWritableFileNoLock i fname directWrites reopen) with
    | none => return ()
    | some h => session i h (endsWith fname sstSuffix || !directWrites) actions
  | .deleteFile fname => do
    let _ ← withMutex i .files (deleteFileNoLock i fname)
  | .linkFile fname lname => do
    let _ ← linkFile i fname lname
  | .renameFile depth source dest => do
    let _ ← withMutex i .files (renameFileNoLock i depth source dest)
  | .getZenFSSnapshot extents => getZenFSSnapshot i extents
  | .migrateFileExtents fname targets => migrateFileExtents i fname targets
  | .moveFileToNewLevel fname listed => moveFileToNewLevel i fname listed

/-- The threads share the names, flags and counters of a file system. -/
structure Shared.Shows (t : Shared) (s : State) : Prop where
  files : t.files = s.cat.files
  nextHandle : t.nextHandle = s.cat.nextHandle
  file : ∀ h f, s.cat.heap h = some f →
    t.linkfiles h = f.linkfiles ∧ t.isSparse h = f.isSparse ∧ t.isDeleted h = f.isDeleted
  persists : t.persists = s.persists
  auxCalls : t.auxCalls = s.auxCalls

/-- `PersistRecord` with all its steps changes nothing that the threads share but their count. -/
theorem Shared.Shows.persistRecord {answers : Answers} {e : Env} {s : State} {t : Shared}
    (ht : t.Shows s) (r : Record)
    (hanswer : answers.persist s.persists = (s.persistRecord e r).1) :
    ∃ u, exec answers .persistRecord t = some ((s.persistRecord e r).1, u) ∧
      u.Shows (s.persistRecord e r).2 := by
  refine ⟨{ t with persists := t.persists + 1 }, ?_, ?_⟩
  · rw [exec, ht.persists, hanswer]
    rfl
  · have hpersists := congrArg (· + 1) ht.persists
    rw [State.persistRecord]
    cases e.persist s.persists with
    | appended => exact ⟨ht.files, ht.nextHandle, ht.file, hpersists, ht.auxCalls⟩
    | failed msg => exact ⟨ht.files, ht.nextHandle, ht.file, hpersists, ht.auxCalls⟩
    | rollFailed msg => exact ⟨ht.files, ht.nextHandle, ht.file, hpersists, ht.auxCalls⟩
    | rolled =>
      refine ⟨ht.files, ht.nextHandle, fun h f hf => ?_, hpersists, ht.auxCalls⟩
      have hf : (if s.cat.Named h then (s.cat.heap h).map ZoneFile.metadataSynced
          else s.cat.heap h) = some f := hf
      split at hf
      · obtain ⟨old, hold, rfl⟩ := Option.map_eq_some_iff.mp hf
        exact ht.file h old hold
      · exact ht.file h f hf
def threads (jobs : ℕ → List Job) (s : Shared) : Pool ℕ Call.Res Shared :=
  ⟨fun i => forAll (programOf i) (jobs i), s⟩

/-- The file is open for writing, or locked against it. -/
def Shared.InUse (s : Shared) (h : Handle) : Prop :=
  s.wrLock h ≠ none ∨ ∃ w ∈ s.writers, w.2 = h

instance (s : Shared) (h : Handle) : Decidable (s.InUse h) :=
  inferInstanceAs (Decidable (_ ∨ _))

def AsksNameless (p : Pool ℕ Call.Res Shared) (i : ℕ) : Prop :=
  ∃ h, (p.tasks i).next = some (.getFilename h) ∧ p.state.linkfiles h = []

end ZenFs.Filenames
