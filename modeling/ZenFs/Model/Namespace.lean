import ZenFs.Model.State

/-!
The metadata operations of the file system: persisting records, creating, deleting,
renaming and linking files, and renaming directories of the auxiliary file system.

Each operation publishes the state after every change of the metadata log, together
with the changes in memory that belong to it.
-/

namespace ZenFs

open Library

def Catalog.encodeSnapshotTo (c : Catalog) : Record :=
  .snapshot (c.files.toList.filterMap fun p => (c.heap p.2).map ZoneFile.encodeSnapshotTo)

def Catalog.metadataSynced (c : Catalog) : Catalog :=
  { c with heap := fun h =>
      if c.Named h then (c.heap h).map ZoneFile.metadataSynced else c.heap h }

def Record.ofFile (replace : Bool) (img : FileImage) : Record :=
  if replace then .replace img else .update img

namespace State

variable (e : Env) (s : State)

def addRecord (r : Record) : State :=
  { s with log := { s.log with records := s.log.records ++ [r] } }

/-- A `RollMetaZoneLocked` that fails after the new zone has become the current one. -/
def failedRoll : State := { s with log := ⟨[], s.log.durable⟩ }

/-- `ZenFS::RollMetaZoneLocked`: the new zone starts with a snapshot, and the old zone
is reset once the snapshot is written. -/
def rollMetaZoneLocked : State :=
  { s with log := ⟨[s.cat.encodeSnapshotTo], []⟩, cat := s.cat.metadataSynced }

def persistRecord (r : Record) : Status × State :=
  let t := { s with persists := s.persists + 1 }
  match e.persist s.persists with
  | .appended => (.OK, t.addRecord r)
  | .rolled => (.OK, t.rollMetaZoneLocked)
  | .failed msg => (.IOError msg, t)
  | .rollFailed msg => (.IOError msg, t.failedRoll)

def addStep (o : PersistOutcome) (r : Record) : StateM State Status := fun s =>
  match o with
  | .appended => (.OK, s.addRecord r)
  | _ => (.NoSpace "Not enough capacity for append", s)

def rollSteps (o : PersistOutcome) : RollSteps (StateM State) Unit Unit where
  allocateMetaZone :=
    match o with
    | .failed msg => return (.IOError msg, none)
    | _ => return (.OK, some ())
  swap _ := modify failedRoll
  writeEndRecord _ := return ()
  finish _ := return ()
  addSuperblock _ := return .OK
  writeSnapshotLocked _ := fun s =>
    match o with
    | .rollFailed msg => (.IOError msg, s)
    | _ => (.OK, { s with
        log := ⟨[s.cat.encodeSnapshotTo], s.log.previous⟩, cat := s.cat.metadataSynced })
  reset _ := fun s => (.OK, { s with log := ⟨s.log.records, []⟩ })
  release _ := return ()

/-- `PersistRecord` on the state of the file system follows the order of the steps. -/
theorem persistRecord_eq (r : Record) : s.persistRecord e r =
    ((rollSteps (e.persist s.persists)).persistRecord (addStep (e.persist s.persists) r)).run
      { s with persists := s.persists + 1 } := by
  cases hend : e.persist s.persists with
  | appended =>
    rw [persistRecord, hend]
    rfl
  | rolled =>
    rw [persistRecord, hend]
    rfl
  | failed msg =>
    rw [persistRecord, hend]
    rfl
  | rollFailed msg =>
    rw [persistRecord, hend]
    rfl

def auxCall (r : AuxRequest) : Status × State :=
  (e.aux s.auxCalls r, { s with auxCalls := s.auxCalls + 1 })

def editFile (h : Handle) (edit : ZoneFile → ZoneFile) : State := s.onCat (·.editFile h edit)

def touch (h : Handle) : State :=
  { s.editFile h ({ · with mTime := e.clock s.clockReads }) with
    clockReads := s.clockReads + 1 }

/-- Run a member function of the file at `h` that changes it and returns a status. -/
def callFile (h : Handle) (f : ZoneFile → Status × ZoneFile) : Status × State :=
  match s.cat.heap h with
  | none => (.OK, s)
  | some file => ((f file).1, s.editFile h fun _ => (f file).2)

/-- A local `shared_ptr` to the file goes out of scope. An open writer keeps the file. -/
def release (h : Handle) : State :=
  if (s.writers h).isSome then s else s.onCat (·.release h)

def syncFileMetadata (h : Handle) (replace : Bool) : Status × State :=
  match s.cat.heap h with
  | none => (.OK, s)
  | some file =>
    if file.isDeleted then (.OK, s)
    else
      let now := e.clock s.clockReads
      let file := if replace then file else { file with mTime := now }
      let t := if replace then s else s.touch e h
      let img := file.encodeUpdateTo
      let (st, t) := t.persistRecord e (.ofFile replace img)
      (st, if st.ok then t.editFile h ZoneFile.metadataSynced else t)

/-- The old extents of which `SyncFileExtents` returns the space: those that moved. -/
def movedExtents (old new : List ZoneExtent) : List ZoneExtent :=
  ((old.zip new).filter fun p => p.1.start ≠ p.2.start).map (·.1)

/-- `ZenFS::SyncFileExtents`. The counters of the zones left are decreased only after the
new extents have been persisted. -/
def syncFileExtents (h : Handle) (newExtents : List ZoneExtent) : Status × State :=
  match s.cat.heap h with
  | none => (.OK, s)
  | some file =>
    let t := s.editFile h fun f => ({ f with extents := newExtents }).metadataUnsynced
    let (st, t) := t.syncFileMetadata e h true
    if !st.ok then (st, t)
    else (.OK, t.onCat (·.subUsed (movedExtents file.extents newExtents)))

/-- `ZenFS::DeleteFileNoLock`. The caller releases its reference to the file. -/
def deleteFileNoLock (fname : Name) : Status × State :=
  match s.getFile fname with
  | none => s.auxCall e (.deleteFile fname)
  | some h =>
    let (st, t) := (s.onCat (·.eraseName fname)).callFile h (·.removeLinkName fname)
    if !st.ok then (st, t)
    else
      let id := ((t.cat.heap h).map (·.fileId)).getD 0
      let (st, t) := t.persistRecord e (.deletion id fname)
      if st.ok then
        -- without names the file is marked, so that it is no longer migrated or synced
        (st, t.editFile h ZoneFile.markDeleted)
      else (st, (t.onCat (·.insertName h fname)).editFile h (·.addLinkName fname))

/-- `ZenFS::LinkFile`. The error of a failed sync is overwritten by the rollback. -/
def linkFile (file link : Name) : Status × State :=
  match s.getFile link with
  | some _ => (.InvalidArgument "Failed to create link, target exists", s)
  | none =>
    match s.getFile file with
    | none => s.auxCall e (.linkFile file link)
    | some h =>
      let t := (s.editFile h (·.addLinkName link)).onCat (·.insertName h link)
      let (st, t) := t.syncFileMetadata e h false
      if st.ok then (st, t)
      else
        let (st, t) := t.callFile h (·.removeLinkName link)
        if !st.ok then (st, t) else (st, t.onCat (·.eraseName link))

/-- The first step of `RenameFileNoLock` for a file: an existing destination goes. -/
def deleteExisting (dest : Name) : Status × State :=
  match s.getFile dest with
  | none => (.OK, s)
  | some _ => s.deleteFileNoLock e dest

/-- The rest of `RenameFileNoLock` for a file. A failed sync is rolled back, and the
status returned is that of the rollback. -/
def renameTo (h : Handle) (source dest : Name) : Status × State :=
  let (st, t) := s.callFile h (·.renameLink source dest)
  if !st.ok then (st, t)
  else
    let t := (t.onCat (·.eraseName source)).onCat (·.insertName h dest)
    let (st, t) := t.syncFileMetadata e h false
    if st.ok then (st, t)
    else
      let (st, t) := (t.onCat (·.eraseName dest)).callFile h (·.renameLink dest source)
      if !st.ok then (st, t) else (st, t.onCat (·.insertName h source))

end State

def publish (f : State → Status × State) : FsProg Status := do
  let st ← Prog.act f
  Prog.emit
  return st

def orReturn (m : FsProg Status) (rest : FsProg Status) : FsProg Status := do
  let st ← m
  if st.ok then rest else return st

/-- Hold a reference to a file during a call. -/
def holding (h : Option Handle) (m : FsProg Status) : FsProg Status := do
  let st ← m
  match h with
  | none => return st
  | some h => do
    Prog.modify (State.release · h)
    Prog.emit
    return st

variable (e : Env)

def deleteFile (fname : Name) : FsProg Status := do
  let h ← Prog.read (·.getFile fname)
  orReturn (holding h (publish (State.deleteFileNoLock e · fname)))
    (resetUnusedIOZones e)

def linkFile (file link : Name) : FsProg Status := publish (State.linkFile e · file link)

/-- `ZenFS::GetZenFSChildrenNoLock` with grandchildren: the paths of all files below
`dir`, relative to it. -/
def getChildren (dir : Name) (files : Files) : List Name :=
  files.toList.filterMap fun p =>
    -- the path up to its last separator
    let fileDir := (p.1.reverse.dropWhile (· ≠ separator)).reverse
    if withSeparator dir <+: fileDir then some (p.1.drop (withSeparator dir).length) else none

def childPath (dir child : Name) : Name := withSeparator dir ++ child

def rollbackAuxDirRename (renameChild : Name → Name → FsProg Status) (source dest : Name)
    (renamed : List Name) : FsProg Status := do
  let st ← forEach
    (fun child => renameChild (childPath dest child) (childPath source child)) renamed
  if st.ok then do
    let st ← publish (State.auxCall e · (.renameFile dest source))
    return if st.ok then st else .Corruption
      "RollbackAuxDirRenameNoLock: Failed to roll back auxiliary path renaming"
  else return (.Corruption
    "RollbackAuxDirRenameNoLock: Failed to roll back directory rename")

def renameChildren (renameChild : Name → Name → FsProg Status) (source dest : Name) :
    List Name → List Name → FsProg Status
  | _, [] => pure .OK
  | renamed, child :: rest => do
    let st ← renameChild (childPath source child) (childPath dest child)
    if st.ok then renameChildren renameChild source dest (renamed ++ [child]) rest
    else orReturn (rollbackAuxDirRename e renameChild source dest renamed) (return st)

def renameAuxPath (renameChild : Name → Name → FsProg Status) (source dest : Name) :
    FsProg Status :=
  orReturn (publish (State.auxCall e · (.renameFile source dest))) do
    let children ← Prog.read fun s => getChildren source s.cat.files
    renameChildren e renameChild source dest [] children

/-- `ZenFS::RenameFileNoLock`. It calls itself through `RenameAuxPathNoLock` for the files
below a directory; `depth` bounds how often. -/
def renameFileNoLock : ℕ → Name → Name → FsProg Status
  | 0, _, _ => Prog.stuck
  | depth + 1, source, dest => do
    match ← Prog.read (·.getFile source) with
    | none => renameAuxPath e (renameFileNoLock depth) source dest
    | some h => do
      let existing ← Prog.read (·.getFile dest)
      holding (some h) (holding existing
        (orReturn (publish (State.deleteExisting e · dest))
          (publish (State.renameTo e · h source dest))))

def renameFile (depth : ℕ) (source dest : Name) : FsProg Status :=
  orReturn (renameFileNoLock e depth source dest) (resetUnusedIOZones e)

def endsWith (value ending : Name) : Bool := ending.isSuffixOf value

def logSuffix : Name := [46, 108, 111, 103]
def sstSuffix : Name := [46, 115, 115, 116]

/-- `buffer_sz` of a `ZonedWritableFile`: a sparse buffer leaves room for the header. -/
def bufferSize (e : Env) (sparse : Bool) : ℕ :=
  if sparse then e.bufferMegabytes * 1024 * 1024 - sparseHeaderSize
  else e.bufferMegabytes * 1024 * 1024

def newWriter (e : Env) (fname : Name) (directWrites : Bool) (f : ZoneFile) : Writer where
  buffered := endsWith fname sstSuffix || !directWrites
  bufferSz := bufferSize e f.isSparse
  buffer := []
  wp := f.fileSize

def newZoneFile (id now : ℕ) (fname : Name) (directWrites : Bool) : ZoneFile :=
  let f := { ZoneFile.new id with mTime := now, linkfiles := [fname] }
  if endsWith fname logSuffix then { f with ioType := .wal, isSparse := !directWrites }
  else if endsWith fname sstSuffix then { f with ioType := .data }
  else { f with ioType := .unknown }

namespace State

/-- `AcquireWRLock` and the new `ZonedWritableFile` on an existing file. -/
def openWriter (e : Env) (s : State) (h : Handle) (fname : Name) (directWrites : Bool) : State :=
  match s.cat.heap h with
  | none => s
  | some f =>
    { s.editFile h ({ · with openForWr := true }) with
      writers := Function.update s.writers h (some (newWriter e fname directWrites f)) }

def allocFile (e : Env) (s : State) (fname : Name) (directWrites : Bool) : State :=
  { s with
    cat := { s.cat.alloc
        (newZoneFile s.cat.nextFileId (e.clock s.clockReads) fname directWrites) with
      nextFileId := s.cat.nextFileId + 1 }
    clockReads := s.clockReads + 1 }

/-- The part of `OpenWritableFile` that makes a new file. The file enters `files_` only
after its creation has been persisted. -/
def createFile (e : Env) (s : State) (fname : Name) (directWrites : Bool) : Status × State :=
  let h := s.cat.nextHandle
  let (st, t) := (s.allocFile e fname directWrites).syncFileMetadata e h false
  if !st.ok then (st, t.onCat (·.destroy h))
  else (st, (t.onCat (·.insertName h fname)).openWriter e h fname directWrites)

end State

def openWritableFile (e : Env) (fname : Name) (directWrites reopen : Bool) : FsProg Status := do
  match ← Prog.read (·.getFile fname) with
  | some h =>
    if reopen then do
      if (← Prog.read fun s => (s.writers h).isSome) then Prog.stuck
      else publish fun s => (.OK, s.openWriter e h fname directWrites)
    else
      orReturn (holding (some h) (publish (State.deleteFileNoLock e · fname)))
        (orReturn (publish (State.createFile e · fname directWrites))
          (resetUnusedIOZones e))
  | none => publish (State.createFile e · fname directWrites)

end ZenFs
