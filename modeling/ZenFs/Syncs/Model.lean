import ZenFs.Library.Tasks
import ZenFs.Model.Namespace

/-!
Persisting the metadata of a file while its writer adds extents.

The writer appends to `extents_` without `files_mtx_`. Who persists the file holds it, from
before the file is encoded until after `MetadataSynced`, but encodes the extents at one moment
and counts them at a later one. The model follows one file through any number of threads. Of
the other files only their records matter.
-/

namespace ZenFs.Syncs

open Library Task

/-- The file after the replay of a record. A name that is deleted is not the last one of the
file, so the file stays. -/
def replayRecord (g : Geometry) (id : ℕ) (r : Record) (f : Option ZoneFile) :
    Except Status (Option ZoneFile) :=
  let merge (img : FileImage) (replace : Bool) : Except Status (Option ZoneFile) :=
    if img.fileId = id then
      (decodeFrom g img).map fun u => match f with
        | none => some u
        | some f => some (f.mergeUpdate u replace)
    else .ok f
  match r with
  | .snapshot imgs =>
    -- of the images for several names, the first one makes the file
    match imgs.find? (·.fileId = id) with
    | none => .ok none
    | some img => (decodeFrom g img).map some
  | .update img => merge img false
  | .replace img => merge img true
  | .deletion id' name =>
    .ok (if id' = id then f.map fun f => { f with linkfiles := f.linkfiles.erase name } else f)
  | .endRecord => .ok f

def recoverFile (g : Geometry) (id : ℕ) :
    List Record → Option ZoneFile → Except Status (Option ZoneFile)
  | [], f => .ok f
  | .endRecord :: _, f => .ok f
  | r :: rest, f => (replayRecord g id r f).bind (recoverFile g id rest)

theorem recoverFile_cons {g : Geometry} {id : ℕ} {r : Record} (hr : r ≠ .endRecord)
    (rest : List Record) (f : Option ZoneFile) :
    recoverFile g id (r :: rest) f = (replayRecord g id r f).bind (recoverFile g id rest) := by
  cases r with
  | endRecord => exact absurd rfl hr
  | _ => rfl

inductive Append
  | written
  | noSpace
  | failed (msg : String)
  deriving DecidableEq

/-- `listing n` stands for the entries of `files_` at the `n`-th snapshot: `none` for a name
of the file, and the image of the file for any other name. -/
structure Env where
  geometry : Geometry
  fileId : ℕ
  append : ℕ → Append
  listing : ℕ → List (Option FileImage)
  clock : ℕ → ℕ
  listed : ∀ n, none ∈ listing n
  others : ∀ n img, some img ∈ listing n → img.fileId ≠ fileId

structure Shared where
  /-- The thread that holds `files_mtx_`. -/
  holder : Option ℕ
  file : ZoneFile
  /-- The records of the metadata zone that a mount recovers from. -/
  log : List Record
  /-- A roll has failed, and records go to a zone without a snapshot. -/
  detached : Bool
  /-- Not part of the source: the holder of `files_mtx_` has encoded the file. -/
  encoded : Bool
  appends : ℕ
  listings : ℕ
  clockReads : ℕ

inductive Call
  | lock (me : ℕ)
  | unlock
  | isDeleted
  | setFileModificationTime
  /-- `EncodeTo`, from the extents not synced yet or from the first one on. -/
  | encodeTo (snapshot : Bool)
  /-- The entries of `files_`. -/
  | listing
  | addRecord (r : Record)
  /-- `AddRecord` of the snapshot of a roll. -/
  | addSnapshot (files : List FileImage)
  | metadataSynced
  | addLinkName (name : Name)
  | removeLinkName (name : Name)
  | renameLink (source dest : Name)
  | pushExtent (x : ZoneExtent) (start size : ℕ)

def Call.Res : Call → Type
  | isDeleted => Bool
  | encodeTo _ => FileImage
  | listing => List (Option FileImage)
  | addRecord _ => Status
  | addSnapshot _ => Status
  | removeLinkName _ => Status
  | renameLink _ _ => Status
  | _ => Unit

namespace Shared

variable (s : Shared)

def setFile (f : ZoneFile) : Shared := { s with file := f }

def pushExtent (x : ZoneExtent) (start size : ℕ) : Shared :=
  s.setFile { s.file with
    extents := s.file.extents ++ [x], extentStart := some start, fileSize := size }

/-- The end of an `AddRecord`, with what it does if the record is written and if not. -/
def appended (e : Env) (written failed : Shared → Shared) : Status × Shared :=
  let t := { s with appends := s.appends + 1 }
  match e.append s.appends with
  | .written => (.OK, written t)
  | .noSpace => (.NoSpace "Not enough capacity for append", failed t)
  | .failed msg => (.IOError msg, failed t)

/-- After a failed roll a record is not found by a mount. -/
def addToLog (r : Record) : Shared := if s.detached then s else { s with log := s.log ++ [r] }

end Shared

/-- Execute a call. There is no result while a mutex is held by another thread. -/
def exec (e : Env) : (o : Call) → Shared → Option (o.Res × Shared)
  | .lock me, s => if s.holder = none then some ((), { s with holder := some me }) else none
  | .unlock, s => some ((), { s with holder := none, encoded := false })
  | .isDeleted, s => some (s.file.isDeleted, s)
  | .setFileModificationTime, s =>
    some ((), { s.setFile { s.file with mTime := e.clock s.clockReads } with
      clockReads := s.clockReads + 1 })
  | .encodeTo snapshot, s =>
    some (if snapshot then s.file.encodeSnapshotTo else s.file.encodeUpdateTo,
      { s with encoded := true })
  | .listing, s => some (e.listing s.listings, { s with listings := s.listings + 1 })
  | .addRecord r, s => some (s.appended e (·.addToLog r) id)
  | .addSnapshot files, s =>
    some (s.appended e ({ · with log := [.snapshot files], detached := false })
      ({ · with detached := true }))
  | .metadataSynced, s => some ((), s.setFile s.file.metadataSynced)
  | .addLinkName n, s => some ((), s.setFile (s.file.addLinkName n))
  | .removeLinkName n, s =>
    some ((s.file.removeLinkName n).1, s.setFile (s.file.removeLinkName n).2)
  | .renameLink source dest, s =>
    some ((s.file.renameLink source dest).1, s.setFile (s.file.renameLink source dest).2)
  | .pushExtent x start size, s => some ((), s.pushExtent x start size)

abbrev SyncTask := Task Call.Res

def call (o : Call) : SyncTask o.Res := op o

def isDeleted : SyncTask Bool := call .isDeleted

def encodeTo (snapshot : Bool) : SyncTask FileImage := call (.encodeTo snapshot)

def listing : SyncTask (List (Option FileImage)) := call .listing

def addRecord (r : Record) : SyncTask Status := call (.addRecord r)

def addSnapshot (files : List FileImage) : SyncTask Status := call (.addSnapshot files)

def removeLinkName (name : Name) : SyncTask Status := call (.removeLinkName name)

def renameLink (source dest : Name) : SyncTask Status := call (.renameLink source dest)

def encodeSnapshotTo : List (Option FileImage) → SyncTask (List FileImage)
  | [] => return []
  | none :: rest => do
    let img ← encodeTo true
    let imgs ← encodeSnapshotTo rest
    return img :: imgs
  | some img :: rest => do
    let imgs ← encodeSnapshotTo rest
    return img :: imgs

def allMetadataSynced : List (Option FileImage) → SyncTask Unit
  | [] => return ()
  | none :: rest => do
    call .metadataSynced
    allMetadataSynced rest
  | some _ :: rest => allMetadataSynced rest

/-- `RollMetaZoneLocked`, which ends with `WriteSnapshotLocked` on the new zone. -/
def rollMetaZoneLocked : SyncTask Status := do
  let names ← listing
  let files ← encodeSnapshotTo names
  let s ← addSnapshot files
  if s.ok then
    allMetadataSynced names
    return s
  else return s

def persistRecord (r : Record) : SyncTask Status := do
  let s ← addRecord r
  if s.isNoSpace then rollMetaZoneLocked else return s

/-- The steps of a roll, of which only the snapshot concerns the file. That the roll fails before
stands for the failure of the snapshot. -/
def rollSteps : RollSteps SyncTask Unit Unit where
  allocateMetaZone := return (.OK, some ())
  swap _ := return ()
  writeEndRecord _ := return ()
  finish _ := return ()
  addSuperblock _ := return .OK
  writeSnapshotLocked _ := rollMetaZoneLocked
  reset _ := return .OK
  release _ := return ()

/-- `PersistRecord` for one file follows the order of the steps. -/
theorem persistRecord_eq (r : Record) : persistRecord r =
    rollSteps.persistRecord (addRecord r) := by
  have hroll : rollMetaZoneLocked = rollSteps.rollMetaZoneLocked := by
    simp [RollSteps.rollMetaZoneLocked, RollSteps.writeRoll, rollSteps, -pure_eq]
  rw [persistRecord, RollSteps.persistRecord, hroll]

def syncFileMetadataNoLock : SyncTask Status := do
  if ← isDeleted then return .OK
  else
    call .setFileModificationTime
    let img ← encodeTo false
    let s ← persistRecord (.update img)
    if s.ok then
      call .metadataSynced
      return s
    else return s

def linkFileNoLock (link : Name) : SyncTask Status := do
  call (.addLinkName link)
  let s ← syncFileMetadataNoLock
  if s.ok then return s else removeLinkName link

/-- The deletion of the file that has the destination of a rename as a name, if there is one. -/
def deleteExisting : Option (ℕ × Name) → SyncTask Status
  | none => return .OK
  | some (id, name) => persistRecord (.deletion id name)

def renameFileNoLock (existing : Option (ℕ × Name)) (source dest : Name) : SyncTask Status := do
  let s ← deleteExisting existing
  if !s.ok then return s
  else
    let s ← renameLink source dest
    if !s.ok then return s
    else
      let s ← syncFileMetadataNoLock
      if s.ok then return s else renameLink dest source

def withFilesMtx (me : ℕ) (body : SyncTask Status) : SyncTask Unit := do
  call (.lock me)
  let _ ← body
  call .unlock

inductive Job
  /-- The writer adds an extent. -/
  | pushExtent (x : ZoneExtent) (start size : ℕ)
  /-- The writer or another thread persists the file. -/
  | syncFileMetadata
  | linkFile (link : Name)
  | renameFile (existing : Option (ℕ × Name)) (source dest : Name)
  /-- A record of another file, which may make the log roll. -/
  | persistOther (r : Record)

def programOfJob (me : ℕ) : Job → SyncTask Unit
  | .pushExtent x start size => call (.pushExtent x start size)
  | .syncFileMetadata => withFilesMtx me syncFileMetadataNoLock
  | .linkFile link => withFilesMtx me (linkFileNoLock link)
  | .renameFile existing source dest =>
    withFilesMtx me (renameFileNoLock existing source dest)
  | .persistOther r => withFilesMtx me (persistRecord r)

def programOfJobs (me : ℕ) : List Job → SyncTask Unit
  | [] => return ()
  | job :: rest => do
    programOfJob me job
    programOfJobs me rest

def threads (jobs : ℕ → List Job) (s : Shared) : Pool ℕ Call.Res Shared where
  tasks i := programOfJobs i (jobs i)
  state := s

/-- The replay of the log has at least the extents that count as synced. -/
def Contains (e : Env) (s : Shared) : Prop :=
  ∃ u, recoverFile e.geometry e.fileId s.log none = .ok (some u) ∧
    s.file.extents.take s.file.nrSyncedExtents <+: u.extents

instance (e : Env) (s : Shared) : Decidable (Contains e s) :=
  match h : recoverFile e.geometry e.fileId s.log none with
  | .ok (some u) =>
    decidable_of_iff (s.file.extents.take s.file.nrSyncedExtents <+: u.extents)
      ⟨fun hp => ⟨u, h, hp⟩, by
        rintro ⟨v, hv, hp⟩
        cases h.symm.trans hv
        exact hp⟩
  | .ok none => isFalse fun ⟨_, hv, _⟩ => nomatch h.symm.trans hv
  | .error _ => isFalse fun ⟨_, hv, _⟩ => nomatch h.symm.trans hv

end ZenFs.Syncs
