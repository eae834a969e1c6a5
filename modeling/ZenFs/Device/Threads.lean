import ZenFs.Device.Runs

/-!
Threads that open, write, move, migrate and delete files on one device.

A thread takes one job after the other. Each job is the program of an entry point of the
file system, from its look-up of the name to the moment it lets go of the file object.
-/

namespace ZenFs.Device

open Library

inductive Job
  /-- Create a file, in the place of an old one if there is one, write it and close it. -/
  | newWritableFile (old : Option Handle) (h : Handle) (ioType : IOType) (sparse : Bool)
      (actions : List Operation)
  /-- Open an existing file once more, write it and close it. -/
  | reopenWritableFile (h : Handle) (actions : List Operation)
  | moveFileToNewLevel (h : Handle) (level : ℤ)
  | migrateFileExtents (h : Handle) (selected : List (ℕ × ℕ))
  | deleteFile (h : Handle)
  | resetUnusedIOZones

/-- The operation is one that the writer of the file makes between opening and closing. -/
def Operation.ofWriter (h : Handle) : Operation → Bool
  | .setWriteLifeTimeHint g _ => g = h
  | .setLevel g _ => g = h
  | .updateInternalKeys g _ => g = h
  | .updateInternalKeysRange g _ _ => g = h
  | .updateMetadata g _ _ _ _ _ _ => g = h
  | .bufferedAppend g _ => g = h
  | .sparseAppend g _ => g = h
  | .append g _ => g = h
  | .pushExtent g => g = h
  | .persistMetadata g => g = h
  | _ => false

variable (e : Setup) (i : ℕ) (spins : ℕ) (h : Handle)

/-- Let go of the `shared_ptr`; the destructor runs with the last one. -/
def letGo : DevTask Unit := do
  if ← dropFile i h then clearExtents h else return ()

/-- What the writer of a file does. `CloseInternal` may be tried again after a failure;
other calls are not made by a writer. -/
def session : List Operation → DevTask Unit
  | [] => return ()
  | .closeWR _ :: rest => do
    let s ← closeWR e (.thread i) h
    if s.ok then return () else session rest
  | o :: rest => do
    if o.ofWriter h then programOf e (.thread i) spins o
    session rest

def deleteFileNoLock : DevTask Status := do
  if !(← getFile i h) then return .OK
  else
    call (.removeLink h)
    let s ← persistRecord e (.thread i)
    if !s.ok then
      call (.addLink h)
      letGo i h
      return s
    else if (← look).links h > 0 then
      letGo i h
      return s
    else
      setDeleted h
      letGo i h
      return s

def createFileNoLock (ioType : IOType) (sparse : Bool) : DevTask Bool := do
  call (.newFile i h)
  onInfo h ({ · with ioType := ioType })
  call (.body h ({ · with isSparse := sparse }))
  let s ← persistRecord e (.thread i)
  if !s.ok then
    letGo i h
    return false
  else
    call (.acquireWRLock h)
    call (.addLink h)
    return true

def getFileLocked : DevTask Bool := do
  call (.lock .files)
  let found ← getFile i h
  call (.unlock .files)
  return found

def programOfJob : Job → DevTask Unit
  | .newWritableFile old h ioType sparse actions => do
    call (.lock .files)
    let s ← (match old with
      | none => pure .OK
      | some g => deleteFileNoLock e i g)
    let opened ← (if s.ok then createFileNoLock e i h ioType sparse else pure false)
    call (.unlock .files)
    if opened then
      if old.isSome then ignore <| resetUnusedIOZones e (.thread i)
      session e i spins h actions
      letGo i h
  | .reopenWritableFile h actions => do
    call (.lock .files)
    if ← getFile i h then
      call (.acquireWRLock h)
      call (.unlock .files)
      session e i spins h actions
      letGo i h
    else call (.unlock .files)
  | .moveFileToNewLevel h level => do
    -- a file that is not found is followed all the same
    if ← getFileLocked i h then
      moveFileToNewLevel e h level
      letGo i h
    else hang
  | .migrateFileExtents h selected => do
    if ← getFileLocked i h then
      ignore <| migrateFileExtents e (.thread i) h selected
      letGo i h
  | .deleteFile h => do
    call (.lock .files)
    let s ← deleteFileNoLock e i h
    call (.unlock .files)
    if s.ok then ignore <| resetUnusedIOZones e (.thread i)
  | .resetUnusedIOZones => ignore <| resetUnusedIOZones e (.thread i)

/-- A thread takes its jobs one after the other; each comes with the bound on its loops. -/
def thread : List (Job × ℕ) → DevTask Unit
  | [] => return ()
  | (j, spins) :: rest => do
    programOfJob e i spins j
    thread rest

def threads (jobs : ℕ → List (Job × ℕ)) (d : Zbd) : Pool ℕ Call.Res Zbd :=
  ⟨fun i => thread e i (jobs i), d⟩

end ZenFs.Device
