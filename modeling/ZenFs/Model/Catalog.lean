import ZenFs.Model.Types

/-!
The catalog of files and its recovery from the metadata log.

A `shared_ptr<ZoneFile>` is a handle into a heap of file objects, so that several
names can share one file. An object whose last reference goes is destroyed, which
gives the bytes of its extents back to their zones (`ZoneFile::ClearExtents`).
`used` holds the `used_capacity_` of the zones; a counter that would wrap is negative.
-/

namespace ZenFs

open Function

abbrev Handle := ℕ

abbrev Files := Std.ExtTreeMap Name Handle compare

structure Catalog where
  files : Files
  heap : Handle → Option ZoneFile
  nextHandle : Handle
  nextFileId : ℕ
  used : ℕ → ℤ

namespace Catalog

variable (c : Catalog) (h : Handle)

def empty : Catalog := ⟨∅, fun _ => none, 0, 1, fun _ => 0⟩

def Named : Prop := ∃ p ∈ c.files.toList, p.2 = h

instance : Decidable (c.Named h) := inferInstanceAs (Decidable (∃ p ∈ _, _))

def editFile (edit : ZoneFile → ZoneFile) : Catalog :=
  { c with heap := Function.update c.heap h ((c.heap h).map edit) }

def addUsed (l : List ZoneExtent) : Catalog :=
  { c with used := fun z => c.used z + heldIn l z }

def subUsed (l : List ZoneExtent) : Catalog :=
  { c with used := fun z => c.used z - heldIn l z }

/-- `std::make_shared<ZoneFile>`: the new object gets the next handle. -/
def alloc (f : ZoneFile) : Catalog :=
  { c with heap := Function.update c.heap c.nextHandle (some f), nextHandle := c.nextHandle + 1 }

def eraseName (name : Name) : Catalog := { c with files := c.files.erase name }

/-- `files_.insert`, which keeps an entry that is already there. -/
def insertName (name : Name) : Catalog := { c with files := c.files.insertIfNew name h }

def destroy : Catalog :=
  match c.heap h with
  | none => c
  | some f => { c.subUsed f.extents with heap := Function.update c.heap h none }

/-- A reference other than those in `files_` goes out of scope. -/
def release : Catalog := if c.Named h then c else c.destroy h

def clearFiles : Catalog :=
  c.files.toList.foldl (fun d p => d.destroy p.2) { c with files := ∅ }

def bumpFileId (id : ℕ) : Catalog :=
  { c with nextFileId := if id ≥ c.nextFileId then id + 1 else c.nextFileId }

end Catalog

def decodeExtent (g : Geometry) (p : ℕ × ℕ) : Except Status ZoneExtent :=
  match g.getIOZone p.1 with
  | none => .error (.Corruption "ZoneFile: Invalid zone extent")
  | some z => .ok ⟨p.1, p.2, z⟩

def decodeFrom (g : Geometry) (img : FileImage) : Except Status ZoneFile :=
  match img.extents.mapM (decodeExtent g) with
  | .error s => .error s
  | .ok exts =>
    if img.linkfiles.any (·.isEmpty) then
      .error (.Corruption "ZoneFile: Zero length Linkfilename")
    else .ok
      { ZoneFile.new img.fileId with
        fileSize := img.fileSize
        lifetime := img.lifetime
        extents := exts
        nrSyncedExtents := exts.length
        mTime := img.mTime
        extentStart := img.extentStart
        isSparse := img.isSparse
        linkfiles := img.linkfiles }

def ZoneFile.mergeUpdate (f update : ZoneFile) (replace : Bool) : ZoneFile :=
  let exts := (if replace then [] else f.extents) ++ update.extents
  { f with
    fileSize := update.fileSize
    lifetime := update.lifetime
    mTime := update.mTime
    extents := exts
    nrSyncedExtents := exts.length
    extentStart := update.extentStart
    isSparse := update.isSparse
    linkfiles := update.linkfiles }

namespace Catalog

/-- `ZoneFile::MergeUpdate` with its effect on the zone counters. -/
def mergeUpdate (c : Catalog) (h : Handle) (f update : ZoneFile) (replace : Bool) :
    Except Status Catalog :=
  if f.fileId ≠ update.fileId then .error (.Corruption "ZoneFile update: ID missmatch")
  else
    let cleared := if replace then f.extents else []
    .ok (((c.subUsed cleared).addUsed update.extents).editFile h
      fun _ => f.mergeUpdate update replace)

def eraseLinks : List Name → Catalog → Except Status Catalog
  | [], c => .ok c
  | name :: rest, c =>
    if name ∈ c.files then eraseLinks rest (c.eraseName name)
    else .error (.Corruption "DecodeFileUpdateFrom: missing link file")

def insertLinks (c : Catalog) (h : Handle) (names : List Name) : Catalog :=
  names.foldl (fun c name => c.insertName h name) c

def findId (c : Catalog) (id : ℕ) : Option (Handle × ZoneFile) :=
  c.files.toList.findSome? fun p =>
    (c.heap p.2).bind fun f => if f.fileId = id then some (p.2, f) else none

/-- `ZenFS::DecodeFileUpdateFrom`. The object decoded from the record counts its
extents too, until it is destroyed at the end of a merge. -/
def decodeFileUpdateFrom (g : Geometry) (img : FileImage) (replace : Bool) (c : Catalog) :
    Except Status Catalog := do
  let update ← decodeFrom g img
  let c := (c.addUsed update.extents).bumpFileId update.fileId
  match c.findId update.fileId with
  | some (h, f) =>
    let c ← c.eraseLinks f.linkfiles
    let c ← c.mergeUpdate h f update replace
    .ok (((c.subUsed update.extents).insertLinks h update.linkfiles).release h)
  | none =>
    match update.linkfiles with
    -- `GetFilename` of a file without names is undefined; no such file is ever synced
    | [] => .error (.Corruption "ZoneFile: no link name")
    | name :: _ => .ok (((c.alloc update).insertName c.nextHandle name).release c.nextHandle)

/-- `ZenFS::DecodeSnapshotFrom`. A file with several names is in the snapshot once for
each of them; the copies after the first find all names taken and are destroyed. -/
def decodeSnapshotFrom (g : Geometry) : List FileImage → Catalog → Except Status Catalog
  | [], c => .ok c
  | img :: rest, c => do
    let f ← decodeFrom g img
    let c := ((c.addUsed f.extents).bumpFileId f.fileId)
    decodeSnapshotFrom g rest
      (((c.alloc f).insertLinks c.nextHandle f.linkfiles).release c.nextHandle)

def decodeFileDeletionFrom (id : ℕ) (name : Name) (c : Catalog) : Except Status Catalog :=
  match c.files[name]? with
  | none => .error (.Corruption "Zone file deletion: no such file")
  | some h =>
    match c.heap h with
    | none => .error (.Corruption "Zone file deletion: no such file")
    | some f =>
      if f.fileId ≠ id then .error (.Corruption "Zone file deletion: file ID missmatch")
      else
        let (s, f') := f.removeLinkName name
        if s.ok then .ok (((c.eraseName name).editFile h fun _ => f').release h)
        else .error (.Corruption "Zone file deletion: file links missmatch")

/-- The loop of `ZenFS::RecoverFrom`, with whether a snapshot has been seen. -/
def replay (g : Geometry) : List Record → Bool → Catalog → Except Status (Bool × Catalog)
  | [], seen, c => .ok (seen, c)
  | .endRecord :: _, seen, c => .ok (seen, c)
  | .snapshot imgs :: rest, _, c => do
    replay g rest true (← decodeSnapshotFrom g imgs c.clearFiles)
  | .update img :: rest, seen, c => do
    replay g rest seen (← decodeFileUpdateFrom g img false c)
  | .replace img :: rest, seen, c => do
    replay g rest seen (← decodeFileUpdateFrom g img true c)
  | .deletion id name :: rest, seen, c => do
    replay g rest seen (← decodeFileDeletionFrom id name c)

def recoverFrom (g : Geometry) (records : List Record) (c : Catalog) : Status × Catalog :=
  match replay g records false c with
  | .error s => (s, c)
  | .ok (true, c') => (.OK, c')
  | .ok (false, c') => (.NotFound "ZenFS: No snapshot found", c')

end Catalog

end ZenFs
