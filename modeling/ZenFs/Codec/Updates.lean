import ZenFs.Codec.Files
import ZenFs.Namespace.Recovery

/-!
A file kept up to date by its incremental records.

The first record of a file holds all its extents, each later one only those that came since.
Merging the later ones onto the first gives the file that the record of the whole last state
gives, and the zones are charged the same.
-/

namespace ZenFs.Codec

open Library.Coding List

variable {blocks blocks' synced : ℕ} {n : Name} {names names' : List Name}

def snapshotBytes (f : ZoneFile) : Bytes := encodeImage f.encodeSnapshotTo

def updateBytes (f : ZoneFile) : Bytes := encodeImage f.encodeUpdateTo

/-- A new object and `DecodeFrom`, which charges the extents to their zones. -/
def loadFile (g : Geometry) (input : Bytes) (c : Catalog) : Except Status Catalog :=
  match decodeFile g input with
  | .error s => .error s
  | .ok f => .ok ((c.addUsed f.extents).alloc f)

/-- `DecodeFrom` into a temporary object, `MergeUpdate` of the file at `h` with it, and the end
of the temporary, which gives back what it was charged. -/
def mergeFile (g : Geometry) (h : Handle) (input : Bytes) (c : Catalog) : Except Status Catalog :=
  match decodeFile g input, c.heap h with
  | .error s, _ => .error s
  | .ok _, none => .ok c
  | .ok update, some f =>
    match (c.addUsed update.extents).mergeUpdate h f update false with
    | .error s => .error s
    | .ok c => .ok (c.subUsed update.extents)

def mergeFiles (g : Geometry) (h : Handle) : List Bytes → Catalog → Except Status Catalog
  | [], c => .ok c
  | input :: rest, c =>
    match mergeFile g h input c with
    | .error s => .error s
    | .ok c => mergeFiles g h rest c

def replayFile (g : Geometry) (first : Bytes) (updates : List Bytes) (c : Catalog) :
    Except Status Catalog :=
  match loadFile g first c with
  | .error s => .error s
  | .ok d => mergeFiles g c.nextHandle updates d

/-- A state a file can be in: its members hold values of their types, and it is one that
`DecodeFrom` has nothing against. -/
structure FileState (g : Geometry) (f : ZoneFile) : Prop where
  fileId : f.fileId < 256 ^ 8
  fileSize : f.fileSize < 256 ^ 8
  mTime : f.mTime < 256 ^ 8
  widths : ∀ x ∈ f.extents, ExtentFits (x.start, x.length)
  extentStart : ∀ start, f.extentStart = some start → start < noExtent
  encodable : Encodable g f

/-- The file has grown since it was last persisted: extents have been added, and everything
else but its id may have changed. -/
structure Grown (f f' : ZoneFile) : Prop where
  fileId : f'.fileId = f.fileId
  extents : f.extents <+: f'.extents
  synced : f'.nrSyncedExtents = f.extents.length

/-- What the 32 bits of a length prefix and of the extent index can count. -/
structure Countable (f : ZoneFile) : Prop where
  names : ∀ n ∈ f.linkfiles, n.length < 2 ^ 32
  extents : f.extents.length < 2 ^ 32

variable {g : Geometry} {f f' : ZoneFile}

theorem FileState.imageFitsWidth (hf : FileState g f) (k : ℕ) : ImageFitsWidth (f.encodeTo k) where
  fileId := hf.fileId
  fileSize := hf.fileSize
  mTime := hf.mTime
  extents p hp := by
    obtain ⟨x, hx, rfl⟩ := mem_map.mp hp
    exact hf.widths x (mem_of_mem_drop hx)
  extentStart := hf.extentStart

theorem FileState.decodeFile (hf : FileState g f) (hc : Countable f) (k : ℕ) :
    decodeFile g (encodeImage (f.encodeTo k)) = .ok (f.redecoded k) := by
  rw [decodeFile_encodeImage g (hf.imageFitsWidth k) hc.names]
  exact decodeFrom_encodeTo hf.encodable k

/-- The catalog with the file in it, decoded from the record of its whole state. -/
def loaded (c : Catalog) (f : ZoneFile) : Catalog :=
  (c.addUsed f.extents).alloc (f.redecoded 0)

theorem loadFile_snapshotBytes (hf : FileState g f) (hc : Countable f) (c : Catalog) :
    loadFile g (snapshotBytes f) c = .ok (loaded c f) := by
  rw [loadFile, snapshotBytes, ZoneFile.encodeSnapshotTo, hf.decodeFile hc 0]
  rfl

theorem redecoded_mergeUpdate (hgrown : Grown f f') :
    (f.redecoded 0).mergeUpdate (f'.redecoded f.extents.length) false = f'.redecoded 0 := by
  obtain ⟨more, hmore⟩ := hgrown.extents
  simp [ZoneFile.mergeUpdate, ZoneFile.redecoded, hgrown.fileId, ← hmore]

/-- An update of a file that has grown leaves what loading the grown file leaves. -/
theorem mergeFile_loaded (hgrown : Grown f f') (hf' : FileState g f') (hc' : Countable f')
    (c : Catalog) : mergeFile g c.nextHandle (updateBytes f') (loaded c f) =
      .ok (loaded c f') := by
  obtain ⟨more, hmore⟩ := hgrown.extents
  have hdecode : decodeFile g (updateBytes f') = .ok (f'.redecoded f.extents.length) := by
    rw [updateBytes, ZoneFile.encodeUpdateTo, hgrown.synced]
    exact hf'.decodeFile hc' _
  have hheap : (loaded c f).heap c.nextHandle = some (f.redecoded 0) :=
    Catalog.alloc_heap_self _
  have hid : ¬ (f.redecoded 0).fileId ≠ (f'.redecoded f.extents.length).fileId :=
    not_not.mpr hgrown.fileId.symm
  simp only [mergeFile, hdecode, hheap, Catalog.mergeUpdate, if_neg hid]
  rw [redecoded_mergeUpdate hgrown]
  have hdrop : (f'.redecoded f.extents.length).extents = more := by
    simp [ZoneFile.redecoded, ← hmore]
  rw [hdrop]
  -- the two catalogs have the same heap and the same counters
  congr 1
  simp only [loaded, Catalog.subUsed, Catalog.addUsed, Catalog.editFile, Catalog.alloc,
    Catalog.mk.injEq, true_and]
  constructor
  · funext k
    by_cases hk : k = c.nextHandle <;> simp [hk]
  · funext z
    simp only [Bool.false_eq_true, if_false, heldIn_nil, ← hmore, heldIn_append]
    omega

theorem mergeFiles_loaded (fs : List ZoneFile) (hgrown : (f :: fs).IsChain Grown)
    (hstate : ∀ f' ∈ fs, FileState g f') (hcount : ∀ f' ∈ fs, Countable f') (c : Catalog) :
    mergeFiles g c.nextHandle (fs.map updateBytes) (loaded c f) =
      .ok (loaded c (fs.getLastD f)) := by
  induction fs generalizing f with
  | nil => rfl
  | cons f' fs ih =>
    obtain ⟨hstep, hrest⟩ := isChain_cons_cons.mp hgrown
    rw [map_cons, mergeFiles,
      mergeFile_loaded hstep (hstate f' (by simp)) (hcount f' (by simp)) c]
    rw [getLastD_cons]
    exact ih hrest (fun x hx => hstate x (by simp [hx])) fun x hx => hcount x (by simp [hx])

/-- As long as every name and the number of extents can be counted in 32 bits, the first record
and the incremental ones give the same file and the same counters as the record of the whole
last state. -/
theorem replayFile_eq_loadFile (g : Geometry) (c : Catalog) (f : ZoneFile) (fs : List ZoneFile)
    (hstate : ∀ f' ∈ f :: fs, FileState g f') (hgrown : (f :: fs).IsChain Grown)
    (hcount : ∀ f' ∈ f :: fs, Countable f') :
    ∃ d, replayFile g (snapshotBytes f) (fs.map updateBytes) c = .ok d ∧
      loadFile g (snapshotBytes (fs.getLastD f)) c = .ok d := by
  have hlast : fs.getLastD f ∈ f :: fs := getLastD_mem_cons
  use loaded c (fs.getLastD f)
  constructor
  · rw [replayFile, loadFile_snapshotBytes (hstate f (by simp)) (hcount f (by simp))]
    exact mergeFiles_loaded fs hgrown (fun x hx => hstate x (by simp [hx]))
      (fun x hx => hcount x (by simp [hx])) c
  · exact loadFile_snapshotBytes (hstate _ hlast) (hcount _ hlast) c

/-- A file with the given names and extents of a block each at the start of the device, which was
last persisted with the given number of them. -/
def smallFile (names : List Name) (blocks synced : ℕ) : ZoneFile :=
  { ZoneFile.new 1 with
    fileSize := blocks * 16
    extents := (List.range blocks).map fun i => ⟨i * 16, 16, 0⟩
    nrSyncedExtents := synced
    linkfiles := names }

theorem fileState_smallFile (hblocks : blocks ≤ 4)
    (hnames : [] ∉ names) : FileState .small (smallFile names blocks synced) where
  fileId := by
    show 1 < 256 ^ 8
    norm_num
  fileSize := by
    show blocks * 16 < 256 ^ 8
    omega
  mTime := by
    show 0 < 256 ^ 8
    norm_num
  widths x hx := by
    obtain ⟨i, hi, rfl⟩ := mem_map.mp hx
    have hlt := mem_range.mp hi
    constructor
    · show i * 16 < 256 ^ 8
      omega
    · show 16 < 256 ^ 8
      norm_num
  extentStart := nofun
  encodable := by
    constructor
    · intro x hx
      obtain ⟨i, hi, rfl⟩ := mem_map.mp hx
      have hlt := mem_range.mp hi
      apply (Geometry.getIOZone_eq_some _).mpr
      simp only [Geometry.small, Geometry.Within]
      omega
    · exact hnames

theorem grown_smallFile (hblocks : blocks ≤ blocks') :
    Grown (smallFile names blocks synced) (smallFile names' blocks' blocks) where
  fileId := rfl
  extents := by
    obtain ⟨more, rfl⟩ := Nat.exists_eq_add_of_le hblocks
    simp [smallFile, range_add]
  synced := by simp [smallFile]

/-- A file that is renamed while it grows from one block to three. -/
theorem replayFile_eq_loadFile_small :
    ∃ d, replayFile .small (snapshotBytes (smallFile [[97]] 1 0))
        ([smallFile [[48]] 2 1, smallFile [[48], [49]] 3 2].map updateBytes) .empty = .ok d ∧
      loadFile .small (snapshotBytes (smallFile [[48], [49]] 3 2)) .empty = .ok d := by
  apply replayFile_eq_loadFile .small .empty (smallFile [[97]] 1 0)
  · simp only [mem_cons, not_mem_nil, or_false, forall_eq_or_imp, forall_eq]
    exact ⟨fileState_smallFile (by decide) (by decide), fileState_smallFile (by decide) (by decide),
      fileState_smallFile (by decide) (by decide)⟩
  · simp only [isChain_cons_cons, isChain_singleton, and_true]
    exact ⟨grown_smallFile (by decide), grown_smallFile (by decide)⟩
  · simp only [mem_cons, not_mem_nil, or_false, forall_eq_or_imp, forall_eq]
    exact ⟨⟨by decide, by decide⟩, ⟨by decide, by decide⟩, ⟨by decide, by decide⟩⟩

theorem replayFile_of_zero_length (hn : n.length = 2 ^ 32) :
    (∀ f ∈ [smallFile [[97]] 1 0, smallFile [n] 1 1, smallFile [[97]] 1 1], FileState .small f) ∧
    [smallFile [[97]] 1 0, smallFile [n] 1 1, smallFile [[97]] 1 1].IsChain Grown ∧
    replayFile .small (snapshotBytes (smallFile [[97]] 1 0))
        ([smallFile [n] 1 1, smallFile [[97]] 1 1].map updateBytes) .empty =
      .error (.Corruption "ZoneFile: Zero length Linkfilename") ∧
    ∃ d, loadFile .small (snapshotBytes (smallFile [[97]] 1 1)) .empty = .ok d := by
  have hshort : ∀ synced, Countable (smallFile [[97]] 1 synced) := fun synced =>
    ⟨by simp [smallFile], by simp [smallFile]⟩
  have hstate : ∀ synced, FileState .small (smallFile [[97]] 1 synced) := fun synced =>
    fileState_smallFile (by decide) (by decide)
  have hne : [] ∉ [n] := by
    intro hmem
    rw [← mem_singleton.mp hmem] at hn
    cases hn
  have hlong : FileState .small (smallFile [n] 1 1) := fileState_smallFile (by decide) hne
  have hexts : ((smallFile [n] 1 1).encodeTo 1).extents.mapM (decodeExtent .small) = .ok [] := rfl
  have hdecode : decodeFile .small (updateBytes (smallFile [n] 1 1)) =
      .error (.Corruption "ZoneFile: Zero length Linkfilename") :=
    decodeFile_zero_length .small (hlong.imageFitsWidth 1) hexts hn rfl
  refine ⟨?_, ?_, ?_, ?_⟩
  · simp only [mem_cons, not_mem_nil, or_false, forall_eq_or_imp, forall_eq]
    exact ⟨hstate 0, hlong, hstate 1⟩
  · simp only [isChain_cons_cons, isChain_singleton, and_true]
    exact ⟨grown_smallFile le_rfl, grown_smallFile le_rfl⟩
  · rw [replayFile, loadFile_snapshotBytes (hstate 0) (hshort 0), map_cons]
    simp only [mergeFiles, mergeFile, hdecode]
  · exact ⟨_, loadFile_snapshotBytes (hstate 1) (hshort 1) .empty⟩

def longName : Name := List.replicate (2 ^ 32) 97

/-- A file that has a name of `2 ^ 32` bytes for a while: its record of that time is written with
a name of length zero and does not decode, while the record of its last state does. -/
theorem replayFile_longName :
    (∀ f ∈ [smallFile [[97]] 1 0, smallFile [longName] 1 1, smallFile [[97]] 1 1],
      FileState .small f) ∧
    [smallFile [[97]] 1 0, smallFile [longName] 1 1, smallFile [[97]] 1 1].IsChain Grown ∧
    replayFile .small (snapshotBytes (smallFile [[97]] 1 0))
        ([smallFile [longName] 1 1, smallFile [[97]] 1 1].map updateBytes) .empty =
      .error (.Corruption "ZoneFile: Zero length Linkfilename") ∧
    ∃ d, loadFile .small (snapshotBytes (smallFile [[97]] 1 1)) .empty = .ok d :=
  replayFile_of_zero_length length_replicate

end ZenFs.Codec
