import Mathlib.Algebra.BigOperators.Group.Finset.Basic
import ZenFs.Codec.Updates
import ZenFs.Namespace.Restored

/-!
The snapshot of the whole namespace: `ZenFS::EncodeSnapshotTo` and `ZenFS::DecodeSnapshotFrom`.

A file is in the snapshot once for each of its names. The first copy brings the file back under
all its names; a later one finds them taken, and is destroyed with what it was charged. So every
object is counted once, whatever the order of the copies.
-/

namespace ZenFs.Codec

open Library.Coding

variable {c d : Catalog} {g : Geometry} {img : FileImage} {imgs : List FileImage}

def kCompleteFilesSnapshot : ℕ := 1

def filesString (imgs : List FileImage) : Bytes :=
  imgs.flatMap fun img => putLengthPrefixed (encodeImage img)

def snapshotImages (c : Catalog) : List FileImage :=
  c.files.toList.filterMap fun p => (c.heap p.2).map ZoneFile.encodeSnapshotTo

def encodeSnapshotTo (c : Catalog) : Bytes :=
  putFixed 4 kCompleteFilesSnapshot ++ putLengthPrefixed (filesString (snapshotImages c))

def snapshotRound (g : Geometry) (c : Catalog) (input : Bytes) :
    Except Status (Catalog × Option Bytes) :=
  match getLengthPrefixed input with
  | none => .ok (c, none)
  | some (slice, rest) =>
    match decodeFile g slice with
    | .error s => .error s
    | .ok f =>
      let c := (c.addUsed f.extents).bumpFileId f.fileId
      .ok (((c.alloc f).insertLinks c.nextHandle f.linkfiles).release c.nextHandle, some rest)

def decodeSnapshotFrom (g : Geometry) (c : Catalog) (input : Bytes) : Except Status Catalog :=
  consume (snapshotRound g) c input

def openRecord (record : Bytes) : Option (ℕ × Bytes) :=
  (getFixed 4 record).bind fun p => (getLengthPrefixed p.2).map fun q => (p.1, q.1)

def recoverSnapshot (g : Geometry) (record : Bytes) (c : Catalog) : Except Status Catalog :=
  match openRecord record with
  | none => .error (.Corruption "ZenFS: No recovery record data")
  | some (tag, data) =>
    if tag = kCompleteFilesSnapshot then decodeSnapshotFrom g c data
    else .error (.Corruption "ZenFS: Unexpected tag")

theorem consuming_snapshotRound (g : Geometry) : Consuming (snapshotRound g) := by
  intro c input c' rest h
  rw [snapshotRound] at h
  split at h
  · cases h
  case h_2 slice r hr =>
    split at h
    · cases h
    · cases h
      exact length_of_getLengthPrefixed hr

/-- An image whose bytes can be counted in 32 bits and decode to its file. -/
structure Readable (g : Geometry) (img : FileImage) : Prop where
  length : (encodeImage img).length < 2 ^ 32
  decode : decodeFile g (encodeImage img) = decodeFrom g img

theorem decodeSnapshotFrom_filesString (himgs : ∀ img ∈ imgs, Readable g img) (c : Catalog) :
    decodeSnapshotFrom g c (filesString imgs) = Catalog.decodeSnapshotFrom g imgs c := by
  induction imgs generalizing c with
  | nil => exact consume_end (consuming_snapshotRound g) rfl
  | cons img imgs ih =>
    have himg := himgs img (by simp)
    have hget : getLengthPrefixed (filesString (img :: imgs)) =
        some (encodeImage img, filesString imgs) := getLengthPrefixed_put himg.length _
    rw [decodeSnapshotFrom, consume_eq (consuming_snapshotRound g), snapshotRound, hget,
      Catalog.decodeSnapshotFrom]
    simp only [himg.decode]
    cases decodeFrom g img with
    | error s => rfl
    | ok f => exact ih (fun i hi => himgs i (by simp [hi])) _

theorem recoverSnapshot_encode (himgs : ∀ img ∈ snapshotImages c, Readable g img)
    (hlen : (filesString (snapshotImages c)).length < 2 ^ 32) :
    recoverSnapshot g (encodeSnapshotTo c) d =
      Catalog.decodeSnapshotFrom g (snapshotImages c) d := by
  have hget := getLengthPrefixed_put hlen []
  rw [List.append_nil] at hget
  rw [recoverSnapshot, openRecord, encodeSnapshotTo, getFixed_putFixed (by decide),
    Option.bind_some, hget]
  exact decodeSnapshotFrom_filesString himgs d

end ZenFs.Codec

namespace ZenFs.Catalog

variable {g : Geometry} {c d d₀ : Catalog} {h : Handle} {hs : List Handle} {f u : ZoneFile}
  {n : Name}

@[simp] theorem insertLinks_used (c : Catalog) (h : Handle) (names : List Name) :
    (c.insertLinks h names).used = c.used := by
  induction names generalizing c with
  | nil => rfl
  | cons n names ih => exact ih (c.insertName h n)

variable {names : List Name}

theorem adopt_used_of_named (hn : (d.adopt u names).Named d.nextHandle)
    (z : ℕ) : (d.adopt u names).used z = d.used z + heldIn u.extents z := by
  have hn' := (named_iff _ _).mp hn
  simp only [adopt, release_files] at hn'
  rw [adopt, release, if_pos ((named_iff _ _).mpr hn'), insertLinks_used]
  rfl

theorem adopt_used_of_not_named (hn : ¬ (d.adopt u names).Named d.nextHandle)
    (z : ℕ) : (d.adopt u names).used z = d.used z := by
  have hn' := fun hnamed => hn ((named_iff _ _).mpr hnamed)
  simp only [adopt, release_files] at hn'
  have hheap : ((((d.addUsed u.extents).bumpFileId u.fileId).alloc u).insertLinks d.nextHandle
      names).heap d.nextHandle = some u := by
    rw [insertLinks_heap]
    exact alloc_heap_self u
  rw [adopt, release, if_neg fun hnamed => hn' ((named_iff _ _).mp hnamed), destroy, hheap]
  simp only [subUsed, insertLinks_used]
  show d.used z + heldIn u.extents z - heldIn u.extents z = d.used z
  omega

@[simp] theorem adopt_nextFileId (d : Catalog) (u : ZoneFile) (names : List Name) :
    (d.adopt u names).nextFileId = max d.nextFileId (u.fileId + 1) := by
  rw [adopt, release_nextFileId, insertLinks_nextFileId]
  show (if u.fileId ≥ d.nextFileId then u.fileId + 1 else d.nextFileId) = _
  split <;> omega

def extentsAt (c : Catalog) (h : Handle) : List ZoneExtent :=
  ((c.heap h).map ZoneFile.extents).getD []

def objects (c : Catalog) : Finset Handle := (c.files.toList.map Prod.snd).toFinset

/-- `d` has the names of the objects `hs` of `c` and, over `d₀`, the extents of each of them once
on the counters. -/
structure Holds (c d₀ d : Catalog) (hs : List Handle) : Prop where
  names : ∀ n : Name, d.files[n]? ≠ none ↔ ∃ h ∈ hs, c.files[n]? = some h
  below : ∀ (n : Name) (k : Handle), d.files[n]? = some k → k < d.nextHandle
  used : ∀ z, d.used z = d₀.used z + (∑ h ∈ hs.toFinset, heldIn (c.extentsAt h) z : ℕ)
  ids : ∀ h ∈ hs, ∀ f, c.heap h = some f → f.fileId < d.nextFileId

theorem adopt_below (hbelow : ∀ (n : Name) (k : Handle), d.files[n]? = some k → k < d.nextHandle)
    (n : Name) (k : Handle) (hk : (d.adopt u names).files[n]? = some k) :
    k < (d.adopt u names).nextHandle := by
  rw [adopt_files] at hk
  rw [adopt_nextHandle]
  split at hk
  · cases hk
    exact Nat.lt_succ_self _
  · exact (hbelow n k hk).trans (Nat.lt_succ_self _)

theorem adopt_ids (hids : ∀ h ∈ hs, ∀ f, c.heap h = some f → f.fileId < d.nextFileId)
    (hf : c.heap h = some f) (hid : u.fileId = f.fileId) :
    ∀ k ∈ h :: hs, ∀ f', c.heap k = some f' → f'.fileId < (d.adopt u names).nextFileId := by
  intro k hk f' hf'
  rw [adopt_nextFileId]
  rcases List.mem_cons.mp hk with rfl | hk
  · rw [hf] at hf'
    cases hf'
    omega
  · have := hids k hk f' hf'
    omega

theorem Holds.adopt (hd : Holds c d₀ d hs) (hc : c.Sound)
    (hn : c.files[n]? = some h) (hf : c.heap h = some f) :
    Holds c d₀ (d.adopt (f.redecoded 0) f.linkfiles) (h :: hs) := by
  have hlinks : ∀ m, m ∈ f.linkfiles ↔ c.files[m]? = some h :=
    fun m => ⟨fun hm => hc.all hn hf hm, fun hm => hc.mem hm hf⟩
  have hextents : c.extentsAt h = f.extents := by simp [extentsAt, hf]
  refine ⟨?_, adopt_below hd.below, ?_, adopt_ids (u := f.redecoded 0) hd.ids hf rfl⟩
  · intro m
    have hold := hd.names m
    rw [adopt_files]
    by_cases hm : m ∈ f.linkfiles
    · have hmc := (hlinks m).mp hm
      by_cases hnone : d.files[m]? = none
      · simp [hm, hnone, hmc]
      · simp [hnone, hmc]
    · have hmc : c.files[m]? ≠ some h := fun hmc => hm ((hlinks m).mpr hmc)
      simp [hm, hmc, hold]
  · intro z
    by_cases hknown : h ∈ hs
    · -- the object is there, and so are all its names
      have hnot : ¬ (d.adopt (f.redecoded 0) f.linkfiles).Named d.nextHandle := by
        rw [named_iff]
        intro ⟨m, hm⟩
        rw [adopt_files] at hm
        split at hm
        case isTrue hfree =>
          exact (hd.names m).mpr ⟨h, hknown, (hlinks m).mp hfree.1⟩ hfree.2
        case isFalse => exact (hd.below m _ hm).false
      rw [adopt_used_of_not_named hnot, hd.used z, List.toFinset_cons,
        Finset.insert_eq_of_mem (List.mem_toFinset.mpr hknown)]
    · -- the object is new, and the name it was found under is free
      have hfree : d.files[n]? = none := by
        by_contra hne
        obtain ⟨k, hk, hnk⟩ := (hd.names n).mp hne
        rw [hn] at hnk
        cases hnk
        exact hknown hk
      have hnamed : (d.adopt (f.redecoded 0) f.linkfiles).Named d.nextHandle := by
        rw [named_iff]
        use n
        rw [adopt_files, if_pos ⟨(hlinks n).mpr hn, hfree⟩]
      rw [adopt_used_of_named hnamed, hd.used z, List.toFinset_cons,
        Finset.sum_insert fun hmem => hknown (List.mem_toFinset.mp hmem), hextents]
      show _ + ((heldIn (f.extents.drop 0) z : ℕ) : ℤ) = _
      rw [List.drop_zero]
      push_cast
      ring

theorem Holds.decodeSnapshotFrom (hc : c.Sound)
    (henc : ∀ n f, c.table n = some f → Encodable g f) {entries : List (Name × Handle)}
    (hentries : ∀ p ∈ entries, c.files[p.1]? = some p.2)
    (hd : Holds c d₀ d hs) :
    ∃ d', Catalog.decodeSnapshotFrom g (entries.filterMap fun p =>
        (c.heap p.2).map ZoneFile.encodeSnapshotTo) d = .ok d' ∧
      Holds c d₀ d' ((entries.map Prod.snd).reverse ++ hs) := by
  induction entries generalizing d hs with
  | nil => exact ⟨d, rfl, hd⟩
  | cons p entries ih =>
    have hn := hentries p (by simp)
    obtain ⟨f, hf⟩ := hc.alive hn
    have hdecode : decodeFrom g f.encodeSnapshotTo = .ok (f.redecoded 0) :=
      decodeFrom_encodeTo (henc p.1 f (table_eq_some.mpr ⟨p.2, hn, hf⟩)) 0
    obtain ⟨d', heq, hd'⟩ := ih (fun q hq => hentries q (by simp [hq])) (hd.adopt hc hn hf)
    have himgs : (p :: entries).filterMap (fun p => (c.heap p.2).map ZoneFile.encodeSnapshotTo) =
        f.encodeSnapshotTo :: entries.filterMap fun p =>
          (c.heap p.2).map ZoneFile.encodeSnapshotTo := by simp [hf]
    use d'
    constructor
    · rw [himgs, Catalog.decodeSnapshotFrom, hdecode]
      exact heq
    · rwa [List.map_cons, List.reverse_cons, List.append_assoc]

end ZenFs.Catalog

namespace ZenFs.Codec

open Library.Coding

variable {g : Geometry} {c d : Catalog} {f u : ZoneFile} {img : FileImage} {imgs : List FileImage}
  {n : Name}

theorem length_le_filesString (himg : img ∈ imgs) :
    (encodeImage img).length ≤ (filesString imgs).length := by
  obtain ⟨before, after, rfl⟩ := List.append_of_mem himg
  simp only [filesString, List.flatMap_append, List.flatMap_cons, putLengthPrefixed,
    List.length_append]
  omega

theorem length_le_encodeImage (hn : n ∈ img.linkfiles) :
    n.length ≤ (encodeImage img).length := by
  obtain ⟨before, after, hl⟩ := List.append_of_mem hn
  simp only [encodeImage, encodeNames, hl, List.flatMap_append, List.flatMap_cons, tagged,
    putLengthPrefixed, List.length_append]
  omega

/-- The namespace can be counted: the bytes of all its files in 32 bits, and the number after
each id in 64. -/
structure SnapshotCounted (c : Catalog) : Prop where
  total : (filesString (snapshotImages c)).length < 2 ^ 32
  ids : ∀ n f, c.table n = some f → f.fileId + 1 < 2 ^ 64

/-- `d` has the namespace of `c` up to the choice of objects, and over `d₀` the extents of every
object once on its counters. -/
structure SameNamespace (c d₀ d : Catalog) : Prop where
  names : ∀ n : Name, d.files[n]? = none ↔ c.files[n]? = none
  shared : ∀ n m : Name, c.files[n]? ≠ none → c.files[m]? ≠ none →
    (d.files[n]? = d.files[m]? ↔ c.files[n]? = c.files[m]?)
  fields : ∀ n f, c.table n = some f → ∃ f', d.table n = some f' ∧ f'.fileId = f.fileId ∧
    f'.fileSize = f.fileSize ∧ f'.extents = f.extents ∧ f'.linkfiles = f.linkfiles
  ids : ∀ n f, d.table n = some f → f.fileId < d.nextFileId
  used : ∀ z, d.used z = d₀.used z + (∑ h ∈ c.objects, heldIn (c.extentsAt h) z : ℕ)

theorem clearFiles_of_empty (hd : d.files = ∅) : d.clearFiles = d := by
  obtain ⟨files, heap, nextHandle, nextFileId, used⟩ := d
  cases hd
  rfl

theorem readable_of_counted (hstate : ∀ n f, c.table n = some f → FileState g f)
    (hcount : SnapshotCounted c) : ∀ img ∈ snapshotImages c, Readable g img := by
  intro img himg
  have hlen := (length_le_filesString himg).trans_lt hcount.total
  obtain ⟨⟨n, h⟩, hp, hh⟩ := List.mem_filterMap.mp himg
  obtain ⟨f, hf, rfl⟩ := Option.map_eq_some_iff.mp hh
  have hn := Std.ExtTreeMap.mem_toList_iff_getElem?_eq_some.mp hp
  have hfile := hstate n f (Catalog.table_eq_some.mpr ⟨h, hn, hf⟩)
  exact ⟨hlen, decodeFile_encodeImage g (hfile.imageFitsWidth 0)
    fun m hm => (length_le_encodeImage hm).trans_lt hlen⟩

/-- Decoding the snapshot of a sound namespace that can be counted brings it back into an empty
one. -/
theorem recoverSnapshot_sameNamespace (g : Geometry) {c d : Catalog} (hc : c.Sound)
    (hstate : ∀ n f, c.table n = some f → FileState g f) (hd : d.Sound) (hempty : d.files = ∅)
    (hcount : SnapshotCounted c) :
    ∃ d', recoverSnapshot g (encodeSnapshotTo c) d = .ok d' ∧ SameNamespace c d d' := by
  have henc : ∀ n f, c.table n = some f → Encodable g f := fun n f hf => (hstate n f hf).encodable
  have hentries : ∀ p ∈ c.files.toList, c.files[p.1]? = some p.2 := fun p hp =>
    Std.ExtTreeMap.mem_toList_iff_getElem?_eq_some.mp hp
  have hnone : ∀ n : Name, d.files[n]? = none := fun n => by simp [hempty]
  have hstart : Catalog.Holds c d d [] :=
    ⟨fun n => by simp [hnone n], fun n k hk => by simp [hnone n] at hk, fun z => by simp,
      fun h hh => by simp at hh⟩
  obtain ⟨d', heq, hholds⟩ := hstart.decodeSnapshotFrom hc henc hentries
  have himgs : c.encodeSnapshotTo = .snapshot (snapshotImages c) := rfl
  obtain ⟨d'', heq', hsound, htable⟩ := Catalog.decodeSnapshotFrom_encode hc henc himgs hd
  rw [clearFiles_of_empty hempty] at heq'
  obtain rfl : d' = d'' := Except.ok.inj (heq.symm.trans heq')
  use d'
  constructor
  · rw [recoverSnapshot_encode (readable_of_counted hstate hcount) hcount.total]
    exact heq
  have hfields : ∀ n f, c.table n = some f → d'.table n = some (f.redecoded 0) := by
    intro n f hf
    rw [htable, hf]
    rfl
  constructor
  · intro n
    rw [← hsound.table_isSome, ← hc.table_isSome, htable, Option.map_eq_none_iff]
  · intro n m hn hm
    obtain ⟨f, hf⟩ := Option.ne_none_iff_exists'.mp (mt (hc.table_isSome n).mp hn)
    obtain ⟨f', hf'⟩ := Option.ne_none_iff_exists'.mp (mt (hc.table_isSome m).mp hm)
    rw [hc.same_iff hf hf', hsound.same_iff (hfields n f hf) (hfields m f' hf')]
    rfl
  · intro n f hf
    exact ⟨_, hfields n f hf, rfl, rfl, List.drop_zero, rfl⟩
  · intro n u hu
    rw [htable] at hu
    obtain ⟨f, hf, rfl⟩ := Option.map_eq_some_iff.mp hu
    obtain ⟨h, hn, hh⟩ := Catalog.table_eq_some.mp hf
    have hmem : h ∈ (c.files.toList.map Prod.snd).reverse ++ [] := by
      rw [List.append_nil, List.mem_reverse]
      exact List.mem_map.mpr
        ⟨(n, h), Std.ExtTreeMap.mem_toList_iff_getElem?_eq_some.mpr hn, rfl⟩
    exact hholds.ids h hmem f hh
  · intro z
    rw [hholds.used z, List.append_nil, List.toFinset_reverse]
    rfl

def oneFile (f : ZoneFile) : Catalog := Catalog.empty.adopt f f.linkfiles

theorem oneFile_files (f : ZoneFile) (n : Name) :
    (oneFile f).files[n]? = if n ∈ f.linkfiles then some 0 else none := by
  have hempty : Catalog.empty.files[n]? = none := by simp [Catalog.empty]
  rw [oneFile, Catalog.adopt_files, hempty]
  simp only [and_true]
  rfl

theorem oneFile_heap (hne : f.linkfiles ≠ []) : (oneFile f).heap 0 = some f := by
  obtain ⟨n, hn⟩ := List.exists_mem_of_ne_nil _ hne
  apply Catalog.adopt_heap_self
  rw [Catalog.named_iff]
  use n
  have := oneFile_files f n
  rwa [if_pos hn] at this

theorem oneFile_table (hne : f.linkfiles ≠ []) (hu : (oneFile f).table n = some u) : u = f := by
  obtain ⟨h, hn, hh⟩ := Catalog.table_eq_some.mp hu
  rw [oneFile_files] at hn
  split at hn
  · cases hn
    rw [oneFile_heap hne] at hh
    exact (Option.some.inj hh).symm
  · cases hn

theorem sound_oneFile (hdel : f.isDeleted = false) (hnd : f.linkfiles.Nodup) :
    (oneFile f).Sound :=
  (Catalog.restored_empty.adopt_new hdel (fun m _ => by simp [Catalog.empty]) hnd rfl).sound

/-- A file of two blocks with two names. -/
theorem recoverSnapshot_sameNamespace_twoNames :
    ∃ d', recoverSnapshot .small (encodeSnapshotTo (oneFile (smallFile [[97], [48]] 2 0))) .empty =
      .ok d' ∧ SameNamespace (oneFile (smallFile [[97], [48]] 2 0)) .empty d' := by
  apply recoverSnapshot_sameNamespace .small
  · exact sound_oneFile rfl (by decide)
  · intro n f hf
    rw [oneFile_table (by decide) hf]
    exact fileState_smallFile (by decide) (by decide)
  · exact Catalog.sound_empty
  · rfl
  · constructor
    · decide +kernel
    · intro n f hf
      rw [oneFile_table (by decide) hf]
      decide

theorem snapshotImages_oneFile (hl : f.linkfiles = [n]) :
    snapshotImages (oneFile f) = [f.encodeSnapshotTo] := by
  have hne : f.linkfiles ≠ [] := by simp [hl]
  have hmem : ∀ p, p ∈ (oneFile f).files.toList ↔ p = (n, 0) := by
    intro p
    rw [Std.ExtTreeMap.mem_toList_iff_getElem?_eq_some, oneFile_files, hl, Prod.ext_iff]
    by_cases hp : p.1 = n
    · simp [eq_comm]
    · simp [hp]
  have hlist : (oneFile f).files.toList = [(n, 0)] := by
    have hnd : (oneFile f).files.toList.Nodup := by
      have := Std.ExtTreeMap.distinct_keys_toList (t := (oneFile f).files)
      exact this.imp fun hab hEq => by simp [hEq] at hab
    exact List.perm_singleton.mp ((List.perm_ext_iff_of_nodup hnd (by simp)).mpr
      fun p => by rw [hmem p, List.mem_singleton])
  rw [snapshotImages, hlist]
  simp [oneFile_heap hne]

/-- A file whose bytes fill `2 ^ 32` exactly is written behind the length zero. -/
theorem recoverSnapshot_of_zero_length
    (hl : f.linkfiles = [n]) (hlen : (snapshotBytes f).length = 2 ^ 32) :
    recoverSnapshot g (encodeSnapshotTo (oneFile f)) d =
      .error (.Corruption "ZoneFile: File ID missing") := by
  have hput : putLengthPrefixed (snapshotBytes f) = 0 :: snapshotBytes f := by
    rw [putLengthPrefixed, hlen]
    rfl
  have hstring : filesString (snapshotImages (oneFile f)) = 0 :: snapshotBytes f := by
    rw [snapshotImages_oneFile hl, ← hput]
    exact List.append_nil _
  -- the string of all files is one byte longer and is cut after that byte
  have hget := getLengthPrefixed_put_mod (0 :: snapshotBytes f) []
  have hmod : (0 :: snapshotBytes f).length % 2 ^ 32 = 1 := by
    rw [List.length_cons, hlen]
    rfl
  rw [hmod, List.append_nil] at hget
  rw [recoverSnapshot, openRecord, encodeSnapshotTo, hstring, getFixed_putFixed (by decide),
    Option.bind_some, hget]
  rfl

theorem length_putVarint32 {n : ℕ} (hn : 2 ^ 28 ≤ n) : (putVarint32 n).length = 5 := by
  have h₁ : ¬ n < 128 := by omega
  have h₂ : ¬ n / 128 < 128 := by omega
  have h₃ : ¬ n / 128 / 128 < 128 := by omega
  have h₄ : ¬ n / 128 / 128 / 128 < 128 := by omega
  simp [putVarint32, putVarint, h₁, h₂, h₃, h₄]

theorem length_snapshotBytes (hlow : 2 ^ 28 ≤ n.length) (hhigh : n.length < 2 ^ 32) :
    (snapshotBytes (smallFile [n] 0 0)).length = n.length + 65 := by
  have hname : (putLengthPrefixed n).length = 5 + n.length := by
    rw [putLengthPrefixed, Nat.mod_eq_of_lt hhigh, List.length_append, length_putVarint32 hlow]
  simp only [snapshotBytes, encodeImage, ZoneFile.encodeSnapshotTo, ZoneFile.encodeTo, smallFile,
    ZoneFile.new, tagged, encodeExtents, encodeNames, List.range_zero, List.map_nil, List.drop_nil,
    List.flatMap_nil, List.flatMap_cons, Bool.false_eq_true, if_false, List.length_append,
    List.length_nil, length_putFixed]
  omega

theorem recoverSnapshot_of_long_name (hn : n.length = 2 ^ 32 - 65) :
    (oneFile (smallFile [n] 0 0)).Sound ∧
    (∀ m f, (oneFile (smallFile [n] 0 0)).table m = some f → FileState .small f) ∧
    recoverSnapshot .small (encodeSnapshotTo (oneFile (smallFile [n] 0 0))) .empty =
      .error (.Corruption "ZoneFile: File ID missing") := by
  have hne : [] ∉ [n] := by
    intro hmem
    rw [← List.mem_singleton.mp hmem] at hn
    cases hn
  have hlen : (snapshotBytes (smallFile [n] 0 0)).length = 2 ^ 32 := by
    rw [length_snapshotBytes (by omega) (by omega)]
    omega
  refine ⟨sound_oneFile rfl (List.nodup_singleton n), ?_, ?_⟩
  · intro m f hf
    rw [oneFile_table (List.cons_ne_nil n []) hf]
    exact fileState_smallFile (by decide) hne
  · exact recoverSnapshot_of_zero_length rfl hlen

/-- A file without extents under a name so long that its bytes are `2 ^ 32`. -/
theorem recoverSnapshot_replicate :
    (oneFile (smallFile [List.replicate (2 ^ 32 - 65) 97] 0 0)).Sound ∧
    (∀ m f, (oneFile (smallFile [List.replicate (2 ^ 32 - 65) 97] 0 0)).table m = some f →
      FileState .small f) ∧
    recoverSnapshot .small
        (encodeSnapshotTo (oneFile (smallFile [List.replicate (2 ^ 32 - 65) 97] 0 0))) .empty =
      .error (.Corruption "ZoneFile: File ID missing") :=
  recoverSnapshot_of_long_name List.length_replicate

end ZenFs.Codec
