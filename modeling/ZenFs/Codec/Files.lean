import ZenFs.Library.Coding
import ZenFs.Namespace.Replay

/-!
The bytes of a file record: what `ZoneFile::EncodeTo` writes and how `ZoneFile::DecodeFrom`
reads it back, one tagged field after the other.

Reading what was written gives what `decodeFrom` makes of the image, as long as every field
fits the width it is written with.
-/

namespace ZenFs.Codec

open Library.Coding

variable {exts : List ZoneExtent} {f f' : ZoneFile} {g : Geometry} {img : FileImage} {k n : ℕ}
variable {l : List (ℕ × ℕ)} {names : List Name} {o : Option ℕ} {p : ℕ × ℕ} {payload rest : Bytes}
variable {s : Status}

inductive ZoneFileTag
  | fileID | fileNameDeprecated | fileSize | writeLifeTimeHint | extent | modificationTime
  | activeExtentStart | isSparse | linkedFilename
  deriving DecidableEq, Repr

variable {tag : ZoneFileTag}

def ZoneFileTag.toNat : ZoneFileTag → ℕ
  | fileID => 1
  | fileNameDeprecated => 2
  | fileSize => 3
  | writeLifeTimeHint => 4
  | extent => 5
  | modificationTime => 6
  | activeExtentStart => 7
  | isSparse => 8
  | linkedFilename => 9

def ZoneFileTag.ofNat? : ℕ → Option ZoneFileTag
  | 1 => some fileID
  | 2 => some fileNameDeprecated
  | 3 => some fileSize
  | 4 => some writeLifeTimeHint
  | 5 => some extent
  | 6 => some modificationTime
  | 7 => some activeExtentStart
  | 8 => some isSparse
  | 9 => some linkedFilename
  | _ => none

theorem ZoneFileTag.ofNat?_toNat (tag : ZoneFileTag) : ofNat? tag.toNat = some tag := by
  cases tag <;> rfl

theorem ZoneFileTag.toNat_lt (tag : ZoneFileTag) : tag.toNat < 256 ^ 4 := by
  cases tag <;> decide

/-- The cast back from the stored number. Numbers beyond the enumeration are never written;
what the cast makes of them is left open by the language. -/
def lifetimeOfNat : ℕ → Lifetime
  | 1 => .none
  | 2 => .short
  | 3 => .medium
  | 4 => .long
  | 5 => .extreme
  | _ => .notSet

theorem lifetimeOfNat_toNat (l : Lifetime) : lifetimeOfNat l.toNat = l := by cases l <;> rfl

def noExtent : ℕ := 2 ^ 64 - 1

def extentStartToNat : Option ℕ → ℕ
  | none => noExtent
  | some start => start

def extentStartOfNat (n : ℕ) : Option ℕ := if n = noExtent then none else some n

def tagged (tag : ZoneFileTag) (payload : Bytes) : Bytes := putFixed 4 tag.toNat ++ payload

def encodeExtent (p : ℕ × ℕ) : Bytes := putFixed 8 p.1 ++ putFixed 8 p.2

def encodeExtents (l : List (ℕ × ℕ)) : Bytes :=
  l.flatMap fun p => tagged .extent (putLengthPrefixed (encodeExtent p))

def encodeNames (l : List Name) : Bytes :=
  l.flatMap fun n => tagged .linkedFilename (putLengthPrefixed n)

def encodeImage (img : FileImage) : Bytes :=
  tagged .fileID (putFixed 8 img.fileId) ++
  (tagged .fileSize (putFixed 8 img.fileSize) ++
  (tagged .writeLifeTimeHint (putFixed 4 img.lifetime.toNat) ++
  (encodeExtents img.extents ++
  (tagged .modificationTime (putFixed 8 img.mTime) ++
  (tagged .activeExtentStart (putFixed 8 (extentStartToNat img.extentStart)) ++
  ((if img.isSparse then tagged .isSparse [] else []) ++
  encodeNames img.linkfiles))))))

def readField {β : Type} (read : Option (β × Bytes)) (msg : String) (set : β → ZoneFile) :
    Except Status (ZoneFile × Bytes) :=
  match read with
  | none => .error (.Corruption msg)
  | some (v, rest) => .ok (set v, rest)

def decodeExtentBytes (slice : Bytes) : Except Status (ℕ × ℕ) :=
  if slice.length ≠ 16 then .error (.Corruption "ZoneExtent: Error: length missmatch")
  else .ok (fixedValue (slice.take 8), fixedValue (slice.drop 8))

/-- The case `kExtent`. A slice that is not there is taken as an empty one. -/
def readExtent (g : Geometry) (f : ZoneFile) (input : Bytes) : Except Status (ZoneFile × Bytes) :=
  let (slice, rest) := (getLengthPrefixed input).getD ([], [])
  match decodeExtentBytes slice with
  | .error s => .error s
  | .ok p =>
    match decodeExtent g p with
    | .error s => .error s
    | .ok e => .ok ({ f with extents := f.extents ++ [e] }, rest)

def readName (f : ZoneFile) (input : Bytes) : Except Status (ZoneFile × Bytes) :=
  match getLengthPrefixed input with
  | none => .error (.Corruption "ZoneFile: LinkFilename missing")
  | some (slice, rest) =>
    if slice.isEmpty then .error (.Corruption "ZoneFile: Zero length Linkfilename")
    else .ok ({ f with linkfiles := f.linkfiles ++ [slice] }, rest)

def readTagged (g : Geometry) (f : ZoneFile) (input : Bytes) :
    ZoneFileTag → Except Status (ZoneFile × Bytes)
  | .fileSize =>
    readField (getFixed 8 input) "ZoneFile: Missing file size" fun n => { f with fileSize := n }
  | .writeLifeTimeHint =>
    readField (getFixed 4 input) "ZoneFile: Missing life time hint"
      fun n => { f with lifetime := lifetimeOfNat n }
  | .extent => readExtent g f input
  | .modificationTime =>
    readField (getFixed 8 input) "ZoneFile: Missing creation time" fun n => { f with mTime := n }
  | .activeExtentStart =>
    readField (getFixed 8 input) "ZoneFile: Active extent start"
      fun n => { f with extentStart := extentStartOfNat n }
  | .isSparse => .ok ({ f with isSparse := true }, input)
  | .linkedFilename => readName f input
  | .fileID | .fileNameDeprecated => .error (.Corruption "ZoneFile: Unexpected tag")

def decodeRound (g : Geometry) (f : ZoneFile) (input : Bytes) :
    Except Status (ZoneFile × Option Bytes) :=
  match getFixed 4 input with
  | none => .ok (f, none)
  | some (tag, rest) =>
    match ZoneFileTag.ofNat? tag with
    | none => .error (.Corruption "ZoneFile: Unexpected tag")
    | some tag =>
      match readTagged g f rest tag with
      | .error s => .error s
      | .ok (f, rest) => .ok (f, some rest)

def decodeFile (g : Geometry) (input : Bytes) : Except Status ZoneFile :=
  match getFixed 4 input with
  | none => .error (.Corruption "ZoneFile: File ID missing")
  | some (tag, rest) =>
    if tag ≠ ZoneFileTag.fileID.toNat then .error (.Corruption "ZoneFile: File ID missing")
    else
      match getFixed 8 rest with
      | none => .error (.Corruption "ZoneFile: File ID missing")
      | some (id, rest) =>
        (consume (decodeRound g) (ZoneFile.new id) rest).map ZoneFile.metadataSynced

section Rounds

variable {input : Bytes}

theorem length_of_readField {β : Type} {read : Option (β × Bytes)} {msg : String}
    {set : β → ZoneFile} (hread : ∀ v r, read = some (v, r) → r.length ≤ input.length)
    (h : readField read msg set = .ok (f', rest)) : rest.length ≤ input.length := by
  cases read with
  | none => cases h
  | some p =>
    cases h
    exact hread _ _ rfl

theorem length_of_readFixed {msg : String} {set : ℕ → ZoneFile}
    (h : readField (getFixed k input) msg set = .ok (f', rest)) : rest.length ≤ input.length := by
  refine length_of_readField (fun v r hr => ?_) h
  have := length_of_getFixed hr
  omega

theorem length_of_readExtent (h : readExtent g f input = .ok (f', rest)) :
    rest.length ≤ input.length := by
  have hrest : ((getLengthPrefixed input).getD ([], [])).2 = rest := by
    rw [readExtent] at h
    dsimp only at h
    split at h
    · cases h
    · split at h
      · cases h
      · cases h
        rfl
  rw [← hrest]
  cases hp : getLengthPrefixed input with
  | none => exact Nat.zero_le _
  | some p =>
    have hlt : p.2.length < input.length := length_of_getLengthPrefixed hp
    exact hlt.le

theorem length_of_readName (h : readName f input = .ok (f', rest)) :
    rest.length ≤ input.length := by
  rw [readName] at h
  split at h
  · cases h
  case h_2 slice r hr =>
    split at h
    · cases h
    · cases h
      exact (length_of_getLengthPrefixed hr).le

theorem length_of_readTagged (h : readTagged g f input tag = .ok (f', rest)) :
    rest.length ≤ input.length := by
  cases tag with
  | fileID | fileNameDeprecated => cases h
  | fileSize | writeLifeTimeHint | modificationTime | activeExtentStart =>
    exact length_of_readFixed h
  | extent => exact length_of_readExtent h
  | isSparse =>
    cases h
    exact le_rfl
  | linkedFilename => exact length_of_readName h

theorem consuming_decodeRound (g : Geometry) : Consuming (decodeRound g) := by
  intro f input f' rest h
  rw [decodeRound] at h
  split at h
  · cases h
  case h_2 tag r hr =>
    have htag := length_of_getFixed hr
    split at h
    · cases h
    · split at h
      · cases h
      case h_2 hfield =>
        cases h
        have hle := length_of_readTagged hfield
        omega

end Rounds

section RoundTrip

theorem getFixed_tagged (tag : ZoneFileTag) (payload rest : Bytes) :
    getFixed 4 (tagged tag payload ++ rest) = some (tag.toNat, payload ++ rest) := by
  rw [tagged, List.append_assoc, getFixed_putFixed tag.toNat_lt]

theorem consume_tagged (h : readTagged g f (payload ++ rest) tag = .ok (f', rest)) :
    consume (decodeRound g) f (tagged tag payload ++ rest) = consume (decodeRound g) f' rest := by
  apply consume_go (consuming_decodeRound g)
  rw [decodeRound, getFixed_tagged]
  simp only [ZoneFileTag.ofNat?_toNat, h]

theorem consume_tagged_error (h : readTagged g f (payload ++ rest) tag = .error s) :
    consume (decodeRound g) f (tagged tag payload ++ rest) = .error s := by
  apply consume_error (consuming_decodeRound g)
  rw [decodeRound, getFixed_tagged]
  simp only [ZoneFileTag.ofNat?_toNat, h]

theorem consume_nil (g : Geometry) (f : ZoneFile) : consume (decodeRound g) f [] = .ok f :=
  consume_end (consuming_decodeRound g) rfl

theorem readField_putFixed (hn : n < 256 ^ k) (msg : String) (set : ℕ → ZoneFile) :
    readField (getFixed k (putFixed k n ++ rest)) msg set = .ok (set n, rest) := by
  rw [getFixed_putFixed hn, readField]

section Fixed

theorem consume_fileSize (hn : n < 256 ^ 8) :
    consume (decodeRound g) f (tagged .fileSize (putFixed 8 n) ++ rest) =
      consume (decodeRound g) { f with fileSize := n } rest := by
  apply consume_tagged
  rw [readTagged, readField_putFixed hn]

theorem consume_lifetime (l : Lifetime) :
    consume (decodeRound g) f (tagged .writeLifeTimeHint (putFixed 4 l.toNat) ++ rest) =
      consume (decodeRound g) { f with lifetime := l } rest := by
  have hl : l.toNat < 256 ^ 4 := by cases l <;> decide
  apply consume_tagged
  rw [readTagged, readField_putFixed hl, lifetimeOfNat_toNat]

theorem consume_mTime (hn : n < 256 ^ 8) :
    consume (decodeRound g) f (tagged .modificationTime (putFixed 8 n) ++ rest) =
      consume (decodeRound g) { f with mTime := n } rest := by
  apply consume_tagged
  rw [readTagged, readField_putFixed hn]

theorem extentStartOfNat_toNat (ho : ∀ start, o = some start → start < noExtent) :
    extentStartOfNat (extentStartToNat o) = o := by
  cases o with
  | none => rfl
  | some start => exact if_neg (ho start rfl).ne

theorem consume_extentStart (ho : ∀ start, o = some start → start < noExtent) :
    consume (decodeRound g) f
        (tagged .activeExtentStart (putFixed 8 (extentStartToNat o)) ++ rest) =
      consume (decodeRound g) { f with extentStart := o } rest := by
  have hn : extentStartToNat o < 256 ^ 8 := by
    cases o with
    | none => decide
    | some start => exact (ho start rfl).trans (by decide)
  apply consume_tagged
  rw [readTagged, readField_putFixed hn, extentStartOfNat_toNat ho]

theorem consume_isSparse (sparse : Bool) :
    consume (decodeRound g) f ((if sparse then tagged .isSparse [] else []) ++ rest) =
      consume (decodeRound g) { f with isSparse := f.isSparse || sparse } rest := by
  cases sparse with
  | true =>
    have hread : readTagged g f ([] ++ rest) .isSparse = .ok ({ f with isSparse := true }, rest) :=
      rfl
    simpa using consume_tagged hread
  | false => simp

end Fixed

def ExtentFits (p : ℕ × ℕ) : Prop := p.1 < 256 ^ 8 ∧ p.2 < 256 ^ 8

theorem length_encodeExtent (p : ℕ × ℕ) : (encodeExtent p).length = 16 := by
  simp [encodeExtent]

theorem decodeExtentBytes_encodeExtent (hp : ExtentFits p) :
    decodeExtentBytes (encodeExtent p) = .ok p := by
  have hfst : fixedValue ((encodeExtent p).take 8) = p.1 := by
    rw [encodeExtent, List.take_left' (length_putFixed 8 p.1), fixedValue_putFixed,
      Nat.mod_eq_of_lt hp.1]
  have hsnd : fixedValue ((encodeExtent p).drop 8) = p.2 := by
    rw [encodeExtent, List.drop_left' (length_putFixed 8 p.1), fixedValue_putFixed,
      Nat.mod_eq_of_lt hp.2]
  simp only [decodeExtentBytes, hfst, hsnd]
  rfl

theorem readExtent_put (hp : ExtentFits p) :
    readExtent g f (putLengthPrefixed (encodeExtent p) ++ rest) =
      match decodeExtent g p with
      | .error s => .error s
      | .ok e => .ok ({ f with extents := f.extents ++ [e] }, rest) := by
  have hlen : (encodeExtent p).length < 2 ^ 32 := by
    rw [length_encodeExtent]
    norm_num
  rw [readExtent, getLengthPrefixed_put hlen]
  simp only [Option.getD_some, decodeExtentBytes_encodeExtent hp]

/-- The loop reads all extents that were written, or stops at one outside the zones. -/
theorem consume_encodeExtents (hl : ∀ p ∈ l, ExtentFits p) :
    consume (decodeRound g) f (encodeExtents l ++ rest) =
      match l.mapM (decodeExtent g) with
      | .error s => .error s
      | .ok exts => consume (decodeRound g) { f with extents := f.extents ++ exts } rest := by
  induction l generalizing f with
  | nil => simp [encodeExtents, pure, Except.pure]
  | cons p l ih =>
    have hsplit : encodeExtents (p :: l) ++ rest =
        tagged .extent (putLengthPrefixed (encodeExtent p)) ++ (encodeExtents l ++ rest) := by
      simp [encodeExtents]
    have hread : readTagged g f
        (putLengthPrefixed (encodeExtent p) ++ (encodeExtents l ++ rest)) .extent = _ :=
      readExtent_put (hl p (by simp))
    rw [hsplit, List.mapM_cons]
    cases he : decodeExtent g p with
    | error s =>
      rw [he] at hread
      exact consume_tagged_error hread
    | ok e =>
      rw [he] at hread
      rw [consume_tagged hread, ih fun q hq => hl q (by simp [hq])]
      cases l.mapM (decodeExtent g) with
      | error s => rfl
      | ok exts => simp [bind, Except.bind, pure, Except.pure]

theorem readName_put {n : Bytes} (hn : n.length < 2 ^ 32) :
    readName f (putLengthPrefixed n ++ rest) =
      if n.isEmpty then .error (.Corruption "ZoneFile: Zero length Linkfilename")
      else .ok ({ f with linkfiles := f.linkfiles ++ [n] }, rest) := by
  rw [readName, getLengthPrefixed_put hn]

theorem consume_encodeNames {l : List Name} (hl : ∀ n ∈ l, n.length < 2 ^ 32) :
    consume (decodeRound g) f (encodeNames l) =
      if l.any (·.isEmpty) then .error (.Corruption "ZoneFile: Zero length Linkfilename")
      else .ok { f with linkfiles := f.linkfiles ++ l } := by
  induction l generalizing f with
  | nil => simp [encodeNames, consume_nil]
  | cons n l ih =>
    have hread : readTagged g f (putLengthPrefixed n ++ encodeNames l) .linkedFilename = _ :=
      readName_put (hl n (by simp))
    show consume (decodeRound g) f
      (tagged .linkedFilename (putLengthPrefixed n) ++ encodeNames l) = _
    cases hempty : n.isEmpty with
    | true =>
      rw [hempty] at hread
      rw [consume_tagged_error hread]
      simp [hempty]
    | false =>
      rw [hempty] at hread
      rw [consume_tagged hread, ih fun m hm => hl m (by simp [hm])]
      simp [hempty]

end RoundTrip

structure ImageFitsWidth (img : FileImage) : Prop where
  fileId : img.fileId < 256 ^ 8
  fileSize : img.fileSize < 256 ^ 8
  mTime : img.mTime < 256 ^ 8
  extents : ∀ p ∈ img.extents, ExtentFits p
  extentStart : ∀ start, img.extentStart = some start → start < noExtent

/-- The object when the names are still to be read. -/
def nameless (img : FileImage) (exts : List ZoneExtent) : ZoneFile :=
  { ZoneFile.new img.fileId with
    fileSize := img.fileSize
    lifetime := img.lifetime
    extents := exts
    mTime := img.mTime
    extentStart := img.extentStart
    isSparse := img.isSparse }

theorem decodeFile_encodeImage_eq (g : Geometry) (hw : ImageFitsWidth img) :
    decodeFile g (encodeImage img) =
      match img.extents.mapM (decodeExtent g) with
      | .error s => .error s
      | .ok exts =>
        (consume (decodeRound g) (nameless img exts) (encodeNames img.linkfiles)).map
          ZoneFile.metadataSynced := by
  rw [decodeFile, encodeImage, getFixed_tagged]
  simp only [getFixed_putFixed hw.fileId]
  rw [consume_fileSize hw.fileSize, consume_lifetime, consume_encodeExtents hw.extents]
  cases hm : img.extents.mapM (decodeExtent g) with
  | error s => rfl
  | ok exts =>
    dsimp only
    rw [consume_mTime hw.mTime, consume_extentStart hw.extentStart, consume_isSparse]
    rfl

theorem decodeFile_encodeImage (g : Geometry) (hw : ImageFitsWidth img)
    (hnames : ∀ n ∈ img.linkfiles, n.length < 2 ^ 32) :
    decodeFile g (encodeImage img) = decodeFrom g img := by
  rw [decodeFile_encodeImage_eq g hw, decodeFrom]
  cases hm : img.extents.mapM (decodeExtent g) with
  | error s => rfl
  | ok exts =>
    dsimp only
    rw [consume_encodeNames hnames]
    split
    · rfl
    · simp [Except.map, ZoneFile.metadataSynced, ZoneFile.new, nameless]

/-- A first name of exactly `2 ^ 32` bytes is written with length zero. -/
theorem decodeFile_zero_length {n : Name} (g : Geometry) (hw : ImageFitsWidth img)
    (hexts : img.extents.mapM (decodeExtent g) = .ok exts)
    (hn : n.length = 2 ^ 32) (hl : img.linkfiles = n :: names) :
    decodeFile g (encodeImage img) =
      .error (.Corruption "ZoneFile: Zero length Linkfilename") := by
  have hread : readTagged g (nameless img exts) (putLengthPrefixed n ++ encodeNames names)
      .linkedFilename = .error (.Corruption "ZoneFile: Zero length Linkfilename") := by
    rw [readTagged, readName, getLengthPrefixed_put_mod, hn]
    rfl
  have hnames : encodeNames img.linkfiles =
      tagged .linkedFilename (putLengthPrefixed n) ++ encodeNames names := by
    rw [hl]
    rfl
  rw [decodeFile_encodeImage_eq g hw, hexts]
  dsimp only
  rw [hnames, consume_tagged_error hread]
  rfl

end ZenFs.Codec
