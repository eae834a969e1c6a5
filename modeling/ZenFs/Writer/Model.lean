import ZenFs.Library.Coding
import ZenFs.Library.Medium
import ZenFs.Library.Steps
import ZenFs.Model.Types

/-!
A buffered writer: `ZonedWritableFile` with its buffer, over the `ZoneFile` it writes.

`BufferedAppend` and `SparseAppend` work on the memory of the buffer in place: they pad behind the
data, put the header in front of it, and move what is left to the front when a zone is full. What
the backend, the allocation of zones and the metadata log answer is part of each call.
-/

namespace ZenFs.Writer

open Library Library.Coding Library.Medium

/-- A file that is written through a buffer of `bufferSize` bytes. -/
structure Config extends Geometry where
  bufferSize : ℕ
  isSparse : Bool
  buffer_pos : 0 < bufferSize
  buffer_lt : bufferSize + sparseHeaderSize < 2 ^ 32

structure Room where
  wp : ℕ
  capacity : ℕ
  deriving DecidableEq, Repr

/-- What a flush is answered. The `n`-th round comes after the `n`-th allocation; the zone that is
allocated depends on the zones there are. Of a write that fails the number of bytes stored is
given. -/
structure Answers where
  allocate : ℕ → (ℕ → Room) → Status × Option ℕ
  persist : ℕ → Status
  write : ℕ → Status × ℕ
  close : Status

/-- The writer, its file and the device. The field `taken` is not part of the source: it has the
bytes that were copied into the buffer since the file was opened. `extentStart` is `none` for
`NO_EXTENT`. -/
structure State where
  dev : ℕ → UInt8
  zones : ℕ → Room
  activeZone : Option ℕ
  extents : List ZoneExtent
  extentStart : Option ℕ
  extentFilepos : ℕ
  fileSize : ℕ
  /-- The memory from `sparse_buffer` on, or from `buffer` on if the file is not sparse. -/
  memory : ℕ → UInt8
  bufferPos : ℕ
  wp : ℕ
  isOpen : Bool
  taken : List UInt8

variable (c : Config)

/-- Where the data starts in the memory of the buffer. -/
def Config.headerSize : ℕ := if c.isSparse then sparseHeaderSize else 0

/-- What the extents of the file lead to on the device. -/
def State.contents (s : State) : List UInt8 :=
  s.extents.flatMap fun x => span s.dev x.start x.length

def State.buffered (s : State) : List UInt8 := span s.memory c.headerSize s.bufferPos

def allocateNewZone (env : Answers) (n : ℕ) (s : State) : Status × State :=
  let (status, zone) := env.allocate n s.zones
  if !status.ok then (status, s)
  else
    match zone with
    | none => (.NoSpace "Zone allocation failure\n", s)
    | some z =>
      (env.persist n, { s with
        activeZone := some z, extentStart := some (s.zones z).wp, extentFilepos := s.fileSize })

def closeActiveZone (env : Answers) (s : State) : Status × State :=
  match s.activeZone with
  | none => (.OK, s)
  | some z =>
    let zone := s.zones z
    (if zone.wp = c.start z ∨ zone.capacity = 0 then .OK else env.close,
      { s with activeZone := none })

def appendZone (answer : Status × ℕ) (z : ℕ) (data : List UInt8) (s : State) : Status × State :=
  let zone := s.zones z
  if zone.capacity < data.length then (.NoSpace "Not enough capacity for append", s)
  else
    let stored := if answer.1.ok then data else data.take (min answer.2 (data.length - 1))
    (if answer.1.ok then .OK else answer.1,
      { s with
        dev := put s.dev zone.wp stored
        zones := Function.update s.zones z
          ⟨zone.wp + stored.length, zone.capacity - stored.length⟩ })

structure Segment where
  wrSize : ℕ
  padSize : ℕ
  length : ℕ

def segment (left capacity : ℕ) : Segment :=
  let wrSize := min (left + c.headerSize) capacity
  ⟨wrSize, padTo c.blockSize wrSize, (wrSize + (2 ^ 32 - c.headerSize)) % 2 ^ 32⟩

def fill (g : Segment) (memory : ℕ → UInt8) : ℕ → UInt8 :=
  let memory := put memory g.wrSize (List.replicate g.padSize 0)
  if c.isSparse then put memory 0 (putFixed 8 g.length) else memory

def writeSegment (answer : Status × ℕ) (g : Segment) (z : ℕ) (s : State) : Status × State :=
  let s := { s with memory := fill c g s.memory }
  appendZone answer z (span s.memory 0 (g.wrSize + g.padSize)) s

def pushSegment (g : Segment) (z : ℕ) (s : State) : State :=
  { s with
    extents := s.extents ++ [⟨s.extentStart.getD (2 ^ 64 - 1) + c.headerSize, g.length, z⟩]
    extentStart := some (s.zones z).wp
    fileSize := s.fileSize + g.length }

def moveLeft (wrSize left : ℕ) (s : State) : State :=
  if left = 0 then s
  else { s with memory := put s.memory c.headerSize (span s.memory wrSize left) }

def nextZone (env : Answers) (n : ℕ) (g : Segment) (left : ℕ) (s : State) : Status × State :=
  let (status, s) := closeActiveZone c env s
  if !status.ok then (status, s) else allocateNewZone env n (moveLeft c g.wrSize left s)

/-- The rounds of `BufferedAppend` and `SparseAppend`, at most `fuel` of them. There is no result
when they have not ended. -/
def rounds (env : Answers) : (fuel n left : ℕ) → State → Option (Status × State)
  | 0, _, _, _ => none
  | fuel + 1, n, left, s =>
    if left = 0 then some (.OK, s)
    else
      match s.activeZone with
      | none => none
      | some z =>
        let g := segment c left (s.zones z).capacity
        let (status, s) := writeSegment c (env.write n) g z s
        if !status.ok then some (status, s)
        else
          let s := pushSegment c g z s
          if (s.zones z).capacity ≠ 0 then rounds env fuel (n + 1) (left - g.length) s
          else
            let (status, s) := nextZone c env (n + 1) g (left - g.length) s
            if !status.ok then some (status, s)
            else rounds env fuel (n + 1) (left - g.length) s

def appendBuffer (env : Answers) (fuel : ℕ) (s : State) : Option (Status × State) :=
  let (status, t) := if s.activeZone.isNone then allocateNewZone env 0 s else (.OK, s)
  if !status.ok then some (status, t) else rounds c env fuel 0 s.bufferPos t

def flushBuffer (env : Answers) (fuel : ℕ) (s : State) : Option (Status × State) :=
  if s.bufferPos = 0 then some (.OK, s)
  else
    (appendBuffer c env fuel s).map fun (status, t) =>
      if !status.ok then (status, t)
      else (.OK, { t with wp := t.wp + t.bufferPos, bufferPos := 0 })

def copyIn (data : List UInt8) (s : State) : State :=
  { s with
    memory := put s.memory (c.headerSize + s.bufferPos) data
    bufferPos := s.bufferPos + data.length
    taken := s.taken ++ data }

def bufferedWrite (env : ℕ → Answers) (fuel : ℕ) :
    (rounds k : ℕ) → List UInt8 → State → Option (Status × State)
  | 0, _, _, _ => none
  | rounds + 1, k, data, s =>
    if data = [] then some (.OK, s)
    else
      (if s.bufferPos = c.bufferSize then flushBuffer c (env k) fuel s else some (.OK, s)).bind
        fun (status, s) =>
          if !status.ok then some (status, s)
          else
            let toBuffer := min data.length (c.bufferSize - s.bufferPos)
            bufferedWrite env fuel rounds (k + 1) (data.drop toBuffer)
              (copyIn c (data.take toBuffer) s)

/-- `DataSync`; `persisted` is the answer to the metadata write of a file that is not sparse. -/
def dataSync (env : Answers) (persisted : Status) (fuel : ℕ) (s : State) :
    Option (Status × State) :=
  (flushBuffer c env fuel s).map fun (status, t) =>
    if !status.ok then (status, t)
    else if c.isSparse then (.OK, t)
    else (persisted, t)

def closeWR (env : Answers) (persisted : Status) (s : State) : Status × State :=
  let s := { s with extentStart := none }
  if !persisted.ok then (persisted, s) else closeActiveZone c env s

/-- `CloseInternal`; `persisted` and `closed` are the answers to the metadata writes of `DataSync`
and `CloseWR`. -/
def closeInternal (env : Answers) (persisted closed : Status) (fuel : ℕ) (s : State) :
    Option (Status × State) :=
  if !s.isOpen then some (.OK, s)
  else
    (dataSync c env persisted fuel s).map fun (status, t) =>
      if !status.ok then (status, t)
      else
        let (status, t) := closeWR c env closed t
        if !status.ok then (status, t) else (status, { t with isOpen := false })

inductive Action
  | append (data : List UInt8) (env : ℕ → Answers)
  /-- `Sync`, and `Fsync` of a file that is not sparse. -/
  | sync (env : Answers) (persisted : Status)
  | close (env : Answers) (persisted closed : Status)
  /-- Other files are written, finished, deleted and created, and zones are reset. -/
  | others (zones : ℕ → Room) (dev : ℕ → UInt8)

def perform (fuel : ℕ) (s : State) : Action → Option (Status × State)
  | .append data env => bufferedWrite c env fuel (data.length + 1) 0 data s
  | .sync env persisted => dataSync c env persisted fuel s
  | .close env persisted closed => closeInternal c env persisted closed fuel s
  | .others zones dev => some (.OK, { s with zones := zones, dev := dev })

/-- One step of a run; there is no successor when a loop does not end. -/
def step (s : State) (a : Action × ℕ) : Option State := (perform c a.2 s a.1).map (·.2)

def State.opened (zones : ℕ → Room) (dev memory : ℕ → UInt8) : State where
  dev := dev
  zones := zones
  activeZone := none
  extents := []
  extentStart := none
  extentFilepos := 0
  fileSize := 0
  memory := memory
  bufferPos := 0
  wp := 0
  isOpen := true
  taken := []

end ZenFs.Writer
