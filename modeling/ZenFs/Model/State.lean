import ZenFs.Library.Program
import ZenFs.Model.Catalog
import ZenFs.Model.Persisting

/-!
The state of a mounted file system and the environment it runs in.

The environment fixes the device layout and answers what the source takes from outside:
how each call of `PersistRecord` ends, what the auxiliary file system says, what time it
is. A statement about every environment is about every sequence of answers.
-/

namespace ZenFs

open Library

/-- How one call of `ZenFS::PersistRecord` ends: the record is appended, or it is not and a roll
writes a snapshot instead, or the roll finds no zone, or it fails in the new zone. -/
inductive PersistOutcome
  | appended
  | rolled
  | failed (msg : String)
  | rollFailed (msg : String)
  deriving DecidableEq, Repr

def PersistOutcome.ok : PersistOutcome → Bool
  | appended => true
  | rolled => true
  | failed _ => false
  | rollFailed _ => false

inductive AuxRequest
  | deleteFile (path : Name)
  | renameFile (source dest : Name)
  | linkFile (file link : Name)
  deriving DecidableEq, Repr

def separator : UInt8 := 47

def withSeparator (dir : Name) : Name :=
  if dir.getLast? = some separator then dir else dir ++ [separator]

def Nested (a b : Name) : Prop :=
  withSeparator a <+: withSeparator b ∨ withSeparator b <+: withSeparator a

instance (a b : Name) : Decidable (Nested a b) := inferInstanceAs (Decidable (_ ∨ _))

structure Env extends Geometry where
  persist : ℕ → PersistOutcome
  aux : ℕ → AuxRequest → Status
  /-- What `Reset` of a zone returns. -/
  reset : ℕ → Status
  clock : ℕ → ℕ
  bufferMegabytes : ℕ
  /-- A file system does not move a directory below itself, nor onto a directory that
  contains it. -/
  aux_nested : ∀ n a b, a ≠ b → Nested a b → (aux n (.renameFile a b)).ok = false

/-- The mutable part of a `Zone`; `used_capacity_` is in the catalog. -/
structure Zone where
  capacity : ℕ
  wp : ℕ
  busy : Bool
  lifetime : Lifetime
  level : ℤ
  deriving DecidableEq, Repr

/-- The metadata log. `records` are those of the zone that `meta_log_` writes to. As
long as it holds no snapshot, a mount falls back to `previous`. -/
structure MetaLog where
  records : List Record
  previous : List Record
  deriving DecidableEq, Repr

def Record.isSnapshot : Record → Bool
  | snapshot _ => true
  | _ => false

/-- The records a mount recovers from. -/
def MetaLog.durable (l : MetaLog) : List Record :=
  if l.records.any Record.isSnapshot then l.records else l.previous

/-- An open `ZonedWritableFile`; `buffer` holds the first `buffer_pos` bytes. -/
structure Writer where
  buffered : Bool
  bufferSz : ℕ
  buffer : List UInt8
  wp : ℕ
  deriving DecidableEq, Repr

structure State where
  cat : Catalog
  zones : ℕ → Zone
  dev : ℕ → UInt8
  log : MetaLog
  writers : Handle → Option Writer
  activeIoZones : ℤ
  openIoZones : ℤ
  /-- Calls made so far to `PersistRecord`, to the auxiliary file system, to `Reset` and to the
  clock. -/
  persists : ℕ
  auxCalls : ℕ
  resets : ℕ
  clockReads : ℕ

namespace State

variable (s : State)

def onCat (f : Catalog → Catalog) : State := { s with cat := f s.cat }

def getFile (name : Name) : Option Handle := s.cat.files[name]?

def zoneIsEmpty (g : Geometry) (z : ℕ) : Bool := (s.zones z).wp = g.start z

def zoneIsFull (z : ℕ) : Bool := (s.zones z).capacity = 0

def zoneIsUsed (z : ℕ) : Bool := s.cat.used z ≠ 0

def setZone (z : ℕ) (zone : Zone) : State := { s with zones := Function.update s.zones z zone }

/-- `Zone::Reset`: the zone is empty again and its blocks read as zeros. -/
def zoneReset (g : Geometry) (z : ℕ) : State :=
  { s.setZone z { s.zones z with
      wp := g.start z, capacity := g.maxCapacity z, lifetime := .notSet } with
    dev := fun a => if g.Within z a then 0 else s.dev a }

def putActiveIOZoneToken : State := { s with activeIoZones := s.activeIoZones - 1 }

end State

abbrev FsProg := Prog State

def forEach {α : Type} (body : α → FsProg Status) : List α → FsProg Status
  | [] => pure .OK
  | a :: rest => do
    let s ← body a
    if s.ok then forEach body rest else return s

/-- One round of `ResetUnusedIOZones`. A busy zone is skipped; the token of a zone that
was not full is returned. A `Reset` that fails leaves the zone as it is. -/
def resetUnusedIOZone (e : Env) (z : ℕ) : FsProg Status := do
  let s ← Prog.read id
  if !(s.zones z).busy && !s.zoneIsEmpty e.toGeometry z && !s.zoneIsUsed z then do
    let full := s.zoneIsFull z
    let st := e.reset s.resets
    Prog.modify fun s =>
      let s := { s with resets := s.resets + 1 }
      if !st.ok then s
      else if full then s.zoneReset e.toGeometry z
      else (s.zoneReset e.toGeometry z).putActiveIOZoneToken
    Prog.emit
    return st
  else return .OK

def resetUnusedIOZones (e : Env) : FsProg Status :=
  forEach (resetUnusedIOZone e) (List.range e.nrZones)

end ZenFs
