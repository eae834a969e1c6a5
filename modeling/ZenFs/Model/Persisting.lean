import ZenFs.Model.Types

/-!
`PersistRecord` and `RollMetaZoneLocked` over the steps they are made of.

The models of the log differ in what they keep of a step: the state of the file system, the
metadata zones of the device, all zones of the device, or the metadata of one file. The order of the
steps and what is done when one of them fails is the same for all of them and stands here.
-/

namespace ZenFs

/-- The steps of a roll as programs in `M`. A zone to roll to is given by a `ζ`, and a roll under
way by a `ρ`, which knows the old log object and the new one. -/
structure RollSteps (M : Type → Type) (ζ ρ : Type) where
  allocateMetaZone : M (Status × Option ζ)
  /-- The new log object takes the place of the old one. -/
  swap : ζ → M ρ
  /-- `WriteEndRecord`, if the old zone has capacity left. -/
  writeEndRecord : ρ → M Unit
  /-- `Finish`, if the old zone has capacity left. -/
  finish : ρ → M Unit
  /-- `AddRecord` of the superblock. -/
  addSuperblock : ρ → M Status
  writeSnapshotLocked : ρ → M Status
  /-- `Reset` of the old zone. -/
  reset : ρ → M Status
  /-- The old log object is destroyed. -/
  release : ρ → M Unit

namespace RollSteps

variable {M : Type → Type} [Monad M] {ζ ρ : Type} (o : RollSteps M ζ ρ)

/-- What `RollMetaZoneLocked` writes, once the new log object is in place. -/
def writeRoll (k : ρ) : M Status := do
  o.writeEndRecord k
  o.finish k
  let s ← o.addSuperblock k
  if !s.ok then return .IOError "Failed writing a new superblock"
  else
    let s ← o.writeSnapshotLocked k
    if s.ok then
      let _ ← o.reset k
      return s
    else return s

def rollMetaZoneLocked : M Status := do
  let (s, zone) ← o.allocateMetaZone
  if !s.ok then return s
  else
    match zone with
    | none => return .NoSpace "Out of metadata zones"
    | some z =>
      let k ← o.swap z
      let s ← o.writeRoll k
      o.release k
      return s

/-- `PersistRecord` with the `AddRecord` of its record. After a roll the record itself is not
written. -/
def persistRecord (addRecord : M Status) : M Status := do
  let s ← addRecord
  if s.isNoSpace then o.rollMetaZoneLocked else return s

end RollSteps

end ZenFs
