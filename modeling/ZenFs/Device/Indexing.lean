import ZenFs.Device.Lists
import ZenFs.Device.Matches

/-!
The indexes at which the policies read `levelwise_file_list_`.

The vector grows when a file is recorded, while `max_level` grows when a zone is allocated for
one, and the policies walk down to `max_level`. Here they are written once more with every
access checked: without a list at the index there is no result.
-/

namespace ZenFs.Device

open Library Task List Option Bool

variable {asked upper : Bool} {below level : ℤ} {f : Zbd → Placement × List Handle} {n : ℕ}
variable {policy : Policy} {r : Placement × List Handle}

namespace Placement

section Definitions

variable (e : Setup) (p : Placement) (h : Handle)

/-- `levelwise_file_list_[level]`, which is undefined outside the vector. -/
def index? (level : ℤ) : Option (List Handle) :=
  if level < 0 then none else p.lists[level.toNat]?

def getOverlappingFiles? (level : ℤ) : Option (List Handle) :=
  if !p.hasLevel level then some []
  else (p.index? level).map fun files => files.filter fun g => h ≠ g && p.isOverlapping e h g

def getOverlapFileCount? (level : ℤ) : Option ℕ :=
  (p.getOverlappingFiles? e h level).map List.length

def getOverlapByteCount? (level : ℤ) : Option ℕ :=
  (p.getOverlappingFiles? e h level).map fun files =>
    u64 (files.map fun g => (p.info g).fileSizeMeta).sum

def getOverlapKeyCount? (level : ℤ) : Option ℕ :=
  (p.getOverlappingFiles? e h level).map fun files =>
    u64 (files.map fun g => (p.info g).numEntries).sum

def getSameLevelFiles? (level : ℤ) : Option (List Handle) :=
  if !p.hasLevel level then some [] else p.index? level

def addZoneFileRecord? : Option Placement :=
  if !(p.info h).listed then some p
  else
    let level := (p.info h).level
    let q := { p with lists := resize p.lists (level.toNat + 1) }
    (q.index? level).map fun files =>
      { q with lists := q.lists.set level.toNat (p.insertRecord e h files) }

def trivialMoves? : ℕ → ℤ → Option ℤ
  | 0, level => some level
  | n + 1, level => do
    if (← p.getOverlapFileCount? e h (level + 1)) ≠ 0 then return level
    else trivialMoves? n (level + 1)

def sunkLevel? : Option ℤ :=
  let level := (p.info h).level
  p.trivialMoves? e h (p.maxLevel - level).toNat level

def setRanks? (rank : Placement → Handle → Option ℕ) : List Handle → Placement → Option Placement
  | [], p => some p
  | h :: rest, p => do setRanks? rank rest (p.setRank h (← rank p h))

def overlapRankHelperSizeBased? (container : List Handle) (own target : ℤ) :
    Option (Placement × List Handle) :=
  if !p.hasLevel own || !p.hasLevel target then
    some (setRanks (fun _ _ => 0) container p, container)
  else do
    let q ← setRanks? (fun q h => do
      return u64 ((← q.getOverlapByteCount? e h target) * 1024) / (q.info h).compensatedFileSize)
      container p
    let sorted := q.sortByRank container
    return (setPositions 0 sorted q, sorted)

def overlapRankHelperKeyBased? (container : List Handle) (own target : ℤ) :
    Option (Placement × List Handle) :=
  if !p.hasLevel own || !p.hasLevel target then
    some (setRanks (fun _ _ => 0) container p, container)
  else do
    let q ← setRanks? (fun q h => do
      return u64 ((← q.getOverlapKeyCount? e h target) * 1024) / (q.info h).numEntries) container p
    return (q, q.sortByRank container)

def ownLevel? (level : ℤ) : Option (List Handle) :=
  (p.index? level).map fun files => h :: files.filter (· ≠ h)

def upperLevel? (asked : Bool) (level : ℤ) : Option (List Handle) :=
  if asked then (p.index? (level - 1)).map fun files => files.filter (· ≠ h) else some []

end Definitions

end Placement

section Policies

variable (e : Setup) (h : Handle)

def overlapRanking? (p : Placement) (level below : ℤ) (upper : Bool) :
    Option (Placement × List Handle) := do
  let own ← p.ownLevel? h level
  let (p, own) ← p.overlapRankHelperSizeBased? e own level (level + below)
  let above ← p.upperLevel? h upper level
  let (p, above) ← p.overlapRankHelperSizeBased? e above (level - 1) (level - 1 + below)
  let p := p.addUpperRanks e own above
  return (p, p.sortByRank own)

def cazaFiles? (p : Placement) : Option (List Handle) := do
  let level := (p.info h).level
  let overlap (l : ℤ) : Option (List Handle) :=
    if e.getPolicy l = .caza ∨ e.getSecondaryPolicy l = .caza then p.getOverlappingFiles? e h l
    else some []
  let files := (← overlap (level - 1)) ++ (← overlap (level + 1))
  -- the files of level 0 are fetched and not used
  let _ ← (if level = 0 then p.getSameLevelFiles? 0 else some [])
  return files

def nearbyFiles? (p : Placement) : Option (List Handle) := do
  let level := (p.info h).level
  if !p.hasLevel level then return []
  else
    let files ← p.getSameLevelFiles? level
    -- the second loop runs to the size of the list, not of the copy
    let _ ← p.index? level
    return files

def simpleRanking? (d : Zbd) : Option (Placement × List Handle) :=
  let level := (d.place.info h).level
  if !d.place.hasLevel level then some (d.place, [])
  else do
    let p ← (d.place.removeZoneFileRecord h).addZoneFileRecord? e h
    return (p, ← p.index? level)

def childrenRanking? (d : Zbd) : Option (Placement × List Handle) := do
  let p := d.place.computeCompensatedSizes h d.bodies
  let level ← p.sunkLevel? e h
  let p ← (if level > (p.info h).level then
      ((p.removeZoneFileRecord h).setLevel h level).addZoneFileRecord? e h
    else some p)
  if !p.hasLevel level then return (p, []) else overlapRanking? e h p level 1 (level - 1 ≥ 0)

def grandchildrenRanking? (d : Zbd) : Option (Placement × List Handle) := do
  let p := d.place.computeCompensatedSizes h d.bodies
  let level ← p.sunkLevel? e h
  overlapRanking? e h p level 2 (level - 1 > 0)

def compensatedRanking? (d : Zbd) : Option (Placement × List Handle) := do
  let p := d.place.computeCompensatedSizes h d.bodies
  let level ← p.sunkLevel? e h
  let (p, own) := p.compensatedRanks (← p.ownLevel? h level)
  let (p, above) := p.compensatedRanks (← p.upperLevel? h (level - 1 > 0) level)
  let p := p.addUpperRanks e own above
  return (p, p.sortByRank own)

def oazaRanking? (d : Zbd) : Option (Placement × List Handle) := do
  let p := d.place.computeCompensatedSizes h d.bodies
  let level := (p.info h).level
  if !p.hasLevel level then return (p, [])
  else if level < p.maxLevel ∧ (← p.getOverlapFileCount? e h (level + 1)) = 0 then
    return (← ((p.removeZoneFileRecord h).setLevel h (level + 1)).addZoneFileRecord? e h, [])
  else if level = p.maxLevel ∧ (← p.getOverlapFileCount? e h (level - 1)) = 0 then
    return (p, [])
  else
    p.overlapRankHelperKeyBased? e (← p.ownLevel? h level) level
      (if level < p.maxLevel then level + 1 else level - 1)

/-- What a policy reads of the lists and does to them: nothing if it is not one of those below,
and nothing is defined if it has no entry in `function_map`. -/
def checkedRanking (policy : Policy) (d : Zbd) : Option (Placement × List Handle) :=
  match policy with
  | .caza => (cazaFiles? e h d.place).map fun files => (d.place, files)
  | .sameLevelNearbyKeys => (nearbyFiles? h d.place).map fun files => (d.place, files)
  | .sameLevelNearbyKeysSimple => simpleRanking? e h d
  | .overlapChildren => childrenRanking? e h d
  | .overlapGrandchildren => grandchildrenRanking? e h d
  | .compensatedSize => compensatedRanking? e h d
  | .oaza => oazaRanking? e h d
  | .leveledLifetimeBased | .userDefined => none
  | _ => some (d.place, [])

end Policies

namespace Placement

variable {e : Setup} {p : Placement} {h : Handle}

theorem index?_of_hasLevel (hl : p.hasLevel level = true) :
    p.index? level = some (p.listOf level) := by
  simp only [hasLevel, and_eq_true, decide_eq_true_eq] at hl
  rw [index?, listOf, if_neg (by omega), if_neg (by omega), getElem?_eq_getElem hl.2]
  rfl

theorem index?_of_not_hasLevel (hl : p.hasLevel level = false) : p.index? level = none := by
  rw [index?]
  split
  · rfl
  · next hneg =>
    simpa [hasLevel, Int.not_lt.mp hneg] using hl

@[simp] theorem getOverlappingFiles?_eq :
    p.getOverlappingFiles? e h level = some (p.getOverlappingFiles e h level) := by
  cases hl : p.hasLevel level with
  | true => simp [getOverlappingFiles?, getOverlappingFiles, hl, index?_of_hasLevel hl]
  | false => simp [getOverlappingFiles?, getOverlappingFiles, hl, listOf_of_not_hasLevel hl]

@[simp] theorem getOverlapFileCount?_eq :
    p.getOverlapFileCount? e h level = some (p.getOverlapFileCount e h level) := by
  rw [getOverlapFileCount?, getOverlappingFiles?_eq]
  rfl

@[simp] theorem getOverlapByteCount?_eq :
    p.getOverlapByteCount? e h level = some (p.getOverlapByteCount e h level) := by
  rw [getOverlapByteCount?, getOverlappingFiles?_eq]
  rfl

@[simp] theorem getOverlapKeyCount?_eq :
    p.getOverlapKeyCount? e h level = some (p.getOverlapKeyCount e h level) := by
  rw [getOverlapKeyCount?, getOverlappingFiles?_eq]
  rfl

@[simp] theorem getSameLevelFiles?_eq : p.getSameLevelFiles? level = some (p.listOf level) := by
  cases hl : p.hasLevel level with
  | true => simp [getSameLevelFiles?, hl, index?_of_hasLevel hl]
  | false => simp [getSameLevelFiles?, hl, listOf_of_not_hasLevel hl]

@[simp] theorem addZoneFileRecord?_eq :
    p.addZoneFileRecord? e h = some (p.addZoneFileRecord e h) := by
  cases hl : (p.info h).listed with
  | false => simp [addZoneFileRecord?, addZoneFileRecord, hl]
  | true =>
    have hpos : 0 ≤ (p.info h).level := level_nonneg hl
    have hlen : (p.info h).level.toNat < (resize p.lists ((p.info h).level.toNat + 1)).length := by
      rw [length_resize]
      omega
    simp only [addZoneFileRecord?, addZoneFileRecord, hl, index?, if_neg hpos.not_gt,
      getElem?_eq_getElem hlen, modify_eq_set_getElem?]
    rfl

@[simp] theorem trivialMoves?_eq (n : ℕ) :
    p.trivialMoves? e h n level = some (p.trivialMoves e h n level) := by
  induction n generalizing level with
  | zero => rfl
  | succ n ih =>
    simp only [trivialMoves?, trivialMoves, getOverlapFileCount?_eq, bind_eq_bind,
      bind_some, ih]
    split <;> rfl

@[simp] theorem sunkLevel?_eq : p.sunkLevel? e h = some (p.sunkLevel e h) := trivialMoves?_eq _

theorem setRanks?_eq {rank? : Placement → Handle → Option ℕ} {rank : Placement → Handle → ℕ}
    (hrank : ∀ q g, rank? q g = some (rank q g)) (l : List Handle) (p : Placement) :
    setRanks? rank? l p = some (setRanks rank l p) := by
  induction l generalizing p with
  | nil => rfl
  | cons g rest ih =>
    rw [setRanks?, hrank]
    exact ih _

@[simp] theorem overlapRankHelperSizeBased?_eq (l : List Handle) (own target : ℤ) :
    p.overlapRankHelperSizeBased? e l own target =
      some (p.overlapRankHelperSizeBased e l own target) := by
  rw [overlapRankHelperSizeBased?, overlapRankHelperSizeBased]
  split
  · rfl
  · have hrank (q : Placement) (g : Handle) : (do
        return u64 ((← q.getOverlapByteCount? e g target) * 1024) /
          (q.info g).compensatedFileSize : Option ℕ) =
        some (u64 (q.getOverlapByteCount e g target * 1024) / (q.info g).compensatedFileSize) := by
      rw [getOverlapByteCount?_eq]
      rfl
    rw [setRanks?_eq hrank]
    rfl

@[simp] theorem overlapRankHelperKeyBased?_eq (l : List Handle) (own target : ℤ) :
    p.overlapRankHelperKeyBased? e l own target =
      some (p.overlapRankHelperKeyBased e l own target) := by
  rw [overlapRankHelperKeyBased?, overlapRankHelperKeyBased]
  split
  · rfl
  · have hrank (q : Placement) (g : Handle) : (do
        return u64 ((← q.getOverlapKeyCount? e g target) * 1024) / (q.info g).numEntries :
          Option ℕ) =
        some (u64 (q.getOverlapKeyCount e g target * 1024) / (q.info g).numEntries) := by
      rw [getOverlapKeyCount?_eq]
      rfl
    rw [setRanks?_eq hrank]
    rfl

theorem hasLevel_pred (hl : p.hasLevel level = true) (hpos : 0 ≤ level - 1) :
    p.hasLevel (level - 1) = true := by
  simp only [hasLevel, and_eq_true, decide_eq_true_eq] at hl ⊢
  omega

theorem length_le_addZoneFileRecord : p.lists.length ≤ (p.addZoneFileRecord e h).lists.length := by
  rw [addZoneFileRecord]
  split
  · rfl
  · rw [length_modify, length_resize]
    exact le_max_left _ _

section

variable (hl : p.hasLevel level = true)
include hl

theorem hasLevel_removeAdd :
    ((p.removeZoneFileRecord h).addZoneFileRecord e h).hasLevel level = true := by
  have hlen := length_le_addZoneFileRecord (e := e) (p := p.removeZoneFileRecord h) (h := h)
  simp only [removeZoneFileRecord, length_map] at hlen
  simp only [hasLevel, and_eq_true, decide_eq_true_eq] at hl ⊢
  exact ⟨hl.1, hl.2.trans_le hlen⟩

theorem ownLevel?_of_hasLevel :
    p.ownLevel? h level = some (p.ownLevel h level) := by
  rw [ownLevel?, index?_of_hasLevel hl]
  rfl

theorem upperLevel?_of_hasLevel (hasked : asked = true → 0 ≤ level - 1) :
    p.upperLevel? h asked level = some (if asked then upperLevel h p level else []) := by
  cases asked with
  | false => rfl
  | true =>
    rw [upperLevel?, index?_of_hasLevel (hasLevel_pred hl (hasked rfl))]
    rfl

end

end Placement

open Placement

variable {e : Setup} {h : Handle} {p : Placement} {d : Zbd}

theorem overlapRanking?_of_hasLevel
    (hl : p.hasLevel level = true) (hupper : upper = true → 0 ≤ level - 1) :
    overlapRanking? e h p level below upper =
      some (overlapRanking e h p level below (if upper then upperLevel h p level else [])) := by
  have hrank := (reranked_overlapRankHelperSizeBased (e := e) p (p.ownLevel h level) level
    (level + below)).toAlike
  have hlq := hl
  rw [← (hrank.hasLevel level)] at hlq
  have hupperq : upperLevel h (p.overlapRankHelperSizeBased e (p.ownLevel h level) level
      (level + below)).1 level = upperLevel h p level := by
    rw [upperLevel, upperLevel, hrank.listOf]
  simp [overlapRanking?, ownLevel?_of_hasLevel hl, upperLevel?_of_hasLevel hlq hupper, hupperq,
    overlapRanking]

theorem overlapRanking?_of_not_hasLevel (hl : p.hasLevel level = false) (below : ℤ)
    (upper : Bool) : overlapRanking? e h p level below upper = none := by
  simp [overlapRanking?, ownLevel?, index?_of_not_hasLevel hl]

theorem cazaFiles?_eq : cazaFiles? e h p = some (cazaFiles e h p) := by
  have hoverlap (l : ℤ) : (if e.getPolicy l = .caza ∨ e.getSecondaryPolicy l = .caza then
      p.getOverlappingFiles? e h l else some []) = some (if e.getPolicy l = .caza ∨
        e.getSecondaryPolicy l = .caza then p.getOverlappingFiles e h l else []) := by
    rw [getOverlappingFiles?_eq]
    split <;> rfl
  simp only [cazaFiles?, hoverlap, getSameLevelFiles?_eq]
  by_cases hzero : (p.info h).level = 0
  · rw [if_pos hzero]
    rfl
  · rw [if_neg hzero]
    rfl

theorem nearbyFiles?_eq : nearbyFiles? h p = some (p.listOf (p.info h).level) := by
  rw [nearbyFiles?]
  cases hl : p.hasLevel (p.info h).level with
  | true => simp [index?_of_hasLevel hl]
  | false => simp [listOf_of_not_hasLevel hl]

theorem simpleRanking?_eq : simpleRanking? e h d = some (simpleRanking e h d) := by
  rw [simpleRanking?, simpleRanking]
  cases hl : d.place.hasLevel (d.place.info h).level with
  | false => rfl
  | true => simp [index?_of_hasLevel (hasLevel_removeAdd hl)]

theorem childrenRanking?_eq : childrenRanking? e h d = some (childrenRanking e h d) := by
  simp only [childrenRanking?, childrenRanking, sunkLevel?_eq, addZoneFileRecord?_eq]
  generalize d.place.computeCompensatedSizes h d.bodies = p
  have hsink : (if p.sunkLevel e h > (p.info h).level then
      some (((p.removeZoneFileRecord h).setLevel h (p.sunkLevel e h)).addZoneFileRecord e h)
    else some p) = some (p.sink e h) := by
    rw [sink]
    split <;> rfl
  simp only [bind_eq_bind, bind_some, hsink]
  cases hl : (p.sink e h).hasLevel (p.sunkLevel e h) with
  | false => rfl
  | true =>
    simp only [Bool.not_true, Bool.false_eq_true, if_false]
    rw [overlapRanking?_of_hasLevel hl of_decide_eq_true]
    simp only [decide_eq_true_eq]

theorem grandchildrenRanking?_eq (hl : d.place.hasLevel (d.place.sunkLevel e h) = true) :
    grandchildrenRanking? e h d = some (grandchildrenRanking e h d) := by
  have hr := (reranked_computeCompensatedSizes d.place h d.bodies).unmoved h
  rw [← hr.hasLevel, ← hr.sunkLevel] at hl
  simp only [grandchildrenRanking?, grandchildrenRanking, sunkLevel?_eq, bind_eq_bind,
    bind_some]
  rw [overlapRanking?_of_hasLevel hl fun hupper => (of_decide_eq_true hupper).le]
  simp only [decide_eq_true_eq]

theorem grandchildrenRanking?_eq_none (hl : d.place.hasLevel (d.place.sunkLevel e h) = false) :
    grandchildrenRanking? e h d = none := by
  have hr := (reranked_computeCompensatedSizes d.place h d.bodies).unmoved h
  rw [← hr.hasLevel, ← hr.sunkLevel] at hl
  simp only [grandchildrenRanking?, sunkLevel?_eq]
  exact overlapRanking?_of_not_hasLevel hl _ _

theorem compensatedRanking?_eq (hl : d.place.hasLevel (d.place.sunkLevel e h) = true) :
    compensatedRanking? e h d = some (compensatedRanking e h d) := by
  have hr := (reranked_computeCompensatedSizes d.place h d.bodies).unmoved h
  rw [← hr.hasLevel, ← hr.sunkLevel] at hl
  simp only [compensatedRanking?, compensatedRanking, sunkLevel?_eq, bind_eq_bind,
    bind_some, ownLevel?_of_hasLevel hl]
  generalize d.place.computeCompensatedSizes h d.bodies = p at hl ⊢
  have hrank := (reranked_compensatedRanks p (p.ownLevel h (p.sunkLevel e h))).toAlike
  rw [← hrank.hasLevel] at hl
  rw [upperLevel?_of_hasLevel hl fun hupper => (of_decide_eq_true hupper).le]
  simp only [decide_eq_true_eq]
  rfl

theorem compensatedRanking?_eq_none (hl : d.place.hasLevel (d.place.sunkLevel e h) = false) :
    compensatedRanking? e h d = none := by
  have hr := (reranked_computeCompensatedSizes d.place h d.bodies).unmoved h
  rw [← hr.hasLevel, ← hr.sunkLevel] at hl
  simp [compensatedRanking?, ownLevel?, index?_of_not_hasLevel hl]

theorem oazaRanking?_eq : oazaRanking? e h d = some (oazaRanking e h d) := by
  simp only [oazaRanking?, oazaRanking, getOverlapFileCount?_eq, addZoneFileRecord?_eq,
    overlapRankHelperKeyBased?_eq]
  generalize d.place.computeCompensatedSizes h d.bodies = p
  cases hl : p.hasLevel (p.info h).level with
  | false => rfl
  | true =>
    simp only [ownLevel?_of_hasLevel hl, Bool.not_true, Bool.false_eq_true, if_false,
      bind_eq_bind, bind_some]
    split
    · rfl
    · split <;> rfl

/-- A checked policy that returns does what the unchecked one does. -/
theorem checkedRanking_eq (hf : policyChange e h policy = some f)
    (hr : checkedRanking e h policy d = some r) : r = f d := by
  cases policy <;> cases hf
  · exact some.inj (hr.symm.trans simpleRanking?_eq)
  · exact some.inj (hr.symm.trans childrenRanking?_eq)
  · cases hl : d.place.hasLevel (d.place.sunkLevel e h) with
    | true => exact some.inj (hr.symm.trans (grandchildrenRanking?_eq hl))
    | false => exact absurd (hr.symm.trans (grandchildrenRanking?_eq_none hl)) nofun
  · cases hl : d.place.hasLevel (d.place.sunkLevel e h) with
    | true => exact some.inj (hr.symm.trans (compensatedRanking?_eq hl))
    | false => exact absurd (hr.symm.trans (compensatedRanking?_eq_none hl)) nofun
  · exact some.inj (hr.symm.trans oazaRanking?_eq)

/-- The walk of the file down the levels ends inside the vector: its own level and `max_level`
are in it, or a file of a lower level is in the way. -/
def Placement.SinksInside (e : Setup) (p : Placement) (h : Handle) : Prop :=
  p.hasLevel (max (p.info h).level p.maxLevel) = true ∨
    ∃ level, (p.info h).level < level ∧ level ≤ p.maxLevel ∧ p.getOverlapFileCount e h level ≠ 0

theorem hasLevel_of_overlap (hcount : p.getOverlapFileCount e h level ≠ 0) :
    p.hasLevel level = true := by
  by_contra hl
  rw [not_eq_true] at hl
  simp [getOverlapFileCount, getOverlappingFiles, listOf_of_not_hasLevel hl] at hcount

/-- The walk ends inside the vector if it has room below, or a file is in the way. -/
theorem hasLevel_trivialMoves_iff (hpos : 0 ≤ level) :
    p.hasLevel (p.trivialMoves e h n level) = true ↔ p.hasLevel (level + n) = true ∨
      ∃ m, level < m ∧ m ≤ level + n ∧ p.getOverlapFileCount e h m ≠ 0 := by
  induction n generalizing level with
  | zero =>
    simp only [Nat.cast_zero, add_zero]
    refine ⟨.inl, ?_⟩
    rintro (hl | ⟨m, hlt, hle, -⟩)
    · exact hl
    · omega
  | succ n ih =>
    rw [trivialMoves]
    split
    · next hcount =>
      have hnext := hasLevel_of_overlap hcount
      have hown : p.hasLevel level = true := by
        have hpred := hasLevel_pred hnext (by omega)
        rwa [add_sub_cancel_right] at hpred
      exact ⟨fun _ => .inr ⟨level + 1, by omega, by omega, hcount⟩, fun _ => hown⟩
    · next hcount =>
      have hlast : level + 1 + (n : ℤ) = level + (n + 1 : ℕ) := by omega
      rw [ih (by omega), hlast]
      apply or_congr_right
      constructor
      · rintro ⟨m, hlt, hle, hm⟩
        exact ⟨m, by omega, hle, hm⟩
      · rintro ⟨m, hlt, hle, hm⟩
        have hne : m ≠ level + 1 := fun hm' => hcount (hm' ▸ hm)
        exact ⟨m, by omega, hle, hm⟩

theorem hasLevel_sunkLevel_iff (hpos : 0 ≤ (p.info h).level) :
    p.hasLevel (p.sunkLevel e h) = true ↔ p.SinksInside e h := by
  rw [sunkLevel, hasLevel_trivialMoves_iff hpos]
  have hmax : (p.info h).level + ((p.maxLevel - (p.info h).level).toNat : ℤ) =
      max (p.info h).level p.maxLevel := by omega
  rw [hmax]
  apply or_congr_right
  constructor
  · rintro ⟨m, hlt, hle, hm⟩
    exact ⟨m, hlt, by omega, hm⟩
  · rintro ⟨m, hlt, hle, hm⟩
    exact ⟨m, hlt, by omega, hm⟩

/-- A policy that is run for a file of the lists has a function and reads the lists inside the
vector exactly if it is not one of the two without a function and, for the two that do not test
the level they walked down to, the walk ends inside the vector. -/
theorem checkedRanking_isSome_iff (policy : Policy) (hlisted : (d.place.info h).listed = true) :
    (checkedRanking e h policy d).isSome ↔ policy.implemented = true ∧
      (policy = .overlapGrandchildren ∨ policy = .compensatedSize → d.place.SinksInside e h) := by
  rw [← hasLevel_sunkLevel_iff (level_nonneg hlisted)]
  cases policy with
  | overlapGrandchildren =>
    cases hl : d.place.hasLevel (d.place.sunkLevel e h) with
    | true => simp [checkedRanking, grandchildrenRanking?_eq hl, Policy.implemented]
    | false => simp [checkedRanking, grandchildrenRanking?_eq_none hl]
  | compensatedSize =>
    cases hl : d.place.hasLevel (d.place.sunkLevel e h) with
    | true => simp [checkedRanking, compensatedRanking?_eq hl, Policy.implemented]
    | false => simp [checkedRanking, compensatedRanking?_eq_none hl]
  | caza => simp [checkedRanking, cazaFiles?_eq, Policy.implemented]
  | sameLevelNearbyKeys => simp [checkedRanking, nearbyFiles?_eq, Policy.implemented]
  | sameLevelNearbyKeysSimple => simp [checkedRanking, simpleRanking?_eq, Policy.implemented]
  | overlapChildren => simp [checkedRanking, childrenRanking?_eq, Policy.implemented]
  | oaza => simp [checkedRanking, oazaRanking?_eq, Policy.implemented]
  | _ => simp [checkedRanking, Policy.implemented]

theorem checkedRanking_busyDevice : (busyDevice.place.info 1).listed = true ∧
    (checkedRanking (fourZones .caza) 1 .overlapGrandchildren busyDevice).isSome ∧
    (checkedRanking (fourZones .caza) 4 .overlapChildren busyDevice).isSome :=
  ⟨by decide, (checkedRanking_isSome_iff .overlapGrandchildren (by decide)).mpr ⟨rfl, fun _ => .inl (by decide)⟩,
    (checkedRanking_isSome_iff .overlapChildren (by decide)).mpr ⟨rfl, by simp⟩⟩

def placementPolicyMap : List (String × Policy) :=
  [("kLifetimeBased", .lifetimeBased), ("kLeveledLifetimeBased", .leveledLifetimeBased),
    ("kCAZA", .caza), ("kSameLevelNearbyKeys", .sameLevelNearbyKeys),
    ("kSameLevelNearbyKeysSimple", .sameLevelNearbyKeysSimple),
    ("kArrivalTimeBased", .arrivalTimeBased), ("kTombstoneDensity", .tombstoneDensity),
    ("kTombstoneTTL", .tombstoneTTL), ("kClusterTogether", .clusterTogether),
    ("kOverlapChildren", .overlapChildren), ("kOverlapGrandchildren", .overlapGrandchildren),
    ("kCompensatedSize", .compensatedSize), ("kOAZA", .oaza),
    ("kUserDefinedPlacement", .userDefined)]

/-- The first SST file, of level 0, is about to be written: `MatchOverlapGrandchildren` walks to
level 1 and reads there, with no list in the vector. And `kLeveledLifetimeBased`, which the
loader takes, leads to a call through a null pointer. -/
theorem first_file_read_outside : (smallSetup .overlapGrandchildren).Accepted ∧
    (∃ d, Reaches (step (smallSetup .overlapGrandchildren)) anyStep smallDevice d ∧
      (d.place.info 1).listed = true ∧ d.place.lists = [] ∧
      (smallSetup .overlapGrandchildren).getPolicy (d.place.info 1).level = .overlapGrandchildren ∧
      checkedRanking (smallSetup .overlapGrandchildren) 1 .overlapGrandchildren d = none) ∧
    (smallSetup .leveledLifetimeBased).Accepted ∧
    ("kLeveledLifetimeBased", .leveledLifetimeBased) ∈ placementPolicyMap ∧
    ∃ d, Reaches (step (smallSetup .leveledLifetimeBased)) anyStep smallDevice d ∧
      (d.place.info 1).listed = true ∧
      (smallSetup .leveledLifetimeBased).getPolicy (d.place.info 1).level = .leveledLifetimeBased ∧
      checkedRanking (smallSetup .leveledLifetimeBased) 1 .leveledLifetimeBased d = none := by
  refine ⟨smallSetup_accepted _, ?_, smallSetup_accepted _, by simp [placementPolicyMap], ?_⟩
  · apply Reaches.of_any_imp (P := fun d => (d.place.info 1).listed = true ∧ d.place.lists = [] ∧
      (smallSetup .overlapGrandchildren).getPolicy (d.place.info 1).level = .overlapGrandchildren ∧
      (checkedRanking (smallSetup .overlapGrandchildren) 1 .overlapGrandchildren d).isNone = true)
      (openSst 1 [1]) (by decide +kernel)
    intro d _ ⟨hlisted, hlists, hpolicy, hnone⟩
    exact ⟨hlisted, hlists, hpolicy, isNone_iff_eq_none.mp hnone⟩
  · apply Reaches.of_any_imp (P := fun d => (d.place.info 1).listed = true ∧
      (smallSetup .leveledLifetimeBased).getPolicy (d.place.info 1).level = .leveledLifetimeBased)
      (openSst 1 [1]) (by decide +kernel)
    exact fun d _ h => ⟨h.1, h.2, rfl⟩

end ZenFs.Device
