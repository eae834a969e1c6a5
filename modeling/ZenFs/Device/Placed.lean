import ZenFs.Device.Footprint
import ZenFs.Device.Zones

/-!
Statements about the placement data alone, through all programs.

Most changes of the placement data are to ranks, sizes and `max_level`, and most calls do
not change it at all. For a statement that does not depend on those, only the policies
that insert a file into the per-level lists remain to be looked at.
-/

namespace ZenFs.Device

open Library Task Judgement

variable {below level own target : ℤ} {d t : Zbd} {l upper : List Handle} {o : Call}
variable {policy : Policy}

/-- What is left of a file's information without its ranks and sizes. -/
structure Identity where
  level : ℤ
  lifetime : Lifetime
  ioType : IOType
  smallest : Key
  largest : Key
  hasKeys : Bool
  isRecorded : Bool
  isDeleted : Bool
  deriving DecidableEq

def FileInfo.identity (f : FileInfo) : Identity where
  level := f.level
  lifetime := f.lifetime
  ioType := f.ioType
  smallest := f.smallest
  largest := f.largest
  hasKeys := f.hasKeys
  isRecorded := f.isRecorded
  isDeleted := f.isDeleted

theorem FileInfo.listed_eq {f g : FileInfo} (hfg : f.identity = g.identity) :
    f.listed = g.listed := by
  have hkeys : f.hasKeys = g.hasKeys := congrArg Identity.hasKeys hfg
  have hlevel : f.level = g.level := congrArg Identity.level hfg
  have htype : f.ioType = g.ioType := congrArg Identity.ioType hfg
  rw [listed, listed, hkeys, hlevel, htype]

/-- The numbers that `UpdateMetadata` reports of a file's entries. -/
def FileInfo.counts (f : FileInfo) : ℕ × ℕ × ℕ :=
  (f.numEntries, f.numDeletions, f.numRangeDeletions)

variable {p : Placement}

namespace Placement

variable {e : Setup} {h : Handle} {q r : Placement}

/-- The lists are the same, and so are all files but for ranks and sizes. -/
structure Alike (p q : Placement) : Prop where
  lists : q.lists = p.lists
  identity : ∀ g, (q.info g).identity = (p.info g).identity

@[refl] theorem Alike.refl (p : Placement) : Alike p p := ⟨rfl, fun _ => rfl⟩

theorem Alike.trans (hpq : Alike p q) (hqr : Alike q r) : Alike p r :=
  ⟨hqr.lists.trans hpq.lists, fun g => (hqr.identity g).trans (hpq.identity g)⟩

theorem Alike.setInfo {f : FileInfo} (hf : f.identity = (p.info h).identity) :
    Alike p (p.setInfo h f) := by
  refine ⟨rfl, fun g => ?_⟩
  by_cases hg : g = h
  · subst hg
    rw [setInfo_info_self, hf]
  · rw [setInfo_info_of_ne _ _ _ hg]

/-- All is the same but for ranks and sizes, and no reported size got smaller. -/
structure Reranked (p q : Placement) : Prop extends Alike p q where
  maxLevel : q.maxLevel = p.maxLevel
  counts : ∀ g, (q.info g).counts = (p.info g).counts
  size : ∀ g, (p.info g).fileSizeMeta ≤ (q.info g).fileSizeMeta

@[refl] theorem Reranked.refl (p : Placement) : Reranked p p :=
  ⟨.refl p, rfl, fun _ => rfl, fun _ => le_rfl⟩

theorem Reranked.trans (hpq : Reranked p q) (hqr : Reranked q r) : Reranked p r where
  toAlike := hpq.toAlike.trans hqr.toAlike
  maxLevel := hqr.maxLevel.trans hpq.maxLevel
  counts g := (hqr.counts g).trans (hpq.counts g)
  size g := (hpq.size g).trans (hqr.size g)

theorem Reranked.setInfo {f : FileInfo} (hf : f.identity = (p.info h).identity)
    (hcounts : f.counts = (p.info h).counts) (hsize : (p.info h).fileSizeMeta ≤ f.fileSizeMeta) :
    Reranked p (p.setInfo h f) := by
  refine ⟨Alike.setInfo hf, rfl, fun g => ?_, fun g => ?_⟩
  all_goals
    by_cases hg : g = h
    · subst hg
      simpa only [setInfo_info_self]
    · rw [setInfo_info_of_ne _ _ _ hg]

theorem reranked_setRank (p : Placement) (h : Handle) (n : ℕ) : Reranked p (p.setRank h n) :=
  Reranked.setInfo rfl rfl le_rfl

theorem reranked_setRanks (rank : Placement → Handle → ℕ) (l : List Handle) (p : Placement) :
    Reranked p (setRanks rank l p) := by
  induction l generalizing p with
  | nil => rfl
  | cons h rest ih => exact (reranked_setRank p h _).trans (ih _)

theorem reranked_setPositions (i : ℕ) (l : List Handle) (p : Placement) :
    Reranked p (setPositions i l p) := by
  induction l generalizing i p with
  | nil => rfl
  | cons h rest ih => exact (reranked_setRank p h _).trans (ih _ _)

theorem reranked_overlapRankHelperSizeBased (p : Placement) (l : List Handle) (own target : ℤ) :
    Reranked p (p.overlapRankHelperSizeBased e l own target).1 := by
  rw [overlapRankHelperSizeBased]
  split
  · exact reranked_setRanks _ _ _
  · exact (reranked_setRanks _ _ _).trans (reranked_setPositions _ _ _)

theorem reranked_overlapRankHelperKeyBased :
    Reranked p (p.overlapRankHelperKeyBased e l own target).1 := by
  rw [overlapRankHelperKeyBased]
  split
  · exact reranked_setRanks _ _ _
  · exact reranked_setRanks _ _ _

theorem reranked_compensatedRanks (p : Placement) (l : List Handle) :
    Reranked p (p.compensatedRanks l).1 := reranked_setPositions _ _ _

theorem reranked_addUpperRanks {own : List Handle} :
    Reranked p (p.addUpperRanks e own upper) := reranked_setRanks _ _ _

theorem reranked_computeCompensatedSizes (p : Placement) (h : Handle)
    (bodies : Handle → FileBody) : Reranked p (p.computeCompensatedSizes h bodies) := by
  rw [computeCompensatedSizes]
  generalize h :: p.lists.flatten = l
  induction l generalizing p with
  | nil => rfl
  | cons g rest ih =>
    have hg : Reranked p (p.setInfo g
        ((p.info g).computeCompensatedSize p.averageValueSize (bodies g).fileSize)) :=
      Reranked.setInfo rfl rfl ((le_max_left _ _).trans (le_max_left _ _))
    exact hg.trans (ih _)

theorem alike_raiseMaxLevel : Alike p (p.raiseMaxLevel level) := by
  rw [raiseMaxLevel]
  split
  · exact ⟨rfl, fun _ => rfl⟩
  · rfl

end Placement

open Placement

variable {e : Setup} {a : Holder} {h : Handle}

theorem reranked_overlapRanking :
    Reranked p (overlapRanking e h p level below upper).1 :=
  ((reranked_overlapRankHelperSizeBased _ _ _ _).trans
    (reranked_overlapRankHelperSizeBased _ _ _ _)).trans (reranked_addUpperRanks)

theorem reranked_grandchildrenRanking (d : Zbd) : Reranked d.place (grandchildrenRanking e h d).1 :=
  (reranked_computeCompensatedSizes _ _ _).trans (reranked_overlapRanking)

theorem reranked_compensatedRanking (d : Zbd) : Reranked d.place (compensatedRanking e h d).1 :=
  (((reranked_computeCompensatedSizes _ _ _).trans (reranked_compensatedRanks _ _)).trans
    (reranked_compensatedRanks _ _)).trans (reranked_addUpperRanks)

/-- The policies that insert the file into the per-level lists. -/
def Policy.inserts : Policy → Bool
  | .sameLevelNearbyKeysSimple => true
  | .overlapChildren => true
  | .oaza => true
  | _ => false

/-- The part of the state that says which files there are. -/
structure FileTable where
  place : Placement
  created : Handle → Bool
  links : Handle → ℕ
  pins : Handle → List ℕ
  /-- `files_mtx_` is held. -/
  locked : Bool

def Zbd.fileTable (d : Zbd) : FileTable := ⟨d.place, d.created, d.links, d.pins, d.locked .files⟩

def Call.quiet : Call → Bool
  | .place _ => false
  | .setDeleted _ => false
  | .newFile _ _ => false
  | .getFile _ _ => false
  | .dropFile _ _ => false
  | .addLink _ => false
  | .removeLink _ => false
  | .lock m => m ≠ .files
  | .unlock m => m ≠ .files
  | _ => true

theorem exec_fileTable {r : o.Res} (ho : o.quiet = true)
    (hr : exec e o d = some (r, t)) : t.fileTable = d.fileTable := by
  have other : ∀ (m : Mutex) (b : Bool), m ≠ .files →
      (d.setLocked m b).fileTable = d.fileTable := by
    intro m b hm
    simp [Zbd.setLocked, Zbd.fileTable, Function.update_of_ne hm.symm]
  rw [exec_writes hr]
  cases o with
  | place | setDeleted | newFile | getFile | dropFile | addLink | removeLink => cases ho
  | lock m => exact other m true (of_decide_eq_true ho)
  | unlock m => exact other m false (of_decide_eq_true ho)
  | _ => rfl

theorem exec_place {r : o.Res} (ho : ∀ f, o ≠ .place f) (hdel : ∀ h, o ≠ .setDeleted h)
    (hr : exec e o d = some (r, t)) : t.place = d.place := by
  rw [exec_writes hr]
  cases o with
  | place f => exact absurd rfl (ho f)
  | setDeleted h => exact absurd rfl (hdel h)
  | _ => rfl

/-- Keeping a statement about the placement data. -/
abbrev placed (e : Setup) (J : Placement → Prop) : Judgement Call.Res :=
  .keeps (exec e) fun d => J d.place

variable {J : Placement → Prop}

theorem placed_call (ho : ∀ f, o ≠ .place f) (hdel : ∀ h, o ≠ .setDeleted h) :
    (placed e J).Calls o := by
  apply Keeps.op
  intro s r t hs hr
  rw [exec_place ho hdel hr]
  exact ⟨hs, trivial⟩

variable {f : Zbd → Placement × List Handle}

theorem placed_place (hf : ∀ d, J d.place → J (f d).1) :
    (placed e J).Calls (.place f) := by
  rintro s _ _ hs ⟨⟩
  exact ⟨hf s hs, trivial⟩

theorem placed_look : (placed e J).Holds look fun d => J d.place := by
  rintro s _ _ hs ⟨⟩
  exact ⟨hs, hs⟩

/-- The judgement admits all calls that do not touch the placement data. -/
def Indifferent (L : Judgement Call.Res) : Prop :=
  ∀ o : Call, (∀ f, o ≠ .place f) → (∀ h, o ≠ .setDeleted h) → L.Calls o

section Indifferent

variable {L : Judgement Call.Res} (hL : Indifferent L)
include hL

theorem Indifferent.handles : Handles a L := by
  constructor
  iterate 3 on_goal 1 => constructor
  all_goals
    intros
    exact hL _ nofun nofun

theorem Indifferent.logs : Logs a L := by
  constructor <;> intros <;> exact hL _ nofun nofun

theorem Indifferent.writes : Writes a h L := by
  constructor <;> intros <;> exact hL _ nofun nofun

theorem Indifferent.sync : L.Admits (syncFileMetadata e a h) :=
  syncFileMetadata_admits hL.handles.toSeeks hL.logs (hL _ nofun nofun) (hL _ nofun nofun)

theorem Indifferent.works (hplaces : Places e h L) : Works e a h L where
  handles := hL.handles
  writes := hL.writes
  places := hplaces
  sync := hL.sync
  append _ _ := hL _ nofun nofun
  tryAcquireWRLock := hL _ nofun nofun
  releaseWRLock := hL _ nofun nofun

theorem Indifferent.migrates
    (htake : ∀ lifetime minCapacity, L.Admits (takeMigrateZone e a h lifetime minCapacity)) :
    Migrates e a h L where
  handles := hL.handles
  take := htake
  sync := hL.sync
  append _ _ := hL _ nofun nofun
  use _ _ := hL _ nofun nofun
  body _ := hL _ nofun nofun
  tryAcquireWRLock := hL _ nofun nofun
  releaseWRLock := hL _ nofun nofun

end Indifferent

theorem indifferent_placed : Indifferent (placed e J) := fun _ ho hdel => placed_call ho hdel

theorem handles_placed : Handles a (placed e J) := indifferent_placed.handles

theorem writes_placed : Writes a h (placed e J) := indifferent_placed.writes

/-- `J` does not depend on ranks, sizes and `max_level`. -/
def Robust (J : Placement → Prop) : Prop := ∀ p q, Alike p q → J p → J q

def KeptByPolicies (e : Setup) (h : Handle) (J : Placement → Prop) : Prop :=
  ∀ p, J p → (p.info h).listed → ∀ policy : Policy, policy.inserts →
    policy = e.getPolicy (p.info h).level ∨ policy = e.getSecondaryPolicy (p.info h).level →
    ∀ f, policyChange e h policy = some f → ∀ d, J d.place → J (f d).1

theorem kept_of_not_inserts (hJ : Robust J) (hp : policy.inserts = false)
    (hf : policyChange e h policy = some f) (d : Zbd)
    (hd : J d.place) : J (f d).1 := by
  cases policy <;> cases hf <;> cases hp
  · exact hJ _ _ (reranked_grandchildrenRanking d).toAlike hd
  · exact hJ _ _ (reranked_compensatedRanking d).toAlike hd

theorem places_placed (hJ : Robust J) (hins : KeptByPolicies e h J) :
    Places e h (placed e J) where
  raiseForEmptyZone level := by
    apply placed_place
    intro d hd
    rw [raiseForEmptyZone]
    split
    · exact hJ _ _ (alike_raiseMaxLevel) hd
    · exact hd
  raiseMaxLevel := placed_place fun _ hd => hJ _ _ (alike_raiseMaxLevel) hd
  setAllocSize _ := placed_place fun _ hd => hJ _ _ (Alike.setInfo rfl) hd
  policies := by
    apply placed_look.mono
    intro d hd hl policy hlevel f hf
    apply placed_place
    cases hi : policy.inserts with
    | true => exact hins d.place hd hl policy hi hlevel f hf
    | false => exact kept_of_not_inserts hJ hi hf

theorem works_placed (hJ : Robust J) (hins : KeptByPolicies e h J) :
    Works e a h (placed e J) := indifferent_placed.works (places_placed hJ hins)

end ZenFs.Device
