import ZenFs.Device.Placed

/-!
What adding and removing records does to the per-level lists.
-/

namespace ZenFs.Device

open Library Task List

variable {d : Zbd} {f : Zbd → Placement × List Handle} {i : ℕ} {l : ℤ}
variable {policy : Policy}

namespace Placement

variable {e : Setup} {h g : Handle} {p q r : Placement}

def recorded (p : Placement) : List Handle := p.lists.flatten

theorem insertRecord_perm (l : List Handle) : (p.insertRecord e h l).Perm (h :: l) := by
  induction l with
  | nil => rfl
  | cons x rest ih =>
    rw [insertRecord]
    split
    · exact (ih.cons x).trans (List.Perm.swap h x rest)
    · rfl

theorem flatten_modify_perm {f : List Handle → List Handle} (hf : ∀ l, (f l).Perm (h :: l))
    {lists : List (List Handle)} (hi : i < lists.length) :
    (lists.modify i f).flatten.Perm (h :: lists.flatten) := by
  induction lists generalizing i with
  | nil => cases hi
  | cons l rest ih =>
    cases i with
    | zero =>
      exact (hf l).append_right _
    | succ i =>
      exact ((ih (Nat.lt_of_succ_lt_succ hi)).append_left l).trans perm_middle

theorem flatten_resize (lists : List (List Handle)) (n : ℕ) :
    (resize lists n).flatten = lists.flatten := by
  rw [resize, flatten_append, flatten_replicate_nil, append_nil]

theorem length_resize (lists : List (List Handle)) (n : ℕ) :
    (resize lists n).length = max lists.length n := by
  rw [resize, length_append, length_replicate]
  omega

theorem level_nonneg (hlisted : (p.info h).listed = true) : 0 ≤ (p.info h).level := by
  simp only [FileInfo.listed, Bool.and_eq_true, decide_eq_true_eq] at hlisted
  exact hlisted.1.2

theorem addZoneFileRecord_of_not_listed (hl : (p.info h).listed = false) :
    p.addZoneFileRecord e h = p := by
  simp [addZoneFileRecord, hl]

theorem addZoneFileRecord_perm (hl : (p.info h).listed = true) :
    (p.addZoneFileRecord e h).recorded.Perm (h :: p.recorded) := by
  simp only [addZoneFileRecord, hl, recorded]
  rw [← flatten_resize p.lists ((p.info h).level.toNat + 1)]
  apply flatten_modify_perm fun l => insertRecord_perm l
  rw [length_resize]
  omega

@[simp] theorem addZoneFileRecord_info : (p.addZoneFileRecord e h).info = p.info := by
  rw [addZoneFileRecord]
  split <;> rfl

@[simp] theorem removeZoneFileRecord_info : (p.removeZoneFileRecord h).info = p.info := rfl

theorem recorded_removeZoneFileRecord :
    (p.removeZoneFileRecord h).recorded = p.recorded.filter (· ≠ h) := by
  rw [recorded, recorded, removeZoneFileRecord, filter_flatten]

theorem Alike.recorded_eq (ha : Alike p q) : q.recorded = p.recorded := by
  rw [recorded, recorded, ha.lists]

theorem mem_removeZoneFileRecord :
    g ∈ (p.removeZoneFileRecord h).recorded ↔ g ∈ p.recorded ∧ g ≠ h := by
  simp [recorded_removeZoneFileRecord]

theorem mem_of_mem_addZoneFileRecord (hg : g ∈ (p.addZoneFileRecord e h).recorded) :
    g ∈ p.recorded ∨ g = h ∧ (p.info h).listed = true := by
  cases hl : (p.info h).listed with
  | false =>
    rw [addZoneFileRecord_of_not_listed hl] at hg
    exact .inl hg
  | true =>
    rcases mem_cons.mp ((addZoneFileRecord_perm hl).mem_iff.mp hg) with rfl | hg
    · exact .inr ⟨rfl, rfl⟩
    · exact .inl hg

theorem relevel_info_self (level : ℤ) :
    (p.relevel e h level).info h = { p.info h with level := level } := by
  simp [relevel, setLevel]

theorem relevel_self :
    p.relevel e h (p.info h).level = (p.removeZoneFileRecord h).addZoneFileRecord e h := by
  rw [relevel, setLevel, setInfo, removeZoneFileRecord_info, Function.update_eq_self]
  rfl

/-- All is the same but for ranks, sizes, how often `h` is recorded, and a `max_level` above
the level of `h`. -/
structure Unmoved (h : Handle) (p q : Placement) : Prop where
  identity : ∀ g, (q.info g).identity = (p.info g).identity
  others : ∀ level, ((q.listOf level).filter (· ≠ h)).Perm ((p.listOf level).filter (· ≠ h))
  length : q.lists.length = p.lists.length
  depth : ((q.maxLevel : ℤ) - (p.info h).level).toNat = ((p.maxLevel : ℤ) - (p.info h).level).toNat

namespace Unmoved

theorem refl (h : Handle) (p : Placement) : Unmoved h p p :=
  ⟨fun _ => rfl, fun _ => .refl _, rfl, rfl⟩

section

variable (hpq : Unmoved h p q)
include hpq

theorem level (g : Handle) : (q.info g).level = (p.info g).level :=
  congrArg Identity.level (hpq.identity g)

theorem trans (hqr : Unmoved h q r) : Unmoved h p r where
  identity g := (hqr.identity g).trans (hpq.identity g)
  others level := (hqr.others level).trans (hpq.others level)
  length := hqr.length.trans hpq.length
  depth := by rw [← hpq.depth, ← hpq.level, hqr.depth]

theorem hasLevel (level : ℤ) : q.hasLevel level = p.hasLevel level := by
  rw [Placement.hasLevel, Placement.hasLevel, hpq.length]

theorem isOverlapping : q.isOverlapping e = p.isOverlapping e := by
  have hsmallest (g : Handle) : (q.info g).smallest = (p.info g).smallest :=
    congrArg Identity.smallest (hpq.identity g)
  have hlargest (g : Handle) : (q.info g).largest = (p.info g).largest :=
    congrArg Identity.largest (hpq.identity g)
  funext g g'
  simp only [Placement.isOverlapping, hsmallest, hlargest]

theorem getOverlapFileCount (level : ℤ) :
    q.getOverlapFileCount e h level = p.getOverlapFileCount e h level := by
  have hfilter (r : Placement) : r.getOverlappingFiles e h level =
      ((r.listOf level).filter (· ≠ h)).filter (r.isOverlapping e h) := by
    rw [getOverlappingFiles, filter_filter]
    congr 1
    funext g
    rw [Bool.and_comm]
    congr 1
    exact decide_eq_decide.mpr ne_comm
  rw [Placement.getOverlapFileCount, Placement.getOverlapFileCount, hfilter, hfilter,
    hpq.isOverlapping]
  exact ((hpq.others level).filter _).length_eq

theorem sunkLevel : q.sunkLevel e h = p.sunkLevel e h := by
  have hmoves (n : ℕ) (level : ℤ) : q.trivialMoves e h n level = p.trivialMoves e h n level := by
    induction n generalizing level with
    | zero => rfl
    | succ n ih => rw [trivialMoves, trivialMoves, hpq.getOverlapFileCount, ih]
  rw [Placement.sunkLevel, Placement.sunkLevel, hpq.level, hpq.depth, hmoves]

end

end Unmoved

theorem Alike.listOf (ha : Alike p q) (level : ℤ) : q.listOf level = p.listOf level := by
  rw [Placement.listOf, Placement.listOf, ha.lists]

theorem Alike.hasLevel (ha : Alike p q) (level : ℤ) : q.hasLevel level = p.hasLevel level := by
  rw [Placement.hasLevel, Placement.hasLevel, ha.lists]

theorem Reranked.unmoved (hr : Reranked p q) (h : Handle) : Unmoved h p q where
  identity := hr.identity
  others level := by rw [hr.listOf]
  length := by rw [hr.lists]
  depth := by rw [hr.maxLevel]

def newLevel (e : Setup) (p : Placement) (h : Handle) : Policy → Option ℤ
  | .sameLevelNearbyKeysSimple =>
    if p.hasLevel (p.info h).level then some (p.info h).level else none
  | .overlapChildren =>
    if p.sunkLevel e h > (p.info h).level then some (p.sunkLevel e h) else none
  | .oaza =>
    if p.hasLevel (p.info h).level ∧ (p.info h).level < p.maxLevel ∧
        p.getOverlapFileCount e h ((p.info h).level + 1) = 0 then
      some ((p.info h).level + 1)
    else none
  | _ => none

theorem Unmoved.newLevel (hpq : Unmoved h p q) (policy : Policy) :
    q.newLevel e h policy = p.newLevel e h policy := by
  have hbelow : (p.info h).level < q.maxLevel ↔ (p.info h).level < p.maxLevel := by
    have hdepth := hpq.depth
    omega
  cases policy with
  | sameLevelNearbyKeysSimple => simp only [Placement.newLevel, hpq.level, hpq.hasLevel]
  | overlapChildren => simp only [Placement.newLevel, hpq.level, hpq.sunkLevel]
  | oaza =>
    simp only [Placement.newLevel, hpq.level, hpq.hasLevel, hbelow, hpq.getOverlapFileCount]
  | _ => rfl

theorem level_le_trivialMoves (n : ℕ) (level : ℤ) : level ≤ p.trivialMoves e h n level := by
  induction n generalizing level with
  | zero => rfl
  | succ n ih =>
    rw [trivialMoves]
    split
    · rfl
    · exact (Int.le_add_one le_rfl).trans (ih _)

theorem level_le_newLevel (hl : p.newLevel e h policy = some l) : (p.info h).level ≤ l := by
  cases policy with
  | sameLevelNearbyKeysSimple | overlapChildren | oaza =>
    simp only [newLevel, Option.ite_none_right_eq_some, Option.some.injEq] at hl
    omega
  | _ => cases hl

def recordAnew (e : Setup) (p : Placement) (h : Handle) : Option ℤ → Placement
  | none => p
  | some level => p.relevel e h level

end Placement

open Placement

variable {e : Setup} {h : Handle} {J : Placement → Prop}

theorem simpleRanking_eq (d : Zbd) : (simpleRanking e h d).1 =
    d.place.recordAnew e h (d.place.newLevel e h .sameLevelNearbyKeysSimple) := by
  rw [simpleRanking, newLevel]
  cases d.place.hasLevel (d.place.info h).level with
  | false => rfl
  | true => exact relevel_self.symm

theorem reranked_childrenRanking (d : Zbd) :
    Reranked ((d.place.computeCompensatedSizes h d.bodies).recordAnew e h
      (d.place.newLevel e h .overlapChildren)) (childrenRanking e h d).1 := by
  have hr := reranked_computeCompensatedSizes d.place h d.bodies
  have hsink : (d.place.computeCompensatedSizes h d.bodies).sink e h =
      (d.place.computeCompensatedSizes h d.bodies).recordAnew e h
        (d.place.newLevel e h .overlapChildren) := by
    rw [sink, newLevel, (hr.unmoved h).sunkLevel, (hr.unmoved h).level]
    split <;> rfl
  rw [← hsink, childrenRanking]
  split
  · rfl
  · exact reranked_overlapRanking

theorem reranked_oazaRanking (d : Zbd) :
    Reranked ((d.place.computeCompensatedSizes h d.bodies).recordAnew e h
      (d.place.newLevel e h .oaza)) (oazaRanking e h d).1 := by
  have hr := reranked_computeCompensatedSizes d.place h d.bodies
  have hlevel : d.place.newLevel e h .oaza =
      (d.place.computeCompensatedSizes h d.bodies).newLevel e h .oaza :=
    ((hr.unmoved h).newLevel .oaza).symm
  rw [hlevel, oazaRanking, newLevel]
  generalize d.place.computeCompensatedSizes h d.bodies = p
  cases p.hasLevel (p.info h).level with
  | false =>
    rfl
  | true =>
    simp only [Bool.not_true, Bool.false_eq_true, if_false, true_and]
    split
    · rfl
    · split
      · rfl
      · exact reranked_overlapRankHelperKeyBased

/-- All that a policy does to the placement data, but for ranks and sizes, is to record the
file anew. -/
theorem policyChange_records
    (hf : policyChange e h policy = some f) (d : Zbd) :
    ∃ q, Reranked d.place q ∧
      Reranked (q.recordAnew e h (d.place.newLevel e h policy)) (f d).1 := by
  cases policy <;> cases hf
  · exact ⟨d.place, .refl _, by rw [simpleRanking_eq]⟩
  · exact ⟨_, reranked_computeCompensatedSizes _ _ _, reranked_childrenRanking d⟩
  · exact ⟨d.place, .refl _, reranked_grandchildrenRanking d⟩
  · exact ⟨d.place, .refl _, reranked_compensatedRanking d⟩
  · exact ⟨_, reranked_computeCompensatedSizes _ _ _, reranked_oazaRanking d⟩

theorem kept_of_relevel (hJ : Robust J) (hr : ∀ p level, J p → J (p.relevel e h level))
   
    (hf : policyChange e h policy = some f) (hd : J d.place) : J (f d).1 := by
  obtain ⟨q, hq, hrecord⟩ := policyChange_records hf d
  have hJq : J q := hJ _ _ hq.toAlike hd
  apply hJ _ _ hrecord.toAlike
  cases d.place.newLevel e h policy with
  | none => exact hJq
  | some level => exact hr q level hJq

theorem keptByPolicies_of_relevel (hJ : Robust J)
    (hr : ∀ p level, J p → J (p.relevel e h level)) : KeptByPolicies e h J :=
  fun _ _ _ _ _ _ _ hf _ hd => kept_of_relevel hJ hr hf hd

namespace Placement

variable {p q r : Placement}

/-- At most `h` is inserted, and no file is marked deleted. -/
structure OnlyAdds (h : Handle) (p q : Placement) : Prop where
  recorded : ∀ g ∈ q.recorded, g ∈ p.recorded ∨ g = h
  deleted : ∀ g, (q.info g).isDeleted = (p.info g).isDeleted

theorem OnlyAdds.refl (h : Handle) (p : Placement) : OnlyAdds h p p :=
  ⟨fun _ hg => .inl hg, fun _ => rfl⟩

theorem OnlyAdds.trans (hpq : OnlyAdds h p q) (hqr : OnlyAdds h q r) : OnlyAdds h p r := by
  constructor
  · intro g hg
    rcases hqr.recorded g hg with hg | rfl
    · exact hpq.recorded g hg
    · exact .inr rfl
  · intro g
    rw [hqr.deleted, hpq.deleted]

theorem Alike.onlyAdds (ha : Alike p q) : OnlyAdds h p q := by
  constructor
  · intro g hg
    rw [ha.recorded_eq] at hg
    exact .inl hg
  · intro g
    exact congrArg Identity.isDeleted (ha.identity g)

theorem onlyAdds_setInfo {f : FileInfo} (hf : f.isDeleted = (p.info h).isDeleted) :
    OnlyAdds h p (p.setInfo h f) := by
  refine ⟨fun _ hg => .inl hg, fun g => ?_⟩
  by_cases hg : g = h
  · rw [hg, setInfo_info_self, hf]
  · rw [setInfo_info_of_ne _ _ _ hg]

theorem onlyAdds_removeZoneFileRecord : OnlyAdds h p (p.removeZoneFileRecord h) :=
  ⟨fun _ hg => .inl (mem_removeZoneFileRecord.mp hg).1, fun _ => rfl⟩

theorem onlyAdds_addZoneFileRecord : OnlyAdds h p (p.addZoneFileRecord e h) := by
  constructor
  · intro g hg
    exact (mem_of_mem_addZoneFileRecord hg).imp_right And.left
  · intro g
    rw [addZoneFileRecord_info]

theorem onlyAdds_relevel (level : ℤ) : OnlyAdds h p (p.relevel e h level) := by
  apply onlyAdds_removeZoneFileRecord.trans
  apply OnlyAdds.trans _ onlyAdds_addZoneFileRecord
  exact onlyAdds_setInfo rfl

end Placement

theorem onlyAdds_policyChange
    (hf : policyChange e h policy = some f) (d : Zbd) : OnlyAdds h d.place (f d).1 := by
  let J : Placement → Prop := OnlyAdds h d.place
  have hJ : Robust J := fun p q ha hp => hp.trans ha.onlyAdds
  have hrefl : J d.place := OnlyAdds.refl h d.place
  exact kept_of_relevel hJ (fun p level hp => hp.trans (onlyAdds_relevel level)) hf hrefl

theorem ends_place {f : Zbd → Placement} :
    (place f).Ends (exec e) d fun _ t => t.place = f d := by
  refine .bind (.op ?_)
  rintro _ _ ⟨⟩
  exact .ret rfl

theorem ends_withLevelwiseFiles_place {f : Placement → Placement} :
    (withLevelwiseFiles (place fun d => f d.place)).Ends (exec e) d
      fun _ t => t.place = f d.place := by
  refine .bind (.op fun _ t ht => ?_)
  have hlock := exec_place (o := .lock .levelwiseFiles) nofun nofun ht
  refine .bind (ends_place.mono fun _ u hu => ?_)
  refine .bind (.op fun _ v hv => ?_)
  refine .ret ?_
  rw [exec_place (o := .unlock .levelwiseFiles) nofun nofun hv, hu, hlock]

theorem ends_addZoneFileRecord : (addZoneFileRecord e h).Ends (exec e) d
    fun _ t => t.place = d.place.addZoneFileRecord e h :=
  ends_withLevelwiseFiles_place (f := fun p => p.addZoneFileRecord e h)

theorem ends_removeZoneFileRecord : (removeZoneFileRecord h).Ends (exec e) d
    fun _ t => t.place = d.place.removeZoneFileRecord h :=
  ends_withLevelwiseFiles_place (f := fun p => p.removeZoneFileRecord h)

theorem ends_moveFileToNewLevel (level : ℤ) : (moveFileToNewLevel e h level).Ends (exec e) d
    fun _ t => t.place = d.place.relevel e h level := by
  refine .bind (ends_removeZoneFileRecord.mono fun _ u hu => ?_)
  refine .bind (ends_place.mono fun _ v hv => ?_)
  refine ends_addZoneFileRecord.mono fun _ w hw => ?_
  rw [hw, hv, hu, relevel]

theorem ends_setDeleted :
    (setDeleted h).Ends (exec e) d fun _ t => t.place = d.place.setDeleted h := by
  refine .bind (.op ?_)
  rintro _ _ ⟨⟩
  exact ends_removeZoneFileRecord

def Placement.createOrUpdateRecord (e : Setup) (p : Placement) (h : Handle) : Placement :=
  if (p.info h).level < 0 then p
  else
    let q := if (p.info h).isRecorded then p.removeZoneFileRecord h else p
    (q.addZoneFileRecord e h).setInfo h { p.info h with isRecorded := true }

theorem ends_createOrUpdateRecord : (createOrUpdateRecord e h).Ends (exec e) d
    fun _ t => t.place = d.place.createOrUpdateRecord e h := by
  have hadd : ∀ (u : Zbd), u.place.info = d.place.info → (do
      addZoneFileRecord e h
      place fun d => d.place.setInfo h { d.place.info h with isRecorded := true }).Ends (exec e) u
        fun _ t => t.place = (u.place.addZoneFileRecord e h).setInfo h
          { d.place.info h with isRecorded := true } := by
    intro u hu
    refine .bind (ends_addZoneFileRecord.mono fun _ v hv => ?_)
    refine ends_place.mono fun _ w hw => ?_
    rw [hw, hv, addZoneFileRecord_info, hu]
  refine .bind (.op ?_)
  rintro _ _ ⟨⟩
  dsimp only
  split
  · next hl => exact .ret (by rw [Placement.createOrUpdateRecord, if_pos hl])
  · next hl =>
    rw [Placement.createOrUpdateRecord]
    split
    · next hr =>
      refine .bind (ends_removeZoneFileRecord.mono fun _ u hu => ?_)
      refine (hadd u (by rw [hu]; rfl)).mono fun _ t ht => ?_
      rw [ht, hu]
    · exact hadd d rfl

end ZenFs.Device
