import ZenFs.Device.Lists

/-!
The order of the per-level lists.

`AddZoneFileRecord` passes the files whose smallest key is not larger and inserts before the
first other one. So the lists stay sorted as long as the keys of recorded files stay, and a
file changes its level only between its removal and its insertion.
-/

namespace ZenFs.Device

open Library Task Placement List Option

variable {f : FileInfo} {l : List Handle}

structure Setup.OrdersKeys (e : Setup) : Prop where
  trans : ∀ a b c, e.sstableKeyCompare a b ≤ 0 → e.sstableKeyCompare b c ≤ 0 →
    e.sstableKeyCompare a c ≤ 0
  total : ∀ a b, e.sstableKeyCompare a b ≤ 0 ∨ e.sstableKeyCompare b a ≤ 0

namespace Placement

variable {e : Setup} {p q : Placement} {h : Handle}

def Before (e : Setup) (p : Placement) (a b : Handle) : Prop :=
  e.sstableKeyCompare (p.info a).smallest (p.info b).smallest ≤ 0

/-- Every list is sorted by smallest key and holds files of its level only. -/
structure Sorted (e : Setup) (p : Placement) : Prop where
  sorted : ∀ l ∈ p.lists, l.Pairwise (Before e p)
  level : ∀ (i : ℕ) (l : List Handle), p.lists[i]? = some l → ∀ h ∈ l, (p.info h).level = i

theorem insertRecord_sorted (he : e.OrdersKeys) (hl : l.Pairwise (Before e p)) :
    (p.insertRecord e h l).Pairwise (Before e p) := by
  induction l with
  | nil => exact pairwise_singleton _ h
  | cons x rest ih =>
    obtain ⟨hx, hrest⟩ := pairwise_cons.mp hl
    rw [insertRecord]
    split
    case isTrue hpass =>
      apply pairwise_cons.mpr ⟨fun y hy => ?_, ih hrest⟩
      obtain rfl | hy := mem_cons.mp ((insertRecord_perm rest).mem_iff.mp hy)
      · exact hpass
      · exact hx y hy
    case isFalse hstop =>
      have hhx : Before e p h x := (he.total _ _).resolve_right hstop
      apply pairwise_cons.mpr ⟨fun y hy => ?_, hl⟩
      obtain rfl | hy := mem_cons.mp hy
      · exact hhx
      · exact he.trans _ _ _ hhx (hx y hy)

theorem mem_resize {lists : List (List Handle)} {n : ℕ}
    (hl : l ∈ resize lists n) : l ∈ lists ∨ l = [] := by
  obtain hl | hl := mem_append.mp hl
  · exact .inl hl
  · exact .inr (eq_of_mem_replicate hl)

theorem getElem?_resize {lists : List (List Handle)} {n i : ℕ}
    (hl : (resize lists n)[i]? = some l) : lists[i]? = some l ∨ l = [] := by
  rw [resize, getElem?_append] at hl
  split at hl
  · exact .inl hl
  · exact .inr (eq_of_mem_replicate (mem_of_getElem? hl))

section

variable (hp : p.Sorted e)
include hp

theorem Sorted.addZoneFileRecord (he : e.OrdersKeys) :
    (p.addZoneFileRecord e h).Sorted e := by
  cases hlisted : (p.info h).listed with
  | false => rwa [addZoneFileRecord_of_not_listed hlisted]
  | true =>
    have hlevel : ((p.info h).level.toNat : ℤ) = (p.info h).level := by
      have hnonneg : 0 ≤ (p.info h).level := by
        simp only [FileInfo.listed, Bool.and_eq_true, decide_eq_true_eq] at hlisted
        exact hlisted.1.2
      omega
    constructor
    · intro l hl
      simp only [Placement.addZoneFileRecord, hlisted, Bool.not_true, Bool.false_eq_true,
        ↓reduceIte] at hl ⊢
      obtain ⟨i, hi⟩ := mem_iff_getElem?.mp hl
      rw [List.getElem?_modify] at hi
      obtain ⟨k, hk, rfl⟩ := map_eq_some_iff.mp hi
      have hold : k.Pairwise (Before e p) := by
        obtain hmem | rfl := mem_resize (mem_of_getElem? hk)
        · exact hp.sorted k hmem
        · exact List.Pairwise.nil
      split
      · exact insertRecord_sorted he hold
      · exact hold
    · intro i l hl g hg
      rw [addZoneFileRecord_info]
      simp only [Placement.addZoneFileRecord, hlisted, Bool.not_true, Bool.false_eq_true,
        ↓reduceIte] at hl
      rw [List.getElem?_modify] at hl
      obtain ⟨k, hk, rfl⟩ := map_eq_some_iff.mp hl
      have hold : ∀ g ∈ k, (p.info g).level = i := by
        obtain hk | rfl := getElem?_resize hk
        · exact hp.level i k hk
        · rintro _ ⟨⟩
      split at hg
      case isTrue hi =>
        obtain rfl | hg := mem_cons.mp ((insertRecord_perm k).mem_iff.mp hg)
        · rw [← hi, hlevel]
        · exact hold g hg
      case isFalse => exact hold g hg

theorem Sorted.removeZoneFileRecord : (p.removeZoneFileRecord h).Sorted e := by
  constructor
  · intro l hl
    obtain ⟨k, hk, rfl⟩ := mem_map.mp hl
    exact (hp.sorted k hk).filter _
  · intro i l hl g hg
    rw [Placement.removeZoneFileRecord, getElem?_map] at hl
    obtain ⟨k, hk, rfl⟩ := map_eq_some_iff.mp hl
    exact hp.level i k hk g (mem_of_mem_filter hg)

theorem Sorted.of_info (hlists : q.lists = p.lists)
    (hkeep : ∀ g ∈ p.recorded, (q.info g).smallest = (p.info g).smallest ∧
      (q.info g).level = (p.info g).level) : q.Sorted e := by
  have hmem : ∀ l ∈ p.lists, ∀ g ∈ l, g ∈ p.recorded := fun l hl g hg =>
    mem_flatten.mpr ⟨l, hl, hg⟩
  constructor
  · intro l hl
    rw [hlists] at hl
    apply (hp.sorted l hl).imp_of_mem
    intro a b ha hb hab
    rw [Before, (hkeep a (hmem l hl a ha)).1, (hkeep b (hmem l hl b hb)).1]
    exact hab
  · intro i l hl g hg
    rw [hlists] at hl
    rw [(hkeep g (hmem l (mem_of_getElem? hl) g hg)).2]
    exact hp.level i l hl g hg

theorem Sorted.setInfo
    (hf : h ∈ p.recorded → f.smallest = (p.info h).smallest ∧ f.level = (p.info h).level) :
    (p.setInfo h f).Sorted e := by
  refine hp.of_info rfl fun g hg => ?_
  by_cases hgh : g = h
  · subst hgh
    rw [setInfo_info_self]
    exact hf hg
  · rw [setInfo_info_of_ne p h f hgh]
    exact ⟨rfl, rfl⟩

theorem Sorted.relevel (he : e.OrdersKeys) (level : ℤ) :
    (p.relevel e h level).Sorted e := by
  have hremoved : (p.removeZoneFileRecord h).Sorted e := hp.removeZoneFileRecord
  -- without a record the file may have any level
  have hset : ((p.removeZoneFileRecord h).setLevel h level).Sorted e := by
    apply hremoved.setInfo
    intro hh
    exact absurd rfl (mem_removeZoneFileRecord.mp hh).2
  exact hset.addZoneFileRecord he

theorem Sorted.setDeleted : (p.setDeleted h).Sorted e := by
  have hmarked : (p.setInfo h { p.info h with isDeleted := true }).Sorted e :=
    hp.setInfo fun _ => ⟨rfl, rfl⟩
  exact hmarked.removeZoneFileRecord

theorem Sorted.createOrUpdateRecord (he : e.OrdersKeys) :
    (p.createOrUpdateRecord e h).Sorted e := by
  rw [Placement.createOrUpdateRecord]
  split
  · exact hp
  · have hbase : (if (p.info h).isRecorded then p.removeZoneFileRecord h else p).Sorted e := by
      split
      · exact hp.removeZoneFileRecord
      · exact hp
    apply (hbase.addZoneFileRecord he).setInfo
    intro _
    rw [addZoneFileRecord_info]
    split
    · exact ⟨rfl, rfl⟩
    · exact ⟨rfl, rfl⟩

end

end Placement

/-- The calls that change the lists, and what writers do with the information of a file. -/
inductive RecordCall
  | addZoneFileRecord (h : Handle)
  | removeZoneFileRecord (h : Handle)
  | createOrUpdateRecord (h : Handle)
  | moveFileToNewLevel (h : Handle) (level : ℤ)
  | setDeleted (h : Handle)
  | write (h : Handle) (f : FileInfo → FileInfo)

variable {c : RecordCall}

def RecordCall.program (e : Setup) : RecordCall → DevTask Unit
  | addZoneFileRecord h => Device.addZoneFileRecord e h
  | removeZoneFileRecord h => Device.removeZoneFileRecord h
  | createOrUpdateRecord h => Device.createOrUpdateRecord e h
  | moveFileToNewLevel h level => Device.moveFileToNewLevel e h level
  | setDeleted h => Device.setDeleted h
  | write h f => onInfo h f

def recordStep (e : Setup) (d : Zbd) (c : RecordCall) : Option Zbd :=
  ((c.program e).run (exec e) d).map (·.2)

/-- Writers leave key and level of a recorded file alone: its key range is final, and its level
is changed by `MoveFileToNewLevel`. -/
def Final (d : Zbd) : RecordCall → Prop
  | .write h f => h ∈ d.place.recorded → (f (d.place.info h)).smallest = (d.place.info h).smallest ∧
      (f (d.place.info h)).level = (d.place.info h).level
  | _ => True

instance (d : Zbd) (c : RecordCall) : Decidable (Final d c) := by
  cases c <;> unfold Final <;> infer_instance

variable {e : Setup} {d t : Zbd}

/-- One call keeps the lists sorted. -/
theorem recordStep_sorted (he : e.OrdersKeys) (hd : d.place.Sorted e)
    (hfinal : Final d c) (hstep : recordStep e d c = some t) : t.place.Sorted e := by
  obtain ⟨r, hr, rfl⟩ := map_eq_some_iff.mp hstep
  cases c with
  | addZoneFileRecord h =>
    rw [ends_addZoneFileRecord r.1 r.2 hr]
    exact hd.addZoneFileRecord he
  | removeZoneFileRecord h =>
    rw [ends_removeZoneFileRecord r.1 r.2 hr]
    exact hd.removeZoneFileRecord
  | createOrUpdateRecord h =>
    rw [ends_createOrUpdateRecord r.1 r.2 hr]
    exact hd.createOrUpdateRecord he
  | moveFileToNewLevel h level =>
    rw [ends_moveFileToNewLevel level r.1 r.2 hr]
    exact hd.relevel he level
  | setDeleted h =>
    rw [ends_setDeleted r.1 r.2 hr]
    exact hd.setDeleted
  | write h f =>
    rw [ends_place r.1 r.2 hr]
    exact hd.setInfo hfinal

/-- From lists without files on, the lists are sorted and hold files of their level only, as
long as the keys of recorded files are final. -/
theorem lists_sorted_of_final (he : e.OrdersKeys) (hd : d.place.recorded = [])
    (hrun : Reaches (recordStep e) Final d t) : t.place.Sorted e := by
  have hstart : d.place.Sorted e := by
    have hempty : ∀ l ∈ d.place.lists, l = [] := flatten_eq_nil_iff.mp hd
    constructor
    · intro l hl
      rw [hempty l hl]
      exact List.Pairwise.nil
    · intro i l hl h hh
      rw [hempty l (mem_of_getElem? hl)] at hh
      cases hh
  exact hrun.keeps hstart fun hv hok hstep => recordStep_sorted he hv hok hstep

/-- Two files of level 1, the later one with the smaller key, of which the other moves on. -/
def twoRecords : List RecordCall :=
  [.write 0 fun f => { f.updateInternalKeys [5] with level := 1, ioType := .data },
    .write 1 fun f => { f.updateInternalKeys [3] with level := 1, ioType := .data },
    .createOrUpdateRecord 0, .createOrUpdateRecord 1, .moveFileToNewLevel 0 2]

theorem smallSetup_ordersKeys : (smallSetup .sameLevelNearbyKeys).OrdersKeys := by
  have hcompare : ∀ a b : Key, compareKeys a b ≤ 0 ↔ a ≤ b := by
    intro a b
    unfold compareKeys
    split_ifs with hlt heq
    · exact iff_of_true (by decide) (List.le_of_lt hlt)
    · subst heq
      exact iff_of_true (by decide) (List.le_refl a)
    · apply iff_of_false (by decide)
      intro hle
      exact heq (List.le_antisymm hle (List.not_lt.mp hlt))
  refine ⟨fun a b c hab hbc => ?_, fun a b => ?_⟩
  · exact (hcompare a c).mpr (List.le_trans ((hcompare a b).mp hab) ((hcompare b c).mp hbc))
  · exact (List.le_total a b).imp (hcompare a b).mpr (hcompare b a).mpr

/-- The lists of the example are sorted after each of its calls. -/
theorem lists_sorted_twoRecords :
    (smallSetup .sameLevelNearbyKeys).OrdersKeys ∧ smallDevice.place.recorded = [] ∧
    ∃ t, Reaches (recordStep (smallSetup .sameLevelNearbyKeys)) Final smallDevice t ∧
      t.place.lists = [[], [1], [0]] ∧ t.place.Sorted (smallSetup .sameLevelNearbyKeys) := by
  refine ⟨smallSetup_ordersKeys, rfl, Reaches.of_any_imp
    (P := fun t => t.place.lists = [[], [1], [0]]) twoRecords (by decide +kernel) ?_⟩
  intro t ht hlists
  exact ⟨hlists, lists_sorted_of_final smallSetup_ordersKeys rfl ht⟩

end ZenFs.Device
