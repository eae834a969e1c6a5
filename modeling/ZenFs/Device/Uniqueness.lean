import ZenFs.Device.Lists

/-!
Whether a file can be recorded twice.

`is_recorded_` is set when a file is closed, and only then does `CreateOrUpdateRecord`
remove the file before it adds it. A policy that inserts the file while it is being
written for the first time, or a move to another level before its first close, leaves a
record that the close does not know of.
-/

namespace ZenFs.Device

open Library Task Bool

variable {f : FileInfo} {level : ℤ}

namespace Placement

variable {e : Setup} {h : Handle} {p q : Placement}

/-- No file is recorded twice, and files are recorded under their flag only. -/
structure Accounted (p : Placement) : Prop where
  unique : p.recorded.Nodup
  flagged : ∀ g ∈ p.recorded, (p.info g).isRecorded = true

theorem Accounted.alike (hp : p.Accounted) (ha : Alike p q) : q.Accounted := by
  constructor
  · rw [ha.recorded_eq]
    exact hp.unique
  · intro g hg
    rw [ha.recorded_eq] at hg
    exact (congrArg Identity.isRecorded (ha.identity g)).trans (hp.flagged g hg)

theorem Accounted.setInfo (hp : p.Accounted)
    (hf : (p.info h).isRecorded = true → f.isRecorded = true) : (p.setInfo h f).Accounted := by
  refine ⟨hp.unique, fun g hg => ?_⟩
  by_cases hgh : g = h
  · subst hgh
    rw [setInfo_info_self]
    exact hf (hp.flagged g hg)
  · rw [setInfo_info_of_ne _ _ _ hgh]
    exact hp.flagged g hg

theorem Accounted.remove (hp : p.Accounted) : (p.removeZoneFileRecord h).Accounted := by
  constructor
  · rw [recorded_removeZoneFileRecord]
    exact hp.unique.filter _
  · intro g hg
    exact hp.flagged g (mem_removeZoneFileRecord.mp hg).1

theorem not_mem_removeZoneFileRecord : h ∉ (p.removeZoneFileRecord h).recorded :=
  fun hh => (mem_removeZoneFileRecord.mp hh).2 rfl

theorem nodup_addZoneFileRecord (hp : p.recorded.Nodup) (hh : h ∉ p.recorded) :
    (p.addZoneFileRecord e h).recorded.Nodup := by
  cases hl : (p.info h).listed with
  | false =>
    rw [addZoneFileRecord_of_not_listed hl]
    exact hp
  | true =>
    rw [(addZoneFileRecord_perm hl).nodup_iff]
    exact List.nodup_cons.mpr ⟨hh, hp⟩

theorem Accounted.add (hp : p.Accounted) (hh : h ∉ p.recorded)
    (hf : (p.info h).listed = true → (p.info h).isRecorded = true) :
    (p.addZoneFileRecord e h).Accounted := by
  refine ⟨nodup_addZoneFileRecord hp.unique hh, fun g hg => ?_⟩
  rw [addZoneFileRecord_info]
  rcases mem_of_mem_addZoneFileRecord hg with hg | ⟨rfl, hl⟩
  · exact hp.flagged g hg
  · exact hf hl

/-- Moving a file to another level is safe once the file carries the flag, or when it is
not recorded at that level at all. -/
theorem Accounted.relevel (hp : p.Accounted)
    (hf : (p.info h).isRecorded = true ∨ { p.info h with level := level }.listed = false) :
    (p.relevel e h level).Accounted := by
  have hremove : ((p.removeZoneFileRecord h).setLevel h level).Accounted :=
    hp.remove.setInfo fun hr => hr
  refine hremove.add ?_ ?_
  · exact not_mem_removeZoneFileRecord
  · intro hl
    rw [setLevel, setInfo_info_self] at hl ⊢
    rcases hf with hf | hf
    · exact hf
    · exact absurd (hf.symm.trans hl) false_ne_true

theorem Accounted.createOrUpdateRecord (hp : p.Accounted) :
    (p.createOrUpdateRecord e h).Accounted := by
  rw [Placement.createOrUpdateRecord]
  split
  · exact hp
  · -- a file without the flag is not recorded, so nothing has to be removed
    have hq : ∃ q : Placement, q.Accounted ∧ h ∉ q.recorded ∧ q.info = p.info ∧
        q = if (p.info h).isRecorded then p.removeZoneFileRecord h else p := by
      refine ⟨_, ?_, ?_, ?_, rfl⟩
      all_goals split
      · exact hp.remove
      · exact hp
      · exact not_mem_removeZoneFileRecord
      · next hr => exact fun hh => hr (hp.flagged h hh)
      · rfl
      · rfl
    obtain ⟨q, hq, hh, hi, heq⟩ := hq
    rw [← heq]
    refine ⟨nodup_addZoneFileRecord hq.unique hh, fun g hg => ?_⟩
    by_cases hgh : g = h
    · subst hgh
      rw [setInfo_info_self]
    · rw [setInfo_info_of_ne _ _ _ hgh, addZoneFileRecord_info]
      rcases mem_of_mem_addZoneFileRecord hg with hg | ⟨rfl, -⟩
      · exact hq.flagged g hg
      · exact absurd rfl hgh

end Placement

open Placement

variable {e : Setup} {d t : Zbd} {h : Handle}

/-- An allocation for the file does not insert it, unless it already carries the flag. -/
def Settled (e : Setup) (p : Placement) (h : Handle) : Prop :=
  (p.info h).isRecorded = true ∨ (p.info h).listed = false ∨
    (e.getPolicy (p.info h).level).inserts = false ∧
      (e.getSecondaryPolicy (p.info h).level).inserts = false

instance (p : Placement) : Decidable (Settled e p h) := inferInstanceAs (Decidable (_ ∨ _))

/-- A program that works for a settled file keeps the records right. -/
theorem ends_accounted {α : Type} {m : DevTask α}
    (hm : ∀ J, Works e me h (placed e J) → (placed e J).Admits m)
    (hd : d.place.Accounted) (hs : Settled e d.place h) :
    m.Ends (exec e) d fun _ t => t.place.Accounted := by
  by_cases hr : (d.place.info h).isRecorded = true
  · let J : Placement → Prop := fun p => p.Accounted ∧ (p.info h).isRecorded = true
    have hJ : Robust J := fun p q ha hp =>
      ⟨hp.1.alike ha, (congrArg Identity.isRecorded (ha.identity h)).trans hp.2⟩
    have hrel : ∀ p level, J p → J (p.relevel e h level) := by
      intro p level hp
      refine ⟨hp.1.relevel (.inl hp.2), ?_⟩
      rw [relevel_info_self]
      exact hp.2
    have hk : m.Keeps (exec e) _ _ := hm J (works_placed hJ (keptByPolicies_of_relevel hJ hrel))
    exact (hk.ends ⟨hd, hr⟩).mono fun _ t ht => ht.1.1
  · let J : Placement → Prop := fun p =>
      p.Accounted ∧ (p.info h).identity = (d.place.info h).identity
    have hJ : Robust J := fun p q ha hp => ⟨hp.1.alike ha, (ha.identity h).trans hp.2⟩
    have hins : KeptByPolicies e h J := by
      intro p hp hl policy hpol hlevel
      -- the level is the one of the file before the call, where no policy inserts
      have hsame : (p.info h).level = (d.place.info h).level := congrArg Identity.level hp.2
      rw [hsame] at hlevel
      rw [FileInfo.listed_eq hp.2] at hl
      rcases hs with hs | hs | ⟨hs, hs'⟩
      · exact absurd hs hr
      · exact absurd (hs.symm.trans hl) false_ne_true
      · rcases hlevel with rfl | rfl
        · exact absurd (hs.symm.trans hpol) false_ne_true
        · exact absurd (hs'.symm.trans hpol) false_ne_true
    have hk : m.Keeps (exec e) _ _ := hm J (works_placed hJ hins)
    exact (hk.ends ⟨hd, rfl⟩).mono fun _ t ht => ht.1.1

structure Unrecorded (d : Zbd) : Prop where
  lists : d.place.lists = []
  info : ∀ h, d.place.info h = .new

/-- A file is allocated a zone or migrated only when settled, and moved to another level
only after it was closed. -/
def Steady (e : Setup) (d : Zbd) (a : Operation × ℕ) : Prop :=
  match a.1 with
  | .bufferedAppend h _ => Settled e d.place h
  | .sparseAppend h _ => Settled e d.place h
  | .append h _ => Settled e d.place h
  | .migrateFileExtents h _ => Settled e d.place h
  | .moveFileToNewLevel h level =>
    (d.place.info h).isRecorded = true ∨ { d.place.info h with level := level }.listed = false
  | _ => True

instance (d : Zbd) (a : Operation × ℕ) : Decidable (Steady e d a) :=
  match a with
  | (.bufferedAppend h _, _) => inferInstanceAs (Decidable (Settled e d.place h))
  | (.sparseAppend h _, _) => inferInstanceAs (Decidable (Settled e d.place h))
  | (.append h _, _) => inferInstanceAs (Decidable (Settled e d.place h))
  | (.migrateFileExtents h _, _) => inferInstanceAs (Decidable (Settled e d.place h))
  | (.moveFileToNewLevel _ _, _) => inferInstanceAs (Decidable (_ ∨ _))
  | (.create _ _ _, _) => isTrue trivial
  | (.openForWrite _, _) => isTrue trivial
  | (.setWriteLifeTimeHint _ _, _) => isTrue trivial
  | (.setLevel _ _, _) => isTrue trivial
  | (.updateInternalKeys _ _, _) => isTrue trivial
  | (.updateInternalKeysRange _ _ _, _) => isTrue trivial
  | (.updateMetadata _ _ _ _ _ _ _, _) => isTrue trivial
  | (.pushExtent _, _) => isTrue trivial
  | (.persistMetadata _, _) => isTrue trivial
  | (.closeWR _, _) => isTrue trivial
  | (.setDeleted _, _) => isTrue trivial
  | (.clearExtents _, _) => isTrue trivial
  | (.resetUnusedIOZones, _) => isTrue trivial

def Operation.allocatesFor : Operation → Option Handle
  | .bufferedAppend h _ => some h
  | .sparseAppend h _ => some h
  | .append h _ => some h
  | .migrateFileExtents h _ => some h
  | _ => none

theorem programOf_admits {L : Judgement Call.Res} {a : Holder} {o : Operation}
    (ho : o.allocatesFor = some h) (w : Works e a h L) (spins : ℕ) :
    L.Admits (programOf e a spins o) := by
  cases o <;> cases ho
  · exact Judgement.admits_bind (segmentAppend_admits w.appends _ _ _ _) fun _ =>
      Judgement.admits_ret _
  · exact Judgement.admits_bind (segmentAppend_admits w.appends _ _ _ _) fun _ =>
      Judgement.admits_ret _
  · exact Judgement.admits_bind (append_admits w.appends _ _) fun _ => Judgement.admits_ret _
  · exact Judgement.admits_bind (migrateFileExtents_admits w.migrates _) fun _ =>
      Judgement.admits_ret _

/-- What an operation that asks for no zone makes of the placement data. -/
def Operation.placement (e : Setup) (p : Placement) : Operation → Placement
  | .create h ioType _ => p.setInfo h { p.info h with ioType := ioType }
  | .setWriteLifeTimeHint h lifetime => p.setInfo h { p.info h with lifetime := lifetime }
  | .setLevel h level => p.setLevel h level
  | .updateInternalKeys h key => p.setInfo h ((p.info h).updateInternalKeys key)
  | .updateInternalKeysRange h start stop =>
    p.setInfo h ((p.info h).updateInternalKeysRange e start stop)
  | .updateMetadata h entries deletions ranges size compensated average =>
    { p.setInfo h ((p.info h).updateMetadata entries deletions ranges size compensated) with
      averageValueSize := if average ≠ 0 then average else p.averageValueSize }
  | .closeWR h => p.createOrUpdateRecord e h
  | .moveFileToNewLevel h level => p.relevel e h level
  | .setDeleted h => p.setDeleted h
  | _ => p

theorem ends_unplaced {α : Type} {m : DevTask α} (hm : ∀ J, (placed e J).Admits m) :
    m.Ends (exec e) d fun _ t => t.place = d.place :=
  (Keeps.ends (s := d) (hm (· = d.place)) rfl).mono fun _ _ ht => ht.1

theorem ends_closeWR : (closeWR e me h).Ends (exec e) d
    fun _ t => t.place = d.place.createOrUpdateRecord e h := by
  refine .bind (ends_createOrUpdateRecord.mono fun _ u hu => ?_)
  rw [← hu]
  refine ends_unplaced fun J => ?_
  refine Judgement.admits_bind (placed_call nofun nofun) fun _ => ?_
  refine Judgement.admits_bind indifferent_placed.sync fun s => ?_
  split
  · exact Judgement.admits_ret _
  · refine Judgement.admits_bind (placed_call nofun nofun) fun _ => ?_
    refine Judgement.admits_bind (closeActiveZone_admits (a := me) handles_placed
      (fun _ => placed_call nofun nofun) (fun _ => placed_call nofun nofun)
      (placed_call nofun nofun)) fun _ => ?_
    exact Judgement.admits_bind (placed_call nofun nofun) fun _ => Judgement.admits_ret _

theorem programOf_placement {o : Operation} (ho : o.allocatesFor = none) (spins : ℕ) :
    (programOf e me spins o).Ends (exec e) d fun _ t => t.place = o.placement e d.place := by
  cases o with
  | create h ioType sparse =>
    refine .bind (ends_place.mono fun _ u hu => ?_)
    have hbody : (call (.body h ({ · with isSparse := sparse }))).Ends (exec e) u
        fun _ t => t.place = u.place := ends_unplaced fun J => placed_call nofun nofun
    exact hbody.mono fun _ t ht => ht.trans hu
  | openForWrite h => exact ends_unplaced fun J => placed_call nofun nofun
  | updateMetadata h n m r s c average =>
    refine .bind (ends_place.mono fun _ u hu => ?_)
    rw [Operation.placement]
    split
    · refine ends_place.mono fun _ t ht => ?_
      rw [ht, hu]
    · exact .ret hu
  | pushExtent h =>
    exact ends_unplaced fun J => pushExtent_admits (writes_placed.edits (a := me) handles_placed)
  | persistMetadata h => exact ends_ignore (ends_unplaced fun J => indifferent_placed.sync)
  | closeWR h => exact ends_ignore ends_closeWR
  | moveFileToNewLevel h level => exact ends_moveFileToNewLevel level
  | setDeleted h => exact ends_setDeleted
  | clearExtents h =>
    exact ends_unplaced fun J => clearExtents_admits (writes_placed.edits (a := me) handles_placed)
  | resetUnusedIOZones =>
    exact ends_ignore (ends_unplaced fun J => resetUnused_admits handles_placed.toRecycles)
  | bufferedAppend | sparseAppend | append | migrateFileExtents => cases ho
  | _ => exact ends_place

theorem accounted_placement {o : Operation} {spins : ℕ} (hd : d.place.Accounted)
    (hs : Steady e d (o, spins)) : (o.placement e d.place).Accounted := by
  cases o with
  | create | setWriteLifeTimeHint | setLevel | updateInternalKeys | updateInternalKeysRange =>
    apply hd.setInfo
    exact fun hg => hg
  | updateMetadata h n m r s c average =>
    have hset : (d.place.setInfo h ((d.place.info h).updateMetadata n m r s c)).Accounted :=
      hd.setInfo fun hg => hg
    exact ⟨hset.unique, hset.flagged⟩
  | closeWR h => exact hd.createOrUpdateRecord
  | moveFileToNewLevel h level => exact hd.relevel hs
  | setDeleted h =>
    apply Accounted.remove
    apply hd.setInfo
    exact fun hg => hg
  | _ => exact hd

theorem accounted_step {a : Operation × ℕ} (hd : d.place.Accounted) (hs : Steady e d a)
    (hstep : step e d a = some t) : t.place.Accounted := by
  refine step_ends (Q := fun t => t.place.Accounted) hstep ?_
  obtain ⟨o, spins⟩ := a
  cases ho : o.allocatesFor with
  | none =>
    refine (programOf_placement ho spins).mono fun _ t ht => ?_
    rw [ht]
    exact accounted_placement hd hs
  | some h =>
    have hsettled : Settled e d.place h := by
      cases o <;> cases ho <;> exact hs
    exact ends_accounted (fun _ w => programOf_admits ho w spins) hd hsettled

/-- As long as no file is inserted by a policy or a move before its first close, no file
is ever recorded twice. -/
theorem unique_of_steady {d₀ : Zbd} (h₀ : Unrecorded d₀)
    (h : Reaches (step e) (Steady e) d₀ d) : d.place.lists.flatten.Nodup := by
  have hinit : d₀.place.Accounted := by
    constructor
    · rw [recorded, h₀.lists]
      exact List.nodup_nil
    · intro g hg
      rw [recorded, h₀.lists] at hg
      cases hg
  have hd : d.place.Accounted := h.keeps hinit fun hv hok hstep => accounted_step hv hok hstep
  exact hd.unique

theorem smallDevice_unrecorded : Unrecorded smallDevice := ⟨rfl, fun _ => rfl⟩

/-- Two files of a level written and closed under a policy that does not insert. -/
theorem unique_two_files : Unrecorded smallDevice ∧
    ∃ d, Reaches (step (smallSetup .sameLevelNearbyKeys)) (Steady (smallSetup .sameLevelNearbyKeys))
      smallDevice d ∧ d.place.lists = [[1, 2]] ∧ d.place.lists.flatten.Nodup := by
  refine ⟨smallDevice_unrecorded, Reaches.of_any_imp (P := fun d => d.place.lists = [[1, 2]])
    (openSst 1 [1] ++ [(.closeWR 1, 9)] ++ openSst 2 [2] ++
      [(.bufferedAppend 2 [7], 9), (.closeWR 2, 9)]) rfl ?_⟩
  intro d hd hlists
  exact ⟨hlists, unique_of_steady smallDevice_unrecorded hd⟩

/-- The second file of a level is inserted by the policy when it is first allocated a
zone, and again when it is closed. -/
theorem second_file_recorded_twice : (smallSetup .sameLevelNearbyKeysSimple).Accepted ∧
    Unrecorded smallDevice ∧
    ∃ d, Reaches (step (smallSetup .sameLevelNearbyKeysSimple)) anyStep smallDevice d ∧
      d.place.lists = [[1, 2, 2]] ∧ ¬ d.place.lists.flatten.Nodup := by
  refine ⟨smallSetup_accepted _, smallDevice_unrecorded, ?_⟩
  exact Reaches.of_any (openSst 1 [1] ++ [(.closeWR 1, 9)] ++ openSst 2 [2] ++
    [(.bufferedAppend 2 [7], 9), (.closeWR 2, 9)]) (by decide +kernel)

end ZenFs.Device
