import ZenFs.Device.Uniqueness

/-!
The numbers by which the rankings divide.

`OverlapRankHelperKeyBased` divides by `num_entries_` and `OverlapRankHelperSizeBased` by
`compensated_file_size_`, for the file that asks for a zone and for all recorded files of its
level or the one above. `UpdateMetadata`, which reports them, may be called after the first
flush; the sizes are computed in 64 bits.
-/

namespace ZenFs.Device

open Library Task Judgement List FileInfo

variable {a : Operation × ℕ} {bodies : Handle → FileBody} {d₀ : Zbd} {g : Handle} {o : Operation}
variable {spins : ℕ}

namespace FileInfo

variable (f : FileInfo)

def sizeSeen (n : ℕ) : ℕ := max (max f.fileSizeMeta n) f.allocSize

def compensation (average : ℕ) : ℕ :=
  (2 * (f.numDeletions - f.numRangeDeletions) - f.numEntries) * average * 2 +
    f.compensatedRangeDeletionSize

def SizeFits (average n : ℕ) : Prop := f.sizeSeen n + f.compensation average < 2 ^ 64

end FileInfo

theorem u64_le (n : ℕ) : u64 n ≤ n := Nat.mod_le _ _

theorem u64Sub_le {b : ℕ} {a : ℕ} (h : b ≤ a) : u64Sub a b ≤ a - b := by
  have hsub : u64Sub a b = (a - b) % 2 ^ 64 := by
    rw [u64Sub]
    omega
  rw [hsub]
  exact Nat.mod_le _ _

theorem FileInfo.sizeSeen_le_compensated {f : FileInfo} {average n : ℕ}
    (hranges : f.numRangeDeletions ≤ f.numDeletions) (hfits : f.SizeFits average n) :
    f.sizeSeen n ≤ (f.computeCompensatedSize average n).compensatedFileSize := by
  have hdeleted : u64 (u64Sub f.numDeletions f.numRangeDeletions * 2) ≤
      2 * (f.numDeletions - f.numRangeDeletions) := by
    have hsub := u64Sub_le hranges
    have hle := u64_le (u64Sub f.numDeletions f.numRangeDeletions * 2)
    omega
  have hextra : (if u64 (u64Sub f.numDeletions f.numRangeDeletions * 2) ≥ f.numEntries then
      u64 (u64Sub (u64 (u64Sub f.numDeletions f.numRangeDeletions * 2)) f.numEntries *
        average * 2) else 0) ≤
      (2 * (f.numDeletions - f.numRangeDeletions) - f.numEntries) * average * 2 := by
    split
    · next hmore =>
      have hsub := u64Sub_le hmore
      refine (u64_le _).trans ?_
      gcongr
      exact hsub.trans (by omega)
    · exact Nat.zero_le _
  have hsum := hfits
  rw [SizeFits, compensation] at hsum
  simp only [computeCompensatedSize, sizeSeen] at hsum ⊢
  rw [u64]
  omega

theorem FileInfo.computeCompensatedSize_idem (f : FileInfo) (average n : ℕ) :
    (f.computeCompensatedSize average n).computeCompensatedSize average n =
      f.computeCompensatedSize average n := by
  have hmax : max (max (max (max f.fileSizeMeta n) f.allocSize) n) f.allocSize =
      max (max f.fileSizeMeta n) f.allocSize := by omega
  simp only [computeCompensatedSize, hmax]
  rfl

namespace Placement

variable {p : Placement} {h : Handle}

theorem computeCompensatedSizes_info (hg : g ∈ h :: p.recorded) :
    (p.computeCompensatedSizes h bodies).info g =
      (p.info g).computeCompensatedSize p.averageValueSize (bodies g).fileSize := by
  -- a file that occurs again is computed again, to the same size
  have hfold (l : List Handle) (q : Placement) :
      (l.foldl (fun q g => q.setInfo g ((q.info g).computeCompensatedSize q.averageValueSize
        (bodies g).fileSize)) q).info g = if g ∈ l then
          (q.info g).computeCompensatedSize q.averageValueSize (bodies g).fileSize
        else q.info g := by
    induction l generalizing q with
    | nil => rfl
    | cons x rest ih =>
      rw [foldl_cons, ih]
      by_cases hx : g = x
      · subst hx
        simp only [setInfo_info_self, mem_cons_self, if_true]
        have havg (f : FileInfo) : (q.setInfo g f).averageValueSize = q.averageValueSize := rfl
        split
        · rw [havg, computeCompensatedSize_idem]
        · rfl
      · rw [setInfo_info_of_ne _ _ _ hx]
        simp only [mem_cons, hx, false_or]
        rfl
  rw [recorded] at hg
  rw [computeCompensatedSizes, hfold, if_pos hg]

end Placement

open Placement

/-- The containers that `OverlapRankHelperKeyBased` is called with when a policy runs for the
file. -/
def keyContainers (e : Setup) (h : Handle) (d : Zbd) : Policy → List (List Handle)
  | .oaza =>
    let p := d.place.computeCompensatedSizes h d.bodies
    let level := (p.info h).level
    if !p.hasLevel level then []
    else if level < p.maxLevel ∧ p.getOverlapFileCount e h (level + 1) = 0 then []
    else if level = p.maxLevel ∧ p.getOverlapFileCount e h (level - 1) = 0 then []
    else [p.ownLevel h level]
  | _ => []

def sizeContainers (e : Setup) (h : Handle) (d : Zbd) : Policy → List (List Handle)
  | .overlapChildren =>
    let p := d.place.computeCompensatedSizes h d.bodies
    let level := p.sunkLevel e h
    let p := p.sink e h
    if !p.hasLevel level then []
    else [p.ownLevel h level, if level - 1 ≥ 0 then upperLevel h p level else []]
  | .overlapGrandchildren =>
    let p := d.place.computeCompensatedSizes h d.bodies
    let level := p.sunkLevel e h
    [p.ownLevel h level, if level - 1 > 0 then upperLevel h p level else []]
  | _ => []

variable {level : ℤ}

section Mem

variable {e : Setup} {h : Handle} {p : Placement} {d : Zbd} {policy : Policy} {l : List Handle}

theorem mem_recorded_of_mem_listOf (hg : g ∈ p.listOf level) : g ∈ p.recorded := by
  rw [listOf] at hg
  split at hg
  · cases hg
  · cases hl : p.lists[level.toNat]? with
    | none => simp [hl] at hg
    | some l =>
      rw [hl] at hg
      exact mem_flatten.mpr ⟨l, mem_of_getElem? hl, hg⟩

theorem mem_ownLevel (hg : g ∈ p.ownLevel h level) : g ∈ h :: p.recorded := by
  rcases mem_cons.mp hg with rfl | hg
  · exact mem_cons_self
  · exact mem_cons_of_mem _ (mem_recorded_of_mem_listOf (mem_filter.mp hg).1)

theorem mem_upperLevel (hg : g ∈ upperLevel h p level) : g ∈ p.recorded :=
  mem_recorded_of_mem_listOf (mem_filter.mp hg).1

theorem recorded_computeCompensatedSizes (bodies : Handle → FileBody) :
    (p.computeCompensatedSizes h bodies).recorded = p.recorded :=
  (reranked_computeCompensatedSizes p h bodies).recorded_eq

theorem mem_keyContainers (hl : l ∈ keyContainers e h d policy) (hg : g ∈ l) :
    g ∈ h :: d.place.recorded := by
  cases policy with
  | oaza =>
    simp only [keyContainers] at hl
    split at hl
    · cases hl
    · split at hl
      · cases hl
      · split at hl
        · cases hl
        · obtain rfl := mem_singleton.mp hl
          have hmem := mem_ownLevel hg
          rwa [recorded_computeCompensatedSizes] at hmem
  | _ => cases hl

theorem mem_sink (hg : g ∈ h :: (p.sink e h).recorded) : g ∈ h :: p.recorded := by
  rcases mem_cons.mp hg with rfl | hg
  · exact mem_cons_self
  · rw [sink] at hg
    split at hg
    · rcases (onlyAdds_relevel _).recorded g hg with hg | rfl
      · exact mem_cons_of_mem _ hg
      · exact mem_cons_self
    · exact mem_cons_of_mem _ hg

theorem mem_containers {asked : Prop} [Decidable asked]
    (hl : l ∈ [p.ownLevel h level, if asked then upperLevel h p level else []]) (hg : g ∈ l) :
    g ∈ h :: p.recorded := by
  rcases mem_cons.mp hl with rfl | hl
  · exact mem_ownLevel hg
  · obtain rfl := mem_singleton.mp hl
    split at hg
    · exact mem_cons_of_mem _ (mem_upperLevel hg)
    · cases hg

theorem mem_sizeContainers (hl : l ∈ sizeContainers e h d policy) (hg : g ∈ l) :
    g ∈ h :: d.place.recorded := by
  rw [← recorded_computeCompensatedSizes (h := h) d.bodies]
  cases policy with
  | overlapChildren =>
    simp only [sizeContainers] at hl
    split at hl
    · cases hl
    · exact mem_sink (mem_containers hl hg)
  | overlapGrandchildren =>
    exact mem_containers hl hg
  | _ => cases hl

end Mem

section Safe

variable (e : Setup) (h : Handle) (d : Zbd)

def KeySafe : Prop := (d.place.info h).listed → ∀ policy, ∀ l ∈ keyContainers e h d policy,
  ∀ g ∈ l, ((d.place.computeCompensatedSizes h d.bodies).info g).numEntries ≠ 0

/-- The sizes that a ranking for the file computes are 64-bit numbers. -/
def SizesFit : Prop := ∀ g ∈ h :: d.place.recorded,
  (d.place.info g).SizeFits d.place.averageValueSize (d.bodies g).fileSize

def SizeSafe : Prop := (d.place.info h).listed → SizesFit h d → ∀ policy,
  ∀ l ∈ sizeContainers e h d policy, ∀ g ∈ l,
    ((d.place.computeCompensatedSizes h d.bodies).info g).compensatedFileSize ≠ 0

def Unwrapped : Prop := SizesFit h d → ∀ g ∈ h :: d.place.recorded,
  ((d.place.computeCompensatedSizes h d.bodies).info g).fileSizeMeta ≤
    ((d.place.computeCompensatedSizes h d.bodies).info g).compensatedFileSize

end Safe

/-- `G` still holds of a file when more entries or a larger size are reported. -/
def Lasting (G : FileInfo → Prop) : Prop :=
  ∀ f f' : FileInfo, f.numEntries ≤ f'.numEntries → f.fileSizeMeta ≤ f'.fileSizeMeta → G f → G f'

variable {e : Setup} {h : Handle} {p q : Placement} {d t : Zbd}
variable {G : FileInfo → Prop} {R : Prop} {b : Bool} {S : Zbd → Prop}

/-- All recorded files have `G`, and, where `R` asks for it, no file has more range deletions
than deletions. -/
structure Noted (G : FileInfo → Prop) (R : Prop) (p : Placement) : Prop where
  recorded : ∀ g ∈ p.recorded, G (p.info g)
  ranges : R → ∀ g, (p.info g).numRangeDeletions ≤ (p.info g).numDeletions

namespace Noted

theorem reranked (hG : Lasting G) (hp : Noted G R p) (hr : Reranked p q) : Noted G R q := by
  have hentries (g : Handle) : (p.info g).numEntries ≤ (q.info g).numEntries :=
    (congrArg (·.1) (hr.counts g)).ge
  have hdeletions (g : Handle) : (q.info g).numDeletions = (p.info g).numDeletions :=
    congrArg (·.2.1) (hr.counts g)
  have hranges (g : Handle) : (q.info g).numRangeDeletions = (p.info g).numRangeDeletions :=
    congrArg (·.2.2) (hr.counts g)
  constructor
  · intro g hg
    rw [hr.recorded_eq] at hg
    exact hG _ _ (hentries g) (hr.size g) (hp.recorded g hg)
  · intro hR g
    rw [hdeletions, hranges]
    exact hp.ranges hR g

theorem setInfo {f : FileInfo} (hG : Lasting G) (hp : Noted G R p)
    (hentries : (p.info h).numEntries ≤ f.numEntries)
    (hsize : (p.info h).fileSizeMeta ≤ f.fileSizeMeta)
    (hranges : R → f.numRangeDeletions ≤ f.numDeletions) : Noted G R (p.setInfo h f) := by
  constructor
  · intro g hg
    by_cases hgh : g = h
    · subst hgh
      rw [setInfo_info_self]
      exact hG _ _ hentries hsize (hp.recorded g hg)
    · rw [setInfo_info_of_ne _ _ _ hgh]
      exact hp.recorded g hg
  · intro hR g
    by_cases hgh : g = h
    · subst hgh
      rw [setInfo_info_self]
      exact hranges hR
    · rw [setInfo_info_of_ne _ _ _ hgh]
      exact hp.ranges hR g

theorem remove (hp : Noted G R p) : Noted G R (p.removeZoneFileRecord h) :=
  ⟨fun g hg => hp.recorded g (mem_removeZoneFileRecord.mp hg).1, hp.ranges⟩

theorem add (hp : Noted G R p) (hown : (p.info h).listed = true → G (p.info h)) :
    Noted G R (p.addZoneFileRecord e h) := by
  constructor
  · intro g hg
    rw [addZoneFileRecord_info]
    rcases mem_of_mem_addZoneFileRecord hg with hg | ⟨rfl, hl⟩
    · exact hp.recorded g hg
    · exact hown hl
  · intro hR g
    rw [addZoneFileRecord_info]
    exact hp.ranges hR g

theorem relevel (hG : Lasting G) (hp : Noted G R p)
    (hown : { p.info h with level := level }.listed = true → G (p.info h)) :
    Noted G R (p.relevel e h level) := by
  apply add
  · exact hp.remove.setInfo hG le_rfl le_rfl fun hR => hp.ranges hR h
  · intro hl
    rw [setLevel, setInfo_info_self] at hl ⊢
    exact hG (p.info h) _ le_rfl le_rfl (hown hl)

end Noted

/-- While an operation works for a file: if the file is one of the lists, it has `G` too. -/
structure Ready (G : FileInfo → Prop) (R : Prop) (h : Handle) (b : Bool) (p : Placement) : Prop
    extends Noted G R p where
  listed : (p.info h).listed = b
  own : b = true → G (p.info h)

variable {f : Zbd → Placement × List Handle}

namespace Ready

theorem mem (hp : Ready G R h true p) (hg : g ∈ h :: p.recorded) : G (p.info g) := by
  rcases mem_cons.mp hg with rfl | hg
  · exact hp.own rfl
  · exact hp.recorded g hg

theorem reranked (hG : Lasting G) (hp : Ready G R h b p) (hr : Reranked p q) : Ready G R h b q where
  toNoted := hp.toNoted.reranked hG hr
  listed := (listed_eq (hr.identity h)).trans hp.listed
  own hb := hG _ _ (congrArg (·.1) (hr.counts h)).ge (hr.size h) (hp.own hb)

theorem setAllocSize (hG : Lasting G) (hp : Ready G R h b p) (n : ℕ) :
    Ready G R h b (p.setInfo h { p.info h with allocSize := n }) where
  toNoted := hp.toNoted.setInfo hG le_rfl le_rfl fun hR => hp.ranges hR h
  listed := by
    rw [setInfo_info_self]
    exact hp.listed
  own hb := by
    rw [setInfo_info_self]
    exact hG (p.info h) _ le_rfl le_rfl (hp.own hb)

theorem raiseMaxLevel (hp : Ready G R h b p) (level : ℤ) :
    Ready G R h b (p.raiseMaxLevel level) := by
  rw [Placement.raiseMaxLevel]
  split
  · exact ⟨⟨hp.recorded, hp.ranges⟩, hp.listed, hp.own⟩
  · exact hp

theorem relevel (hG : Lasting G) (hp : Ready G R h true p) (hpos : 0 ≤ level) :
    Ready G R h true (p.relevel e h level) where
  toNoted := hp.toNoted.relevel hG fun _ => hp.own rfl
  listed := by
    have hl := hp.listed
    rw [relevel_info_self]
    simp only [FileInfo.listed, Bool.and_eq_true, decide_eq_true_eq] at hl ⊢
    exact ⟨⟨hl.1.1, hpos⟩, hl.2⟩
  own _ := by
    rw [relevel_info_self]
    exact hG (p.info h) _ le_rfl le_rfl (hp.own rfl)

theorem policy (hG : Lasting G) {policy : Policy}
    (hf : policyChange e h policy = some f) (hd : Ready G R h true d.place) :
    Ready G R h true (f d).1 := by
  obtain ⟨r, hr, hrecord⟩ := policyChange_records hf d
  have hready := hd.reranked hG hr
  refine Ready.reranked hG ?_ hrecord
  cases hnew : d.place.newLevel e h policy with
  | none => exact hready
  | some level => exact hready.relevel hG ((level_nonneg hd.listed).trans (level_le_newLevel hnew))

end Ready

/-- `S` holds whenever `levelwise_files_mtx_` is taken, as the policies do that rank. -/
def AtLists (S : Zbd → Prop) (o : Call) (d : Zbd) : Prop := o = .lock .levelwiseFiles → S d

abbrev ranking (e : Setup) (G : FileInfo → Prop) (R : Prop) (h : Handle) (b : Bool)
    (S : Zbd → Prop) : Judgement Call.Res :=
  .heeds (exec e) (AtLists S) fun d => Ready G R h b d.place

theorem indifferent_ranking (hS : ∀ d : Zbd, Ready G R h b d.place → S d) :
    Indifferent (ranking e G R h b S) := by
  intro o ho hdel s hs
  apply Heeds.op
  · exact fun _ => hS s hs
  · intro r t hr
    refine ⟨?_, trivial⟩
    change Ready G R h b t.place
    rw [exec_place ho hdel hr]
    exact hs

theorem ranking_place
    (hf : ∀ d : Zbd, Ready G R h b d.place → Ready G R h b (f d).1) :
    (ranking e G R h b S).Calls (.place f) := by
  intro s hs
  apply Heeds.op nofun
  rintro _ _ ⟨⟩
  exact ⟨hf s hs, trivial⟩

theorem places_ranking (hG : Lasting G) : Places e h (ranking e G R h b S) where
  raiseForEmptyZone level := by
    apply ranking_place
    intro d hd
    rw [raiseForEmptyZone]
    split
    · exact hd.raiseMaxLevel level
    · exact hd
  raiseMaxLevel := ranking_place fun _ hd => hd.raiseMaxLevel _
  setAllocSize n := ranking_place fun _ hd => hd.setAllocSize hG n
  policies := by
    intro s hs
    apply Heeds.op (by rintro ⟨⟩)
    rintro _ _ ⟨⟩
    refine ⟨hs, fun hlisted policy _ f hf => ranking_place fun d hd => ?_⟩
    obtain rfl : b = true := hs.listed.symm.trans hlisted
    exact Ready.policy hG hf hd

/-- A file of the lists has `G` when it is written, migrated or recorded, and, where `R` asks
for it, no more range deletions are reported than deletions. -/
def Reported (G : FileInfo → Prop) (R : Prop) (d : Zbd) (a : Operation × ℕ) : Prop :=
  match a.1 with
  | .updateMetadata _ _ deletions ranges _ _ _ => R → ranges ≤ deletions
  | .bufferedAppend h _ => (d.place.info h).listed = true → G (d.place.info h)
  | .sparseAppend h _ => (d.place.info h).listed = true → G (d.place.info h)
  | .append h _ => (d.place.info h).listed = true → G (d.place.info h)
  | .migrateFileExtents h _ => (d.place.info h).listed = true → G (d.place.info h)
  | .closeWR h => (d.place.info h).listed = true → G (d.place.info h)
  | .moveFileToNewLevel h level =>
    { d.place.info h with level := level }.listed = true → G (d.place.info h)
  | _ => True

theorem allocates_heeds (hS : ∀ d : Zbd, ∀ b, Ready G R h b d.place → S d) (hG : Lasting G)
    (hd : Noted G R d.place) (ha : a.1.allocatesFor = some h)
    (hreported : Reported G R d a) :
    (programOf e me a.2 a.1).Heeds (exec e) (AtLists S) d fun _ t => Noted G R t.place := by
  have hready : Ready G R h (d.place.info h).listed d.place := by
    refine ⟨hd, rfl, ?_⟩
    obtain ⟨o, spins⟩ := a
    cases o <;> cases ha <;> exact hreported
  have hworks : Works e me h (ranking e G R h (d.place.info h).listed S) :=
    (indifferent_ranking fun d hd => hS d _ hd).works (places_ranking hG)
  exact (programOf_admits ha hworks a.2 d hready).mono fun _ _ ht => ht.1.toNoted

theorem Noted.createOrUpdateRecord (hG : Lasting G) (hp : Noted G R p)
    (hown : (p.info h).listed = true → G (p.info h)) :
    Noted G R (p.createOrUpdateRecord e h) := by
  rw [Placement.createOrUpdateRecord]
  split
  · exact hp
  · apply Noted.setInfo hG
    · split
      · exact hp.remove.add hown
      · exact hp.add hown
    · rw [addZoneFileRecord_info]
      split <;> rfl
    · rw [addZoneFileRecord_info]
      split <;> rfl
    · exact fun hR => hp.ranges hR h

theorem noted_placement (hG : Lasting G) (hd : Noted G R d.place)
    (hreported : Reported G R d (o, spins)) : Noted G R (o.placement e d.place) := by
  cases o with
  | create h | setWriteLifeTimeHint h | setLevel h | updateInternalKeys h
  | updateInternalKeysRange h =>
    exact hd.setInfo hG le_rfl le_rfl fun hR => hd.ranges hR h
  | updateMetadata h n m r s c average =>
    have hset : Noted G R (d.place.setInfo h ((d.place.info h).updateMetadata n m r s c)) :=
      hd.setInfo hG (le_max_left _ _) (le_max_left _ _) fun hR =>
        max_le_max (hd.ranges hR h) (hreported hR)
    exact ⟨hset.recorded, hset.ranges⟩
  | closeWR h => exact hd.createOrUpdateRecord hG hreported
  | moveFileToNewLevel h level => exact hd.relevel hG hreported
  | setDeleted h =>
    apply Noted.remove
    exact hd.setInfo hG le_rfl le_rfl fun hR => hd.ranges hR h
  | _ => exact hd

theorem noted_step (hG : Lasting G) (hd : Noted G R d.place)
    (hreported : Reported G R d a) (hstep : step e d a = some t) : Noted G R t.place := by
  refine step_ends (Q := fun t => Noted G R t.place) hstep ?_
  cases ha : a.1.allocatesFor with
  | some h =>
    exact (allocates_heeds (S := fun _ => True) (fun _ _ _ => trivial) hG hd ha hreported).ends
  | none =>
    refine (programOf_placement ha a.2).mono fun _ t ht => ?_
    rw [ht]
    exact noted_placement hG hd hreported

def HasEntries (f : FileInfo) : Prop := 0 < f.numEntries

def HasSize (f : FileInfo) : Prop := 0 < f.fileSizeMeta

instance (f : FileInfo) : Decidable (HasEntries f) := inferInstanceAs (Decidable (0 < _))

instance [DecidablePred G] [Decidable R] (d : Zbd) (a : Operation × ℕ) :
    Decidable (Reported G R d a) := by
  unfold Reported
  split <;> infer_instance

theorem lasting_hasEntries : Lasting HasEntries := fun _ _ hentries _ hf => hf.trans_le hentries

theorem lasting_hasSize : Lasting HasSize := fun _ _ _ hsize hf => hf.trans_le hsize

theorem Ready.keySafe (hd : Ready HasEntries R h b d.place) : KeySafe e h d := by
  intro hl policy l hcontainer g hg
  obtain rfl : b = true := hd.listed.symm.trans hl
  have hentries : 0 < (d.place.info g).numEntries := hd.mem (mem_keyContainers hcontainer hg)
  have hcounts := (reranked_computeCompensatedSizes d.place h d.bodies).counts g
  have hsame := congrArg (·.1) hcounts
  exact (hsame.trans_gt hentries).ne'

theorem Ready.size_le (hd : Ready G True h b d.place) (hfits : SizesFit h d)
    (hg : g ∈ h :: d.place.recorded) :
    ((d.place.computeCompensatedSizes h d.bodies).info g).fileSizeMeta ≤
      ((d.place.computeCompensatedSizes h d.bodies).info g).compensatedFileSize := by
  rw [computeCompensatedSizes_info hg]
  exact sizeSeen_le_compensated (hd.ranges trivial g) (hfits g hg)

theorem Ready.sizeSafe (hd : Ready HasSize True h b d.place) : SizeSafe e h d := by
  intro hl hfits policy l hcontainer g hg
  obtain rfl : b = true := hd.listed.symm.trans hl
  have hmem := mem_sizeContainers hcontainer hg
  have hsize : 0 < (d.place.info g).fileSizeMeta := hd.mem hmem
  have hmeta := (reranked_computeCompensatedSizes d.place h d.bodies).size g
  exact ((hsize.trans_le hmeta).trans_le (hd.size_le hfits hmem)).ne'

theorem noted_of_reported (hG : Lasting G) (h₀ : Unrecorded d₀)
    (hrun : Reaches (step e) (Reported G R) d₀ d) : Noted G R d.place := by
  have hinit : Noted G R d₀.place := by
    constructor
    · intro g hg
      rw [recorded, h₀.lists] at hg
      cases hg
    · intro _ g
      rw [h₀.info g]
      exact le_rfl
  exact hrun.keeps hinit fun hv hok hstep => noted_step hG hv hok hstep

/-- Whenever an operation that may ask for a zone comes to rank files: all files ranked by keys
have entries, if the entries of every file are reported before it is written, migrated or
recorded; all files ranked by size have a size, if their sizes are reported by then and no more
range deletions than deletions are; and if only the latter holds, no size wraps. -/
theorem divisors_of_reported {d₀ : Zbd} (h₀ : Unrecorded d₀) {a : Operation × ℕ}
    (ha : a.1.allocatesFor = some h) :
    (Reaches (step e) (Reported HasEntries False) d₀ d → Reported HasEntries False d a →
      (programOf e me a.2 a.1).Heeds (exec e) (AtLists (KeySafe e h)) d fun _ _ => True) ∧
    (Reaches (step e) (Reported HasSize True) d₀ d → Reported HasSize True d a →
      (programOf e me a.2 a.1).Heeds (exec e) (AtLists (SizeSafe e h)) d fun _ _ => True) ∧
    (Reaches (step e) (Reported (fun _ => True) True) d₀ d → Reported (fun _ => True) True d a →
      (programOf e me a.2 a.1).Heeds (exec e) (AtLists (Unwrapped h)) d fun _ _ => True) := by
  refine ⟨fun hrun hok => ?_, fun hrun hok => ?_, fun hrun hok => ?_⟩
  · have hnoted := noted_of_reported lasting_hasEntries h₀ hrun
    exact (allocates_heeds (fun _ _ hd => hd.keySafe) lasting_hasEntries hnoted ha hok).mono
      fun _ _ _ => trivial
  · have hnoted := noted_of_reported lasting_hasSize h₀ hrun
    exact (allocates_heeds (fun _ _ hd => hd.sizeSafe) lasting_hasSize hnoted ha hok).mono
      fun _ _ _ => trivial
  · have hlasting : Lasting fun _ => True := fun _ _ _ _ _ => trivial
    have hnoted := noted_of_reported hlasting h₀ hrun
    exact (allocates_heeds (fun _ _ hd hfits _ hg => hd.size_le hfits hg) hlasting hnoted ha hok).mono
      fun _ _ _ => trivial

/-- A file of level 1 and two of level 0 with the same key; the first two are closed, and the
third one is about to be written. -/
def threeFiles (reports : Handle → List (Operation × ℕ)) : List (Operation × ℕ) :=
  openSst 2 [1] ++ [(.setLevel 2 1, 9)] ++ reports 2 ++ [(.closeWR 2, 9)] ++
    openSst 1 [1] ++ reports 1 ++ [(.closeWR 1, 9)] ++ openSst 3 [1] ++ reports 3

/-- The third file is ranked together with the first one, and both have entries. -/
theorem divisors_threeFiles : Unrecorded smallDevice ∧
    ∃ d, Reaches (step (smallSetup .oaza)) (Reported HasEntries False) smallDevice d ∧
      keyContainers (smallSetup .oaza) 3 d .oaza = [[3, 1]] ∧
      (programOf (smallSetup .oaza) me 9 (.bufferedAppend 3 [7])).Heeds (exec (smallSetup .oaza))
        (AtLists (KeySafe (smallSetup .oaza) 3)) d fun _ _ => True := by
  refine ⟨smallDevice_unrecorded, Reaches.of_any_imp
    (P := fun d => keyContainers (smallSetup .oaza) 3 d .oaza = [[3, 1]] ∧
      Reported HasEntries False d (.bufferedAppend 3 [7], 9))
    (threeFiles fun h => [(.updateMetadata h 2 0 0 16 0 0, 9)]) (by decide +kernel) ?_⟩
  intro d hd ⟨hranked, hreported⟩
  exact ⟨hranked,
    (divisors_of_reported smallDevice_unrecorded rfl).1 hd hreported⟩

/-- Nothing was reported of the third file before its first flush, and the first one has a
compensated range deletion size that makes its size wrap. -/
theorem no_entries_ranked : (smallSetup .oaza).Accepted ∧ Unrecorded smallDevice ∧
    ∃ d, Reaches (step (smallSetup .oaza)) anyStep smallDevice d ∧
      (d.place.info 3).listed = true ∧ (d.bodies 3).activeZone = none ∧
      (smallSetup .oaza).getPolicy (d.place.info 3).level = .oaza ∧
      keyContainers (smallSetup .oaza) 3 d .oaza = [[3, 1]] ∧
      ((d.place.computeCompensatedSizes 3 d.bodies).info 3).numEntries = 0 ∧
      ¬ KeySafe (smallSetup .oaza) 3 d ∧
      (d.place.info 1).numRangeDeletions ≤ (d.place.info 1).numDeletions ∧
      ((d.place.computeCompensatedSizes 3 d.bodies).info 1).compensatedFileSize <
        ((d.place.computeCompensatedSizes 3 d.bodies).info 1).fileSizeMeta := by
  refine ⟨smallSetup_accepted _, smallDevice_unrecorded, Reaches.of_any_imp
    (P := fun d => ((d.place.info 3).listed = true ∧ (d.bodies 3).activeZone = none ∧
      (smallSetup .oaza).getPolicy (d.place.info 3).level = .oaza) ∧
      keyContainers (smallSetup .oaza) 3 d .oaza = [[3, 1]] ∧
      ((d.place.computeCompensatedSizes 3 d.bodies).info 3).numEntries = 0 ∧
      (d.place.info 1).numRangeDeletions ≤ (d.place.info 1).numDeletions ∧
      ((d.place.computeCompensatedSizes 3 d.bodies).info 1).compensatedFileSize <
        ((d.place.computeCompensatedSizes 3 d.bodies).info 1).fileSizeMeta)
    (threeFiles fun h => if h = 3 then [] else
      [(.updateMetadata h 2 0 0 16 (2 ^ 64 - 1) 0, 9)]) (by decide +kernel) ?_⟩
  intro d _ ⟨⟨hlisted, hactive, hpolicy⟩, hranked, hentries, hranges, hwraps⟩
  refine ⟨hlisted, hactive, hpolicy, hranked, hentries, ?_, hranges, hwraps⟩
  intro hsafe
  exact hsafe hlisted .oaza [3, 1] (by rw [hranked]; exact mem_cons_self) 3
    mem_cons_self hentries

end ZenFs.Device
