import ZenFs.Filenames.Knowledge

/-!
Careful threads never read the name of a file without names.

Every program is followed with what its thread knows: the functions that need `files_mtx_` start
and end with coherent entries, and all others leave a thread with what it knew before.
-/

namespace ZenFs.Filenames

open Library Task Judgement Discipline List Safe

variable {buffered direct leveled listed reopen : Bool} {dest fname lname source src : Name}
variable {entries : List (Name × Handle)} {f : View} {renameChild : Name → Name → NameTask Status}
variable {s : Shared}
variable {e : Answers} {i : ℕ} {v : Local} {h : Handle} {n : Name} {α : Type}

theorem forAll_admits {L : Judgement Call.Res} {body : α → NameTask Unit} :
    ∀ {l : List α}, (∀ a ∈ l, L.Admits (body a)) → L.Admits (forAll body l)
  | [], _ => admits_ret _
  | a :: _, hbody => admits_bind (hbody a mem_cons_self) fun _ =>
      forAll_admits fun b hb => hbody b (mem_cons_of_mem a hb)

theorem untilFailure_admits {L : Judgement Call.Res} {body : α → NameTask Status}
    (hbody : ∀ a, L.Admits (body a)) : ∀ l : List α, L.Admits (untilFailure body l)
  | [] => admits_ret _
  | a :: l => admits_bind (hbody a) fun s => by
      split
      · exact untilFailure_admits hbody l
      · exact admits_ret _

theorem safe_withMutex_files {body : NameTask α} {R : α → Local → Prop}
    (hbody : ∀ f : View, f.Coherent → (names e).Safe i body { v with view := some f } fun a w =>
      (∃ g, w.view = some g ∧ g.Coherent) ∧ R a { w with view := none }) :
    (names e).Safe i (withMutex i .files body) v R := by
  apply safe_lock_files.seq
  rintro _ w ⟨f, hf, rfl⟩
  apply (hbody f hf).seq
  rintro a w ⟨⟨g, hg, hcoh⟩, hR⟩
  apply (safe_unlock_files hg hcoh).seq
  rintro _ w rfl
  exact .ret hR

theorem safe_withMutex_levelwiseFiles {body : NameTask α}
    (hbody : (names e).Safe i body { v with lists := .held } fun _ w =>
      w.lists.Held ∧ { w with lists := .away } = v) :
    ((names e).judgement i v).Admits (withMutex i .levelwiseFiles body) := by
  apply safe_lock_levelwiseFiles.seq
  rintro _ w rfl
  apply hbody.seq
  rintro a w ⟨hheld, hw⟩
  apply (safe_unlock_levelwiseFiles hheld).seq
  rintro _ u rfl
  exact .ret ⟨hw, trivial⟩

section

variable (haway : v.lists = .away)
include haway

theorem restore_lists : { v with lists := .away } = v := by
  cases v
  cases haway
  rfl

theorem addZoneFileRecord_safe (listed : Bool) :
    ((names e).judgement i v).Admits (addZoneFileRecord i h listed) := by
  apply safe_withMutex_levelwiseFiles
  cases listed with
  | true =>
    apply (safe_addRecord rfl).mono
    rintro _ w ⟨rfl, -⟩
    exact ⟨nofun, restore_lists haway⟩
  | false => exact .ret ⟨nofun, restore_lists haway⟩

theorem removeZoneFileRecord_safe :
    ((names e).judgement i v).Admits (removeZoneFileRecord i h) := by
  apply safe_withMutex_levelwiseFiles
  apply (safe_removeRecord rfl).mono
  rintro _ w ⟨rfl, -⟩
  exact ⟨nofun, restore_lists haway⟩

theorem createOrUpdateRecord_safe :
    ((names e).judgement i v).Admits (createOrUpdateRecord i h leveled listed) := by
  refine admits_ite_ret ?_
  apply admits_bind (safe_read rfl rfl)
  intro recorded
  have hrest : ((names e).judgement i v).Admits (do
      addZoneFileRecord i h listed
      call (.setRecorded h)) :=
    admits_bind (addZoneFileRecord_safe haway listed) fun _ => safe_read rfl rfl
  split
  · exact admits_bind (removeZoneFileRecord_safe haway) fun _ => hrest
  · exact hrest

theorem setDeleted_safe :
    ((names e).judgement i v).Admits (setDeleted i h) :=
  admits_bind (safe_read rfl rfl) fun _ => removeZoneFileRecord_safe haway

/-- A policy reads the names of files that it found in the lists under their mutex. -/
theorem matchRecords_safe (p : Survey) :
    ((names e).judgement i v).Admits (matchRecords i h p) := by
  apply safe_withMutex_levelwiseFiles
  have hread : (names e).Safe i (do
      let recorded ← readRecords
      forAll getFilename (p.files.filter (· ∈ recorded))) { v with lists := .held } fun _ w =>
      w.lists.Held ∧ { w with lists := .away } = v := by
    apply (safe_readRecords rfl).seq
    rintro recorded w rfl
    have hnames : ((names e).judgement i { v with lists := .read recorded }).Admits
        (forAll getFilename (p.files.filter (· ∈ recorded))) := by
      apply forAll_admits
      intro g hg
      have hmem : g ∈ recorded := by simpa using (mem_filter.mp hg).2
      exact safe_getFilename (.inr (.inr (.inr ⟨recorded, rfl, hmem⟩)))
    apply hnames.mono
    rintro _ w ⟨rfl, -⟩
    exact ⟨nofun, restore_lists haway⟩
  split
  · apply bind_admits (safe_removeRecord rfl)
    intro _
    apply bind_admits (safe_addRecord rfl)
    intro _
    exact hread
  · exact hread

end

def Local.Guards (v : Local) (h : Handle) : Prop := v.writer = some h ∨ v.lock = some h

theorem Local.Guards.trusts (hh : v.Guards h) : v.Trusts h := by
  obtain hw | hl := hh
  · exact .inr (.inl hw)
  · exact .inr (.inr (.inl hl))

theorem syncFileMetadataNoLock_safe (hh : v.Trusts h) :
    ((names e).judgement i v).Admits (syncFileMetadataNoLock h) := by
  apply admits_bind (safe_read rfl rfl)
  intro deleted
  split
  · exact admits_bind (safe_getFilename hh) fun _ => admits_ret _
  · exact safe_read rfl rfl

structure Local.Outside (v : Local) : Prop where
  view : v.view = none
  lists : v.lists = .away

theorem restore_view (hv : v.view = none) : { v with view := none } = v := by
  cases v
  cases hv
  rfl

section Guarded

variable (hv : v.Outside) (hh : v.Guards h)

include hv hh

theorem syncFileMetadata_safe : ((names e).judgement i v).Admits (syncFileMetadata i h) := by
  apply safe_withMutex_files
  intro f hf
  have hguards : Local.Guards { v with view := some f } h := hh
  apply (syncFileMetadataNoLock_safe hguards.trusts).mono
  rintro s w ⟨rfl, -⟩
  exact ⟨⟨f, rfl, hf⟩, restore_view hv.view, trivial⟩

theorem persist_safe : ((names e).judgement i v).Admits (persist i h) :=
  admits_bind (safe_getFilename hh.trusts) fun _ => syncFileMetadata_safe hv hh

theorem allocateNewZone_safe (a : Allocation) :
    ((names e).judgement i v).Admits (allocateNewZone i h a) := by
  apply admits_bind (forAll_admits fun p _ => matchRecords_safe hv.lists p)
  intro _
  exact admits_ite_ret (admits_ite_ret (persist_safe hv hh))

theorem append_safe (allocations : List Allocation) :
    ((names e).judgement i v).Admits (append i h allocations) :=
  untilFailure_admits (allocateNewZone_safe hv hh) allocations

theorem dataSync_safe (buffered : Bool) (allocations : List Allocation) :
    ((names e).judgement i v).Admits (dataSync i h buffered allocations) := by
  unfold dataSync
  split
  · apply admits_bind (append_safe hv hh allocations)
    intro s
    refine admits_ite_ret ?_
    apply admits_bind (safe_read rfl rfl)
    intro sparse
    split
    · exact persist_safe hv hh
    · exact admits_ret _
  · exact admits_ret _

theorem fsync_safe (buffered : Bool) (allocations : List Allocation) :
    ((names e).judgement i v).Admits (fsync i h buffered allocations) := by
  apply admits_bind (dataSync_safe hv hh buffered allocations)
  intro s
  refine admits_ite_ret ?_
  apply admits_bind (safe_read rfl rfl)
  intro sparse
  exact admits_ite_ret (persist_safe hv hh)

end Guarded

structure Local.Writes (v : Local) (h : Handle) : Prop extends Local.Outside v where
  writer : v.writer = some h

theorem closeInternal_safe (hv : v.Writes h) (buffered : Bool) (allocations : List Allocation)
    (c : Closing) : (names e).Safe i (closeInternal i h buffered allocations c) v
      fun s w => w.Outside ∧ (s.ok = false → w.Writes h) := by
  have hout := hv.toOutside
  have hguards : v.Guards h := .inl hv.writer
  apply bind_admits (dataSync_safe hout hguards buffered allocations)
  intro s
  split
  case isTrue hs => exact .ret ⟨hout, fun _ => hv⟩
  case isFalse =>
    have hclose : (names e).Safe i (closeWR i h c) v fun _ w => w.Writes h := by
      apply bind_admits (createOrUpdateRecord_safe hv.lists)
      intro _
      apply bind_admits (persist_safe hout hguards)
      intro s
      split
      · exact .ret hv
      · apply safe_releaseWRLock.seq
        rintro _ w rfl
        exact .ret ⟨⟨hv.view, hv.lists⟩, hv.writer⟩
    apply hclose.seq
    intro s w hw
    split
    case isTrue => exact .ret ⟨hw.toOutside, fun _ => hw⟩
    case isFalse hs =>
      apply safe_closeWriter.seq
      rintro _ u rfl
      exact .ret ⟨⟨hw.view, hw.lists⟩, fun hfail => absurd hfail (by simpa using hs)⟩

theorem session_safe (actions : List Action) :
    ∀ {v : Local}, v.Writes h →
      (names e).Safe i (session i h buffered actions) v fun _ w => w.Outside := by
  induction actions with
  | nil => exact fun hv => .ret hv.toOutside
  | cons action rest ih =>
    intro v hv
    have hout := hv.toOutside
    have hguards : v.Guards h := .inl hv.writer
    cases action with
    | append allocations => exact .bind_admits (append_safe hout hguards _) fun _ => ih hv
    | sync allocations => exact .bind_admits (dataSync_safe hout hguards _ _) fun _ => ih hv
    | fsync allocations => exact .bind_admits (fsync_safe hout hguards _ _) fun _ => ih hv
    | close allocations c =>
      apply (closeInternal_safe hv buffered allocations c).seq
      intro s w hw
      split
      case isTrue => exact .ret hw.1
      case isFalse hs => exact ih (hw.2 (by simpa using hs))

def Local.Inside (v : Local) : Prop := v.lists = .away ∧ ∃ f, v.view = some f ∧ f.Coherent

/-- Programs that start and end with coherent entries. -/
abbrev inside (e : Answers) (i : ℕ) : Judgement Call.Res := (names e).within i Local.Inside

theorem inside_of_judgement {m : NameTask α}
    (hm : ∀ v, ((names e).judgement i v).Admits m) : (inside e i).Admits m :=
  within_of_judgement fun v _ => hm v

theorem inside_aux {r : AuxRequest} : (inside e i).Admits (aux r) :=
  inside_of_judgement fun _ => safe_read rfl rfl

theorem removeLinkName_safe (hf : v.view = some f) :
    (names e).Safe i (removeLinkName h n) v
      fun _ w => w = { v with view := some (f.eraseLink h n) } := by
  apply (safe_eraseLink hf).seq
  rintro found w ⟨rfl, -⟩
  split
  · exact .ret rfl
  · exact .ret rfl

theorem removeLinkName_ok (hf : v.view = some f) (hn : n ∈ f.linkfiles h) :
    (names e).Safe i (removeLinkName h n) v
      fun s w => w = { v with view := some (f.eraseLink h n) } ∧ s = .OK := by
  apply (safe_eraseLink hf).seq
  rintro found w ⟨rfl, rfl⟩
  rw [decide_eq_true hn]
  exact .ret ⟨rfl, rfl⟩

theorem renameLink_safe (hf : v.view = some f) :
    (names e).Safe i (renameLink h src dest) v fun s w =>
      if s.ok then w = { v with view := some ((f.eraseLink h src).addLinkName h dest) }
      else w = { v with view := some f } := by
  apply (safe_eraseLink hf).seq
  rintro found w ⟨rfl, rfl⟩
  by_cases hmem : src ∈ f.linkfiles h
  · rw [decide_eq_true hmem]
    apply (safe_addLinkName rfl).seq
    rintro _ w rfl
    exact .ret rfl
  · rw [decide_eq_false hmem]
    apply Safe.ret
    simp [View.eraseLink, erase_of_not_mem hmem]

theorem deleteFileNoLock_inside : (inside e i).Admits (deleteFileNoLock i n) := by
  rintro v ⟨haway, f, hf, hcoh⟩
  apply (safe_getFile hf).seq
  rintro found w ⟨rfl, rfl⟩
  cases f.files[n]? with
  | none => exact inside_aux w ⟨haway, f, hf, hcoh⟩
  | some h =>
    apply (safe_eraseFile hf).seq
    rintro _ u rfl
    apply (removeLinkName_safe rfl).seq
    rintro s u rfl
    have herased : ((f.eraseFile n).eraseLink h n).Coherent := hcoh.eraseLink_eraseFile
    split
    · exact .ret ⟨⟨haway, _, rfl, herased⟩, trivial⟩
    · apply bind_admits (safe_read rfl rfl)
      intro s
      split
      · -- the deletion could not be persisted: the name comes back
        apply (safe_insertFile rfl).seq
        rintro _ u rfl
        apply (safe_addLinkName rfl).seq
        rintro _ u rfl
        exact .ret ⟨⟨haway, _, rfl, herased.insertFile_addLinkName⟩, trivial⟩
      · apply bind_admits (safe_read rfl rfl)
        intro links
        split
        · exact .ret ⟨⟨haway, _, rfl, herased⟩, trivial⟩
        · refine .bind_admits (setDeleted_safe (by exact haway)) fun _ => ?_
          exact .ret ⟨⟨haway, _, rfl, herased⟩, trivial⟩

theorem trusts_of_mem (hf : v.view = some f) (hn : n ∈ f.linkfiles h) : v.Trusts h :=
  .inl ⟨f, hf, ne_nil_of_mem hn⟩

theorem linkFileNoLock_inside :
    (inside e i).Admits (linkFileNoLock fname lname) := by
  rintro v ⟨haway, f, hf, hcoh⟩
  have hin : v.Inside := ⟨haway, f, hf, hcoh⟩
  apply bind_admits (safe_read rfl rfl)
  intro taken
  split
  · exact .ret ⟨hin, trivial⟩
  · apply bind_admits (safe_read rfl rfl)
    intro found
    cases found with
    | none => exact .ret ⟨hin, trivial⟩
    | some h =>
      apply (safe_addLinkName hf).seq
      rintro _ u rfl
      apply (safe_insertFile rfl).seq
      rintro _ u rfl
      have hlinked : ((f.addLinkName h lname).insertFile h lname).Coherent :=
        hcoh.addLinkName.insertFile View.mem_addLinkName_self
      have hmem : lname ∈ ((f.addLinkName h lname).insertFile h lname).linkfiles h :=
        View.mem_addLinkName_self
      apply bind_admits (syncFileMetadataNoLock_safe (trusts_of_mem rfl hmem))
      intro s
      split
      · exact .ret ⟨⟨haway, _, rfl, hlinked⟩, trivial⟩
      · apply (removeLinkName_ok rfl hmem).seq
        rintro s u ⟨rfl, rfl⟩
        apply (safe_eraseFile rfl).seq
        rintro _ u rfl
        exact .ret ⟨⟨haway, _, rfl, hlinked.eraseFile_eraseLink⟩, trivial⟩

theorem renameTo_inside : (inside e i).Admits (renameTo h source dest) := by
  rintro v ⟨haway, f, hf, hcoh⟩
  apply (renameLink_safe hf).seq
  intro s u hu
  cases hs : s.ok with
  | false =>
    simp only [hs] at hu
    subst hu
    exact .ret ⟨⟨haway, f, rfl, hcoh⟩, trivial⟩
  | true =>
    simp only [hs] at hu
    subst hu
    apply (safe_eraseFile rfl).seq
    rintro _ u rfl
    apply (safe_insertFile rfl).seq
    rintro _ u rfl
    have hmoved := hcoh.renamed (h := h) (n := source) (m := dest)
    have hmem : dest ∈ ((((f.eraseLink h source).addLinkName h dest).eraseFile source).insertFile
        h dest).linkfiles h := View.mem_addLinkName_self
    apply bind_admits (syncFileMetadataNoLock_safe (trusts_of_mem rfl hmem))
    intro s
    split
    · exact .ret ⟨⟨haway, _, rfl, hmoved⟩, trivial⟩
    · -- the rename could not be persisted: it is rolled back
      apply (safe_eraseFile rfl).seq
      rintro _ u rfl
      apply (renameLink_safe rfl).seq
      intro s u hu
      cases hs : s.ok with
      | false =>
        simp only [hs] at hu
        subst hu
        exact .ret ⟨⟨haway, _, rfl, hmoved.eraseFile⟩, trivial⟩
      | true =>
        simp only [hs] at hu
        subst hu
        apply (safe_insertFile rfl).seq
        rintro _ u rfl
        refine .ret ⟨⟨haway, _, rfl, ?_⟩, trivial⟩
        exact hmoved.eraseLink_eraseFile.addLinkName.insertFile View.mem_addLinkName_self

theorem rollbackAuxDirRename_inside
    (hchild : ∀ a b, (inside e i).Admits (renameChild a b)) (source dest : Name)
    (renamed : List Name) :
    (inside e i).Admits (rollbackAuxDirRename renameChild source dest renamed) := by
  apply admits_bind (untilFailure_admits (fun _ => hchild _ _) renamed)
  intro s
  refine admits_ite_ret ?_
  apply admits_bind (inside_aux)
  intro s
  exact admits_ite_ret (admits_ret _)

theorem renameChildren_inside
    (hchild : ∀ a b, (inside e i).Admits (renameChild a b)) (source dest : Name) :
    ∀ renamed children : List Name,
      (inside e i).Admits (renameChildren renameChild source dest renamed children)
  | _, [] => admits_ret _
  | renamed, child :: rest => by
    apply admits_bind (hchild _ _)
    intro s
    split
    · exact renameChildren_inside hchild source dest _ rest
    · apply admits_bind (rollbackAuxDirRename_inside hchild source dest renamed)
      intro r
      exact admits_ite_ret (admits_ret _)

theorem renameAuxPath_inside
    (hchild : ∀ a b, (inside e i).Admits (renameChild a b)) (source dest : Name) :
    (inside e i).Admits (renameAuxPath renameChild source dest) := by
  apply admits_bind (inside_aux)
  intro s
  refine admits_ite_ret ?_
  apply admits_bind (inside_of_judgement fun _ => safe_read rfl rfl)
  intro files
  exact renameChildren_inside hchild source dest _ _

theorem hang_safe {Q : α → Local → Prop} : (names e).Safe i (hang : NameTask α) v Q :=
  fun _ _ _ _ => ⟨trivial, fun _ r => nomatch r⟩

theorem renameFileNoLock_inside (depth : ℕ) (source dest : Name) :
    (inside e i).Admits (renameFileNoLock i depth source dest) := by
  induction depth generalizing source dest with
  | zero => exact fun v _ => hang_safe
  | succ depth ih =>
    apply admits_bind (inside_of_judgement fun _ => safe_read rfl rfl)
    intro found
    cases found with
    | none => exact renameAuxPath_inside ih source dest
    | some h =>
      apply admits_bind (inside_of_judgement fun _ => safe_read rfl rfl)
      intro existing
      cases existing with
      | none => exact renameTo_inside
      | some _ =>
        apply admits_bind deleteFileNoLock_inside
        intro s
        exact admits_ite_ret renameTo_inside

def Opened (r : Option Handle) (w : Local) : Prop :=
  w.Inside ∧ ∀ h, r = some h → w.writer = some h

theorem createFileNoLock_safe (hv : v.Inside) :
    (names e).Safe i (createFileNoLock i n direct) v Opened := by
  obtain ⟨haway, f, hf, hcoh⟩ := hv
  apply bind_admits (safe_read rfl rfl)
  intro h
  apply (safe_addLinkName hf).seq
  rintro _ u rfl
  have hmem : n ∈ (f.addLinkName h n).linkfiles h := View.mem_addLinkName_self
  have hcreate : (names e).Safe i (do
      let s ← syncFileMetadataNoLock h
      if !s.ok then return none
      else
        call (.acquireWRLock i h)
        call (.insertFile n h)
        call (.openWriter i h)
        return some h) { v with view := some (f.addLinkName h n) } Opened := by
    have htrust : Local.Trusts { v with view := some (f.addLinkName h n) } h :=
      trusts_of_mem rfl hmem
    apply bind_admits (syncFileMetadataNoLock_safe htrust)
    intro s
    split
    · exact .ret ⟨⟨haway, _, rfl, hcoh.addLinkName⟩, (by rintro _ ⟨⟩)⟩
    · apply bind_admits (safe_acquireWRLock htrust)
      intro _
      apply (safe_insertFile rfl).seq
      rintro _ u rfl
      have hstill : n ∈ ((f.addLinkName h n).insertFile h n).linkfiles h := hmem
      apply (safe_openWriter (trusts_of_mem rfl hstill)).seq
      rintro _ u rfl
      refine ⟨⟨haway, _, rfl, hcoh.addLinkName.insertFile hmem⟩, fun g hg => ?_⟩
      cases hg
      rfl
  split
  · exact .bind_admits (safe_read rfl rfl) fun _ => hcreate
  · exact hcreate

theorem openWritableFileNoLock_safe (hv : v.Inside) :
    (names e).Safe i (openWritableFileNoLock i n direct reopen) v Opened := by
  obtain ⟨haway, f, hf, hcoh⟩ := hv
  apply (safe_getFile hf).seq
  rintro found w ⟨rfl, rfl⟩
  have hin : w.Inside := ⟨haway, f, hf, hcoh⟩
  cases hfile : f.files[n]? with
  | none => exact createFileNoLock_safe hin
  | some h =>
    have htrust : w.Trusts h := trusts_of_mem hf (hcoh n h hfile)
    cases reopen with
    | true =>
      apply bind_admits (safe_acquireWRLock htrust)
      intro _
      apply (safe_openWriter htrust).seq
      rintro _ u rfl
      refine ⟨⟨haway, f, hf, hcoh⟩, fun g hg => ?_⟩
      cases hg
      rfl
    | false =>
      apply Safe.seq (deleteFileNoLock_inside w hin)
      rintro s u ⟨hu, -⟩
      split
      · exact .ret ⟨hu, (by rintro _ ⟨⟩)⟩
      · exact createFileNoLock_safe hu

theorem snapshotFile_safe (hf : v.view = some f) (hcoh : f.Coherent)
    (hn : f.files[n]? = some h) (extents : Handle → ℕ) :
    (names e).Safe i (snapshotFile i extents (n, h)) v
      fun _ w => w.view = some f ∧ w.lists = v.lists := by
  apply safe_tryAcquireWRLock.seq
  intro got w hw
  cases got with
  | false =>
    subst hw
    exact .ret ⟨hf, rfl⟩
  | true =>
    subst hw
    have htrust : Local.Trusts { v with lock := some h } h := trusts_of_mem hf (hcoh n h hn)
    apply bind_admits (forAll_admits fun _ _ => safe_getFilename htrust)
    intro _
    apply safe_releaseWRLock.mono
    rintro _ u rfl
    exact ⟨hf, rfl⟩

theorem snapshotFiles_safe (hcoh : f.Coherent) (extents : Handle → ℕ)
    (hfiles : ∀ p ∈ entries, f.files[p.1]? = some p.2) :
    ∀ {v : Local}, v.view = some f → (names e).Safe i (forAll (snapshotFile i extents) entries) v
      fun _ w => w.view = some f ∧ w.lists = v.lists := by
  induction entries with
  | nil => exact fun hf => .ret ⟨hf, rfl⟩
  | cons p entries ih =>
    intro v hf
    apply (snapshotFile_safe hf hcoh (hfiles p mem_cons_self) extents).seq
    rintro _ w ⟨hw, hlists⟩
    rw [← hlists]
    exact ih (fun q hq => hfiles q (mem_cons_of_mem p hq)) hw

theorem getZenFSSnapshot_safe (hv : v.Outside) (extents : Handle → ℕ) :
    (names e).Safe i (getZenFSSnapshot i extents) v fun _ w => w.Outside := by
  apply safe_withMutex_files
  intro f hcoh
  apply (safe_listFiles rfl).seq
  rintro files w ⟨rfl, rfl⟩
  have hentries : ∀ p ∈ f.files.toList, f.files[p.1]? = some p.2 := fun p hp =>
    Std.ExtTreeMap.mem_toList_iff_getElem?_eq_some.mp hp
  apply (snapshotFiles_safe hcoh extents hentries rfl).mono
  rintro _ w ⟨hw, hlists⟩
  exact ⟨⟨f, hw, hcoh⟩, rfl, hlists.trans hv.lists⟩

theorem migrateExtents_safe (hv : v.Outside) :
    ∀ targets, ((names e).judgement i v).Admits (migrateExtents i n h targets)
  | [] => admits_ret _
  | a :: rest => by
    apply admits_bind (forAll_admits fun p _ => matchRecords_safe hv.lists p)
    intro _
    split
    · exact migrateExtents_safe hv rest
    · apply admits_bind (safe_read rfl rfl)
      intro found
      exact admits_ite_ret (migrateExtents_safe hv rest)

theorem getFile_safe (hv : v.Outside) :
    ((names e).judgement i v).Admits (withMutex i .files (getFile n)) := by
  apply safe_withMutex_files
  intro f hcoh
  apply (safe_read rfl rfl).mono
  rintro _ w ⟨rfl, -⟩
  exact ⟨⟨f, rfl, hcoh⟩, restore_view hv.view, trivial⟩

theorem migrateFileExtents_safe (hv : v.Outside) (targets : List Allocation) :
    (names e).Safe i (migrateFileExtents i n targets) v fun _ w => w.Outside := by
  apply bind_admits (getFile_safe hv)
  intro found
  cases found with
  | none => exact .ret hv
  | some h =>
    apply safe_tryAcquireWRLock.seq
    intro got w hw
    cases got with
    | false =>
      subst hw
      exact .ret hv
    | true =>
      subst hw
      have hout : Local.Outside { v with lock := some h } := ⟨hv.view, hv.lists⟩
      apply bind_admits (migrateExtents_safe hout targets)
      intro _
      apply bind_admits (syncFileMetadata_safe hout (.inr rfl))
      intro _
      apply safe_releaseWRLock.mono
      rintro _ u rfl
      exact ⟨hv.view, hv.lists⟩

theorem outside_of_inside {m : NameTask α} (hv : v.Outside) (hm : (inside e i).Admits m) :
    (names e).Safe i (withMutex i .files m) v fun _ w => w.Outside := by
  apply safe_withMutex_files
  intro f hcoh
  apply Safe.mono (hm { v with view := some f } ⟨hv.lists, f, rfl, hcoh⟩)
  rintro a w ⟨⟨haway, g, hg, hgcoh⟩, -⟩
  exact ⟨⟨g, hg, hgcoh⟩, rfl, haway⟩

/-- Every job is safe, and leaves the thread outside all sections. -/
theorem programOf_safe (job : Job) (hv : v.Outside) :
    (names e).Safe i (programOf i job) v fun _ w => w.Outside := by
  cases job with
  | openWritableFile fname direct reopen actions =>
    have hopen : (names e).Safe i
        (withMutex i .files (openWritableFileNoLock i fname direct reopen)) v
        fun r w => w.Outside ∧ ∀ h, r = some h → w.writer = some h := by
      apply safe_withMutex_files
      intro f hcoh
      have hin : Local.Inside { v with view := some f } := ⟨hv.lists, f, rfl, hcoh⟩
      apply (openWritableFileNoLock_safe hin).mono
      rintro r w ⟨⟨haway, g, hg, hgcoh⟩, hwriter⟩
      exact ⟨⟨g, hg, hgcoh⟩, ⟨rfl, haway⟩, hwriter⟩
    apply hopen.seq
    rintro r w ⟨hout, hwriter⟩
    cases r with
    | none => exact .ret hout
    | some h => exact session_safe actions ⟨hout, hwriter h rfl⟩
  | deleteFile fname =>
    exact (outside_of_inside hv deleteFileNoLock_inside).seq fun _ _ hw => .ret hw
  | linkFile fname lname =>
    have hlink : (names e).Safe i (linkFile i fname lname) v fun _ w => w.Outside := by
      apply (outside_of_inside hv linkFileNoLock_inside).seq
      intro r w hw
      cases r with
      | some s => exact .ret hw
      | none =>
        apply (safe_read rfl rfl).mono
        rintro _ u ⟨rfl, -⟩
        exact hw
    exact hlink.seq fun _ _ hw => .ret hw
  | renameFile depth source dest =>
    exact (outside_of_inside hv (renameFileNoLock_inside depth source dest)).seq
      fun _ _ hw => .ret hw
  | getZenFSSnapshot extents => exact getZenFSSnapshot_safe hv extents
  | migrateFileExtents fname targets => exact migrateFileExtents_safe hv targets
  | moveFileToNewLevel fname listed =>
    apply bind_admits (getFile_safe hv)
    intro found
    cases found with
    | none => exact .ret hv
    | some h =>
      apply bind_admits (removeZoneFileRecord_safe hv.lists)
      intro _
      apply (addZoneFileRecord_safe hv.lists listed).mono
      rintro _ w ⟨rfl, -⟩
      exact hv

theorem thread_safe (jobs : List Job) : ∀ {v : Local}, v.Outside →
    (names e).Safe i (forAll (programOf i) jobs) v fun _ _ => True := by
  induction jobs with
  | nil => exact fun _ => .ret trivial
  | cons job jobs ih => exact fun hv => (programOf_safe job hv).seq fun _ _ hw => ih hw

structure Shared.Idle (s : Shared) : Prop where
  coherent : s.view.Coherent
  owner : ∀ m, s.owner m = none
  wrLock : ∀ h, s.wrLock h = none
  writers : s.writers = []

theorem Shared.Idle.sound (hs : s.Idle) (jobs : ℕ → List Job) :
    (names e).Sound (threads jobs s) := by
  refine ⟨fun _ => ⟨none, none, none, .away⟩, ⟨⟨fun _ => hs.coherent, fun h hh => ?_⟩, fun i => ?_⟩,
    fun i => thread_safe (jobs i) ⟨rfl, rfl⟩⟩
  · obtain hlock | ⟨w, hw, -⟩ := hh
    · exact absurd (hs.wrLock h) hlock
    · have hnone : w ∈ ([] : List (ℕ × Handle)) := hs.writers ▸ hw
      cases hnone
  · exact ⟨nofun, nofun, nofun, trivial⟩

/-- As long as the threads are careful, no one reads the name of a file without names. -/
theorem not_asksNameless_of_careful {s : Shared} (hs : s.Idle) {jobs : ℕ → List Job}
    {p : Pool ℕ Call.Res Shared}
    (hp : Reaches (Pool.step (exec e)) (Pool.Allows Careful) (threads jobs s) p) :
    ¬ AsksNameless p i := by
  rintro ⟨h, hnext, hnil⟩
  have hsound : (names e).Sound p := (hs.sound jobs).reaches hp
  exact hsound.need hnext hnil

def Shared.initial : Shared where
  files := ∅
  linkfiles _ := []
  nextHandle := 0
  isSparse _ := false
  isDeleted _ := false
  isRecorded _ := false
  recorded := []
  wrLock _ := none
  writers := []
  owner _ := none
  persists := 0
  auxCalls := 0

theorem Shared.initial_idle : Shared.initial.Idle where
  coherent := by
    intro n h hn
    simp [Shared.view, Shared.initial] at hn
  owner _ := rfl
  wrLock _ := rfl
  writers := rfl

/-- Everything asked of the log and of the auxiliary file system succeeds. -/
def Answers.fine : Answers := ⟨fun _ => .OK, fun _ _ => .OK⟩

instance (p : Pool ℕ Call.Res Shared) (i : ℕ) : Decidable (AsksNameless p i) :=
  decidable_of_iff (∃ h ∈ (p.tasks i).next.bind Call.asked, p.state.linkfiles h = []) <| by
    simp only [AsksNameless, Option.mem_def, Option.bind_eq_some_iff, Call.asked_eq_some,
      exists_eq_right]

/-- Thread 0 writes an SST file and thread 1 deletes it, while thread 2 migrates it or writes
another file that is placed beside it. -/
def writeAndDelete (other : Job) : ℕ → List Job
  | 0 => [.openWritableFile [97] true false [.close [] ⟨true, true, .OK⟩]]
  | 1 => [.deleteFile [97]]
  | 2 => [other]
  | _ => []

def migrateIt : Job := .migrateFileExtents [97] []

def placeBesideIt : Job :=
  .openWritableFile [98] true false [.append [⟨[⟨false, [0]⟩], .OK, true⟩]]

/-- The file is closed before it is deleted, and deleted before the policy runs. -/
theorem not_asksNameless_close_then_delete :
    Shared.initial.Idle ∧ ∃ p, Reaches (Pool.step (exec .fine)) (Pool.Allows Careful)
      (threads (writeAndDelete placeBesideIt) .initial) p ∧ (p.state.isDeleted 0 = true ∧
        p.state.linkfiles 0 = []) ∧ ¬ AsksNameless p 2 := by
  refine ⟨Shared.initial_idle, Reaches.of_any_imp
    (P := fun p => p.state.isDeleted 0 = true ∧ p.state.linkfiles 0 = [])
    (replicate 22 0 ++ replicate 11 1 ++ replicate 13 2) (by decide +kernel) ?_⟩
  intro p hp hgone
  exact ⟨hgone, not_asksNameless_of_careful Shared.initial_idle hp⟩

/-- A file is deleted while its writer has it open, and the writer closes it. A file is deleted
after the garbage collector has found it, and then locked and synced. A policy runs while a
deletion is being persisted. -/
theorem asksNameless_after_delete :
    (∃ p, Reaches (Pool.step (exec .fine)) anyStep
      (threads (writeAndDelete migrateIt) .initial) p ∧ AsksNameless p 0) ∧
    (∃ p, Reaches (Pool.step (exec .fine)) anyStep
      (threads (writeAndDelete migrateIt) .initial) p ∧ AsksNameless p 2) ∧
    ∃ p, Reaches (Pool.step (exec .fine)) anyStep
      (threads (writeAndDelete placeBesideIt) .initial) p ∧ AsksNameless p 2 := by
  refine ⟨?writer, ?migration, ?policy⟩
  case writer =>
    exact Reaches.of_any (replicate 15 0 ++ replicate 11 1) (by decide +kernel)
  case migration =>
    exact Reaches.of_any (replicate 22 0 ++ replicate 3 2 ++ replicate 11 1 ++
      replicate 3 2) (by decide +kernel)
  case policy =>
    exact Reaches.of_any (replicate 22 0 ++ replicate 10 2 ++ replicate 4 1 ++
      replicate 2 2) (by decide +kernel)

end ZenFs.Filenames
