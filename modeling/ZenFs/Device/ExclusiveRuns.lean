import ZenFs.Device.ExclusiveFiles

/-!
Whether every zone has one holder at a time.

`CloseWR` gives up the writer lock before it closes the active zone. A thread that opens
the file in between works on the same active zone, and one of the two releases a zone
that is not its own. Apart from this, only the holder of a zone acts on it.
-/

namespace ZenFs.Device

open Library Task Judgement Discipline List Function Safe

variable {a : Access} {b : Bool} {d : Zbd} {l new old : List ZoneExtent} {level : ℤ} {o : Operation}
variable {policy : Policy} {selected : List (ℕ × ℕ)} {x : Option ℕ}
variable {e : Setup} {i : ℕ} {h : Handle} {v : Holding}

theorem withLevelwiseFiles_returns {α : Type} {m : DevTask α} (hm : Returns e i m v) :
    Returns e i (withLevelwiseFiles m) v :=
  admits_bind (own_call rfl rfl) fun _ => admits_bind hm fun _ =>
    admits_bind (own_call rfl rfl) fun _ => admits_ret _

theorem addZoneFileRecord_returns : Returns e i (addZoneFileRecord e h) v :=
  withLevelwiseFiles_returns own_place

theorem removeZoneFileRecord_returns : Returns e i (removeZoneFileRecord h) v :=
  withLevelwiseFiles_returns own_place

theorem createOrUpdateRecord_returns : Returns e i (createOrUpdateRecord e h) v := by
  have hadd : Returns e i (do
      addZoneFileRecord e h
      place fun d => d.place.setInfo h { d.place.info h with isRecorded := true }) v :=
    admits_bind addZoneFileRecord_returns fun _ => own_place
  refine admits_then own_look fun d => ?_
  split
  · exact admits_bind removeZoneFileRecord_returns fun _ => hadd
  · exact hadd

def Holding.idle : Holding := ⟨[], none, none⟩

theorem startClosing_ownerTable (d : Zbd) :
    ((d.setWrLocked h false).setClosing h (d.closing h + 1)).ownerTable =
      d.ownerTable.setFile h (d.ownerTable.active h) false (d.closing h + 1) := by
  simp only [OwnerTable.setFile, update_eq_self]
  rfl

theorem endClosing_ownerTable (d : Zbd) (n : ℕ) : (d.setClosing h n).ownerTable =
    d.ownerTable.setFile h (d.ownerTable.active h) (d.ownerTable.wrLocked h) n := by
  simp only [OwnerTable.setFile, update_eq_self]
  rfl

theorem setWrLocked_ownerTable (d : Zbd) (b : Bool) : (d.setWrLocked h b).ownerTable =
    d.ownerTable.setFile h (d.ownerTable.active h) b (d.ownerTable.closing h) := by
  simp only [OwnerTable.setFile, update_eq_self]
  rfl

theorem own_startClosing :
    (ownership e).Safe i (call (.startClosing h)) (.on h true (.knows x))
      fun _ w => w = .on h false (.knows x) := by
  apply own_free rfl
  rintro vs d _ _ hvs hd _ ⟨⟩
  refine ⟨_, ?_, rfl⟩
  have hstart := hd.closingStarted (n := d.closing h + 1)
    (by rw [hvs]; rfl) (Nat.succ_ne_zero _)
  rw [hvs] at hstart
  rw [startClosing_ownerTable]
  exact hstart

theorem own_endClosing :
    (ownership e).Safe i (call (.endClosing h)) (.on h false (.knows x))
      fun _ w => w = .idle := by
  apply own_free rfl
  rintro vs d _ _ hvs hd _ ⟨⟩
  refine ⟨_, ?_, rfl⟩
  have hend := hd.closingEnded (n := d.closing h - 1)
    (by rw [hvs]; rfl)
  rw [hvs] at hend
  rw [endClosing_ownerTable]
  exact hend

theorem own_closeWR (hback : ∀ n, (e.backend n).status.ok = true) :
    (ownership e).Safe i (closeWR e (.thread i) h) (.on h true (.knows x)) fun s w =>
      s.ok = true ∧ w = .idle ∨ s.ok = false ∧ w = .on h true (.knows x) := by
  apply bind_admits createOrUpdateRecord_returns
  intro _
  apply bind_admits (own_edits.body _)
  intro _
  apply bind_admits (syncFileMetadata_returns rfl)
  intro s
  cases hs : s.ok with
  | false => exact .ret (.inr ⟨hs, rfl⟩)
  | true =>
    apply own_startClosing.seq
    rintro _ _ rfl
    apply (own_closeActiveZone hback).seq
    rintro s _ ⟨hs, rfl⟩
    apply own_endClosing.seq
    rintro _ _ rfl
    exact .ret (.inl ⟨hs, rfl⟩)

theorem writer_writing (hback : ∀ n, (e.backend n).status.ok = true)
    (ho : o.ofWriter h = true) (spins : ℕ) :
    (writing e i h).Admits (programOf e (.thread i) spins o) := by
  cases o with
  | setWriteLifeTimeHint | setLevel | updateInternalKeys | updateInternalKeysRange =>
    exact writing_place
  | updateMetadata g n m r s c average =>
    apply admits_bind writing_place
    intro _
    split
    · exact writing_place
    · exact admits_ret _
  | bufferedAppend | sparseAppend =>
    cases of_decide_eq_true ho
    exact admits_bind (segmentAppend_writing hback _ _ _ _) fun _ => admits_ret _
  | append g data =>
    cases of_decide_eq_true ho
    exact admits_bind (append_writing hback _ _) fun _ => admits_ret _
  | pushExtent g =>
    cases of_decide_eq_true ho
    exact pushExtent_admits writing_edits
  | persistMetadata g =>
    cases of_decide_eq_true ho
    exact admits_bind writing_sync fun _ => admits_ret _
  | _ => cases ho

/-- The thread has no zones, and has not released one that a file still has. -/
def Holding.Settled (v : Holding) : Prop :=
  v.zones = [] ∧ v.logs = none ∧ ∀ s, v.session = some s → s.access ≠ .released

theorem settled_idle : Holding.idle.Settled := ⟨rfl, rfl, nofun⟩

theorem settled_on (ha : a ≠ .released) : (Holding.on h b a).Settled := by
  refine ⟨rfl, rfl, ?_⟩
  rintro s ⟨⟩
  exact ha

theorem session_settled (hback : ∀ n, (e.backend n).status.ok = true) (spins : ℕ)
    (l : List Operation) (x : Option ℕ) :
    (ownership e).Safe i (session e i spins h l) (.on h true (.knows x))
      fun _ w => w.Settled := by
  induction l generalizing x with
  | nil => exact .ret (settled_on nofun)
  | cons o rest ih =>
    rw [session.eq_def]
    split
    · next heq => cases heq
    · next heq =>
      cases heq
      apply (own_closeWR hback).seq
      rintro s _ (⟨hs, rfl⟩ | ⟨hs, rfl⟩)
      · rw [if_pos hs]
        exact .ret settled_idle
      · rw [if_neg (by simp [hs])]
        exact ih x
    · next heq =>
      cases heq
      split
      · next ho =>
        apply Safe.seq (writer_writing hback ho spins _ ⟨x, rfl⟩)
        rintro _ _ ⟨⟨y, rfl⟩, -⟩
        exact ih y
      · exact ih x

theorem migrateExtents_returns :
    Returns e i (migrateExtents e (.thread i) h selected l) v := by
  induction l with
  | nil => exact admits_ret _
  | cons x rest ih =>
    have hskip : Returns e i (do return x :: (← migrateExtents e (.thread i) h selected rest)) v :=
      admits_bind ih fun _ => admits_ret _
    rw [migrateExtents]
    split
    · exact hskip
    · apply admits_bind own_look
      intro d
      apply Safe.seq (takeMigrateZone_finds)
      rintro ⟨_, target, _⟩ _ ⟨rfl, rfl⟩
      cases target with
      | none =>
        apply (own_releaseMigrateZone none).seq
        rintro _ _ rfl
        exact hskip
      | some z =>
        have happend : ∀ data, ((ownership e).judgement i (v.take (some z))).Calls
            (.append (.thread i) z data) := fun _ => own_actOn rfl rfl (mem_take v z)
        refine own_then rfl rfl fun d => ?_
        apply bind_admits (migrateData_admits own_look happend _ _)
        intro _
        refine own_then rfl rfl fun d => ?_
        split
        · apply (own_releaseMigrateZone (some z)).seq
          rintro _ _ rfl
          exact .ret ⟨rfl, trivial⟩
        · refine own_then rfl rfl fun _ => ?_
          apply (own_releaseMigrateZone (some z)).seq
          rintro _ _ rfl
          exact admits_bind ih fun _ => admits_ret _

theorem syncFileExtents_returns (hv : v.logs = none) :
    Returns e i (syncFileExtents e (.thread i) h old new) v := by
  apply admits_bind (own_edits.body _)
  intro _
  exact admits_then (syncFileMetadata_returns hv) fun _ =>
    admits_bind (dropMoved_admits (own_edits (h := h)).use _ _) fun _ => admits_ret _

theorem own_tryAcquireWRLock :
    (ownership e).Safe i (tryAcquireWRLock h) .idle
      fun got w => w = if got then .on h true .none else .idle := by
  apply own_free rfl
  intro vs d r t hvs hd _ hr
  simp only [exec] at hr
  split at hr <;> cases hr
  · refine ⟨.idle, ?_, rfl⟩
    rw [← hvs, update_eq_self]
    exact hd
  · next hfree =>
    refine ⟨.on h true .none, ?_, rfl⟩
    have htaken := hd.taken (by rw [hvs]; rfl) (Bool.eq_false_iff.mpr hfree)
    rw [hvs] at htaken
    rw [setWrLocked_ownerTable]
    exact htaken

theorem own_releaseWRLock :
    (ownership e).Safe i (call (.releaseWRLock h)) (.on h true .none) fun _ w => w = .idle := by
  apply own_free rfl
  rintro vs d _ _ hvs hd _ ⟨⟩
  refine ⟨.idle, ?_, rfl⟩
  have hleft := hd.left (by rw [hvs]; rfl)
  rw [hvs] at hleft
  rw [setWrLocked_ownerTable]
  exact hleft

theorem migrateFileExtents_returns :
    Returns e i (migrateFileExtents e (.thread i) h selected) .idle := by
  apply own_tryAcquireWRLock.seq
  rintro got _ rfl
  cases got with
  | false => exact .ret ⟨rfl, trivial⟩
  | true =>
    refine own_then rfl rfl fun d => ?_
    apply bind_admits (migrateExtents_returns)
    intro new
    apply bind_admits (syncFileExtents_returns rfl)
    intro _
    apply own_releaseWRLock.seq
    rintro _ _ rfl
    exact .ret ⟨rfl, trivial⟩

theorem own_letGo (hv : v.Settled) :
    (ownership e).Safe i (letGo i h) v fun _ w => w = .idle := by
  obtain ⟨hzones, hlogs, hrel⟩ := hv
  apply Safe.seq (Q := fun _ w => w = .idle)
  · apply own_free rfl
    rintro vs d r t hvs hd _ hr
    refine ⟨.idle, ?_, rfl⟩
    rw [exec_ownerTable rfl hr]
    have hforget := hd.forgotten (by rw [hvs]; exact hrel)
    rw [hvs] at hforget
    have hidle : v.withSession none = .idle := by
      rw [Holding.withSession, hzones, hlogs]
      rfl
    rwa [hidle] at hforget
  · rintro last _ rfl
    cases last with
    | false => exact .ret rfl
    | true => exact .mono (clearExtents_admits own_edits) fun _ _ hw => hw.1

theorem deleteFileNoLock_returns : Returns e i (deleteFileNoLock e i h) .idle := by
  have hletGo : ∀ s : Status, Returns e i (do letGo i h; return s) .idle := by
    intro s
    apply (own_letGo settled_idle).seq
    rintro _ _ rfl
    exact .ret ⟨rfl, trivial⟩
  refine admits_then (own_call rfl rfl) fun found => ?_
  apply admits_bind (own_call rfl rfl)
  intro _
  apply admits_bind (persistRecord_returns rfl)
  intro s
  split
  · exact admits_bind (own_call rfl rfl) fun _ => hletGo s
  · apply admits_bind own_look
    intro d
    split
    · exact hletGo s
    · have hdeleted : Returns e i (setDeleted h) .idle :=
        admits_bind (own_call rfl rfl) fun _ => removeZoneFileRecord_returns
      exact admits_bind hdeleted fun _ => hletGo s

theorem own_acquireWRLock :
    (ownership e).Safe i (call (.acquireWRLock h)) .idle
      fun _ w => ∃ x, w = .on h true (.knows x) := by
  apply own_free rfl
  intro vs d r t hvs hd hok hr
  simp only [exec] at hr
  split at hr <;> cases hr
  next hfree =>
  refine ⟨.on h true (.knows (d.ownerTable.active h)), ?_, _, rfl⟩
  have hopen := hd.opened (by rw [hvs]; rfl) (Bool.eq_false_iff.mpr hfree)
    (hok h rfl)
  rw [hvs] at hopen
  rw [setWrLocked_ownerTable]
  exact hopen

def Holding.Opened (h : Handle) (opened : Bool) (w : Holding) : Prop :=
  if opened then ∃ x, w = .on h true (.knows x) else w = .idle

theorem own_createFileNoLock (ioType : IOType) (sparse : Bool) :
    (ownership e).Safe i (createFileNoLock e i h ioType sparse) .idle
      fun opened w => w.Opened h opened := by
  refine own_then rfl rfl fun _ => ?_
  apply bind_admits own_place
  intro _
  apply bind_admits (own_edits.body _)
  intro _
  apply bind_admits (persistRecord_returns rfl)
  intro s
  split
  · apply (own_letGo settled_idle).seq
    rintro _ _ rfl
    exact .ret rfl
  · apply own_acquireWRLock.seq
    rintro _ _ ⟨x, rfl⟩
    refine own_then rfl rfl fun _ => ?_
    exact .ret ⟨x, rfl⟩

theorem own_useFile (hback : ∀ n, (e.backend n).status.ok = true) (spins : ℕ)
    (actions : List Operation) (x : Option ℕ) :
    (ownership e).Safe i (do session e i spins h actions; letGo i h) (.on h true (.knows x))
      fun _ w => w = .idle :=
  (session_settled hback spins actions x).seq fun _ _ hw => own_letGo hw

theorem resetUnusedIOZones_returns :
    Returns e i (ignore (resetUnusedIOZones e (.thread i))) v :=
  admits_bind (resetUnused_returns) fun _ => admits_ret _

theorem moveFileToNewLevel_returns :
    Returns e i (moveFileToNewLevel e h level) v :=
  admits_bind removeZoneFileRecord_returns fun _ => admits_bind own_place fun _ =>
    addZoneFileRecord_returns

theorem getFileLocked_returns : Returns e i (getFileLocked i h) v :=
  admits_bind (own_call rfl rfl) fun _ => admits_bind (own_call rfl rfl) fun _ =>
    admits_bind (own_call rfl rfl) fun _ => admits_ret _

/-- A thread ends each job as it began it, without zones. -/
theorem own_job (hback : ∀ n, (e.backend n).status.ok = true) (spins : ℕ) (j : Job) :
    (ownership e).Safe i (programOfJob e i spins j) .idle fun _ w => w = .idle := by
  have hreset : (ownership e).Safe i (ignore (resetUnusedIOZones e (.thread i))) .idle
      fun _ w => w = .idle := .mono resetUnusedIOZones_returns fun _ _ hw => hw.1
  cases j with
  | newWritableFile old h ioType sparse actions =>
    refine own_then rfl rfl fun _ => ?_
    refine .bind_admits ?_ fun s => ?_
    · cases old with
      | none => exact admits_ret _
      | some g => exact deleteFileNoLock_returns
    have hopen : (ownership e).Safe i
        (if s.ok then createFileNoLock e i h ioType sparse else pure false) .idle
        fun opened w => w.Opened h opened := by
      split
      · exact own_createFileNoLock ioType sparse
      · exact .ret rfl
    apply hopen.seq
    intro opened w hw
    refine own_then rfl rfl fun _ => ?_
    cases opened with
    | false => exact .ret hw
    | true =>
      obtain ⟨x, rfl⟩ := hw
      rw [if_pos rfl]
      split
      · apply bind_admits resetUnusedIOZones_returns
        intro _
        exact own_useFile hback spins actions x
      · exact own_useFile hback spins actions x
  | reopenWritableFile h actions =>
    refine own_then rfl rfl fun _ => ?_
    refine own_then rfl rfl fun found => ?_
    cases found with
    | false => exact .mono (own_call rfl rfl) fun _ _ hw => hw.1
    | true =>
      apply own_acquireWRLock.seq
      rintro _ _ ⟨x, rfl⟩
      refine own_then rfl rfl fun _ => ?_
      exact own_useFile hback spins actions x
  | moveFileToNewLevel h level =>
    apply bind_admits getFileLocked_returns
    intro found
    split
    · apply bind_admits moveFileToNewLevel_returns
      intro _
      exact own_letGo settled_idle
    · exact own_hang
  | migrateFileExtents h selected =>
    apply bind_admits getFileLocked_returns
    intro found
    split
    · apply bind_admits (admits_bind (migrateFileExtents_returns) fun _ => admits_ret _)
      intro _
      exact own_letGo settled_idle
    · exact .ret rfl
  | deleteFile h =>
    refine own_then rfl rfl fun _ => ?_
    apply bind_admits deleteFileNoLock_returns
    intro s
    refine own_then rfl rfl fun _ => ?_
    split
    · exact hreset
    · exact .ret rfl
  | resetUnusedIOZones => exact hreset

theorem own_thread (hback : ∀ n, (e.backend n).status.ok = true) (jobs : List (Job × ℕ)) :
    (ownership e).Safe i (thread e i jobs) .idle fun _ _ => True := by
  induction jobs with
  | nil => exact .ret trivial
  | cons j rest ih =>
    apply (own_job hback j.2 j.1).seq
    rintro _ _ rfl
    exact ih

structure Unclaimed (d : Zbd) : Prop where
  log : d.holders d.metaLog.zone = [.log d.metaLog.serial]
  free : ∀ z, z ≠ d.metaLog.zone → d.holders z = []
  busy : ∀ z, (d.zones z).busy = true ↔ z = d.metaLog.zone
  inactive : ∀ h, (d.bodies h).activeZone = none

theorem Unclaimed.owned (hd : Unclaimed d) : Owned (fun _ => .idle) d.ownerTable := by
  refine ⟨?_, ?_, ?_, ?_, hd.log⟩
  · intro z
    by_cases hz : z = d.metaLog.zone
    · exact .inr ⟨_, hz ▸ hd.log, (hd.busy z).mpr hz⟩
    · exact .inl ⟨hd.free z hz, Bool.eq_false_iff.mpr fun hb => hz ((hd.busy z).mp hb)⟩
  · exact fun _ => ⟨nodup_nil, nofun, nofun, nofun⟩
  · exact fun _ _ _ => ⟨nofun, .inl rfl⟩
  · intro h z hz
    have hnone : (d.bodies h).activeZone = some z := hz
    rw [hd.inactive h] at hnone
    cases hnone

/-- Every zone has at most one holder, and what any thread does next to a zone it does for
the holder; a release then succeeds. -/
def Exclusive (p : Pool ℕ Call.Res Zbd) : Prop :=
  (∀ z, (p.state.holders z).length ≤ 1) ∧
    ∀ i o, (p.tasks i).next = some o → Entitled i o p.state

/-- As long as no file is opened for writing while it is being closed, zones are held
exclusively, whatever the threads do and however they interleave. -/
theorem exclusive_of_unhurried (hback : ∀ n, (e.backend n).status.ok = true)
    {jobs : ℕ → List (Job × ℕ)} {d₀ : Zbd} (h₀ : Unclaimed d₀) {p : Pool ℕ Call.Res Zbd}
    (hp : Reaches (Pool.step (exec e)) (Pool.Allows Unhurried) (threads e jobs d₀) p) :
    Exclusive p := by
  have hinit : (ownership e).Sound (threads e jobs d₀) :=
    ⟨fun _ => .idle, h₀.owned, fun i => own_thread hback (jobs i)⟩
  have hsound := hinit.reaches hp
  refine ⟨?_, fun i o ho => hsound.need ho⟩
  obtain ⟨vs, howned, -⟩ := hsound
  intro z
  rcases howned.single z with ⟨hz, -⟩ | ⟨a, hz, -⟩
  · rw [show p.state.holders z = [] from hz]
    exact Nat.zero_le 1
  · rw [show p.state.holders z = [a] from hz]
    exact Nat.le_refl 1

theorem smallDevice_unclaimed : Unclaimed smallDevice := by
  refine ⟨rfl, ?_, ?_, fun _ => rfl⟩
  · intro z hz
    exact if_neg hz
  · intro z
    exact decide_eq_true_iff

theorem smallSetup_backend (n : ℕ) :
    ((smallSetup policy).backend n).status.ok = true := rfl

/-- One thread writes a block to a new file and closes it, another opens it once more to
write a second block. -/
def writeAndReopen : ℕ → List (Job × ℕ)
  | 0 => [(.newWritableFile none 1 .data false
      [.bufferedAppend 1 (List.replicate 16 7), .closeWR 1], 9)]
  | 1 => [(.reopenWritableFile 1 [.bufferedAppend 1 (List.replicate 16 7), .closeWR 1], 9)]
  | _ => []

/-- The file is opened again once it is closed, and the second writer gets a zone. -/
theorem exclusive_reopened : Unclaimed smallDevice ∧
    ∃ p, Reaches (Pool.step (exec (smallSetup .lifetimeBased))) (Pool.Allows Unhurried)
      (threads (smallSetup .lifetimeBased) writeAndReopen smallDevice) p ∧
      p.state.holders 0 = [.file 1] ∧ p.state.closing 1 = 0 ∧ p.state.wrLocked 1 = true ∧
      Exclusive p := by
  refine ⟨smallDevice_unclaimed, Reaches.of_any_imp (P := fun p => p.state.holders 0 = [.file 1] ∧
    p.state.closing 1 = 0 ∧ p.state.wrLocked 1 = true) (replicate 67 0 ++
    replicate 2 1 ++ replicate 11 0 ++ replicate 30 1) (by decide +kernel) ?_⟩
  intro p hp ⟨hheld, hclosing, hlocked⟩
  exact ⟨hheld, hclosing, hlocked,
    exclusive_of_unhurried (smallSetup_backend) smallDevice_unclaimed hp⟩

/-- A file that is opened again between `ReleaseWRLock` and `CloseActiveZone` of its first
writer: the second writer is about to append to a zone that the first one released. -/
theorem append_to_released_zone : (smallSetup .lifetimeBased).Accepted ∧
    (∀ n, ((smallSetup .lifetimeBased).backend n).status.ok = true) ∧ Unclaimed smallDevice ∧
    ∃ p, Reaches (Pool.step (exec (smallSetup .lifetimeBased))) anyStep
      (threads (smallSetup .lifetimeBased) writeAndReopen smallDevice) p ∧
      (p.tasks 1).next.bind Call.acts = some (.file 1, 0) ∧ p.state.holders 0 = [] ∧
      ¬ Exclusive p := by
  refine ⟨smallSetup_accepted _, smallSetup_backend, smallDevice_unclaimed, Reaches.of_any_imp
    (P := fun p => (p.tasks 1).next.bind Call.acts = some (.file 1, 0) ∧ p.state.holders 0 = [])
    (replicate 67 0 ++ replicate 9 1 ++ replicate 7 0) (by decide +kernel) ?_⟩
  intro p hp ⟨hacts, hfree⟩
  refine ⟨hacts, hfree, ?_⟩
  rintro ⟨-, hentitled⟩
  obtain ⟨o, ho, hacts⟩ := Option.bind_eq_some_iff.mp hacts
  have := (hentitled 1 o ho _ _ hacts).1
  rw [hfree] at this
  cases this

end ZenFs.Device
