import ZenFs.Device.Live

/-!
Whether the per-level lists refer to live files only.

`SetDeleted` takes a file out of the lists, but a writer, a migration or a change of level
that still has the file puts it back. The lists are right as long as files are marked
deleted only while no other thread has them.
-/

namespace ZenFs.Device

open Library Task Judgement Discipline Placement List Function View Stage Safe

variable {o : Call} {b : Bool} {d : Zbd} {f : FileInfo → FileInfo} {m : Task Call.Res Unit}
variable {s : Stage} {Q : o.Res → View → Prop}
variable {e : Setup} {i : ℕ} {h : Handle} {v : View}

/-- A file is marked deleted only while no other thread has a reference to it. -/
def Alone (i : ℕ) (o : Call) (d : Zbd) : Prop :=
  match o with
  | .setDeleted h => d.pins h = [i]
  | _ => True

instance (i : ℕ) (o : Call) (d : Zbd) : Decidable (Alone i o d) :=
  match o with
  | .setDeleted h => inferInstanceAs (Decidable (d.pins h = [i]))
  | .look | .acquire _ _ | .release _ _ | .setActiveZone _ _ _ | .clearActiveZone _
  | .newMetaLog _ _ | .reset _ _ | .finish _ _ | .close _ _ | .append _ _ _ | .tag _ _ _ _
  | .use _ _ | .place _ | .body _ _ | .lock _ | .unlock _ | .acquireWRLock _
  | .tryAcquireWRLock _ | .releaseWRLock _ | .startClosing _ | .endClosing _
  | .waitForOpenIOZoneToken _
  | .getActiveIOZoneTokenIfAvailable | .putOpenIOZoneToken | .putActiveIOZoneToken
  | .startMigrating | .stopMigrating | .setZonePos _ | .shuffle | .setMetaLog _
  | .newFile _ _ | .getFile _ _ | .dropFile _ _ | .addLink _ | .removeLink _
  | .setDeferredStatus _ | .hang => isTrue trivial

/-- The argument: what the threads know of the file table stays right. -/
def liveness (e : Setup) : Discipline ℕ Call.Res Zbd View where
  exec := exec e
  ok := Alone
  need _ _ _ := True
  Inv vs d := Live (fun i => (vs i).locked) (fun i => (vs i).file) d.fileTable

theorem locked_update (vs : ℕ → View) (v : View) :
    (fun j => (update vs i v j).locked) =
      update (fun j => (vs j).locked) i v.locked := by
  funext j
  by_cases hj : j = i
  · rw [hj, update_self, update_self]
  · rw [update_of_ne hj, update_of_ne hj]

theorem file_update (vs : ℕ → View) (v : View) :
    (fun j => (update vs i v j).file) =
      update (fun j => (vs j).file) i v.file := by
  funext j
  by_cases hj : j = i
  · rw [hj, update_self, update_self]
  · rw [update_of_ne hj, update_of_ne hj]

theorem safe_op (hstep : ∀ own file (d t : Zbd) r, own i = v.locked → file i = v.file →
      Live own file d.fileTable → Alone i o d → exec e o d = some (r, t) →
      ∃ w : View, Live (update own i w.locked) (update file i w.file)
        t.fileTable ∧ Q r w) :
    (liveness e).Safe i (Task.op o) v Q := by
  intro vs d hv hd
  refine ⟨trivial, fun hok r t hr => ?_⟩
  obtain ⟨w, hw, hq⟩ := hstep (fun j => (vs j).locked) (fun j => (vs j).file) d t r
    (congrArg locked hv) (congrArg View.file hv) hd hok hr
  refine ⟨w, ?_, hq⟩
  change Live _ _ _
  rw [locked_update, file_update]
  exact hw

theorem safe_call (hstep : ∀ own file (d t : Zbd) r, own i = v.locked → file i = v.file →
      Live own file d.fileTable → exec e o d = some (r, t) → Live own file t.fileTable) :
    ((liveness e).judgement i v).Calls o := by
  apply safe_op
  intro own file d t r hown hfile hd _ hr
  refine ⟨v, ?_, rfl, trivial⟩
  rw [← hown, ← hfile, update_eq_self, update_eq_self]
  exact hstep own file d t r hown hfile hd hr

theorem safe_quiet (ho : o.quiet = true) :
    ((liveness e).judgement i v).Calls o := by
  apply safe_call
  intro own file d t r _ _ hd hr
  rw [exec_fileTable ho hr]
  exact hd

theorem handles_live : Handles (.thread i) ((liveness e).judgement i v) := by
  constructor
  iterate 3 on_goal 1 => constructor
  case lock =>
    intro m hm
    exact safe_quiet (decide_eq_true hm)
  case unlock =>
    intro m hm
    exact safe_quiet (decide_eq_true hm)
  all_goals
    intros
    exact safe_quiet rfl

theorem logs_live : Logs (.thread i) ((liveness e).judgement i v) := by
  constructor <;> intros <;> exact safe_quiet rfl

theorem writes_live : Writes (.thread i) h ((liveness e).judgement i v) := by
  constructor <;> intros <;> exact safe_quiet rfl

/-- Being safe while the thread has the file and does not hold `files_mtx_`. -/
abbrev holding (e : Setup) (i : ℕ) (h : Handle) : Judgement Call.Res :=
  (liveness e).judgement i ⟨false, some (h, .held)⟩

theorem safe_place {f : Zbd → Placement × List Handle}
    (hf : ∀ d, OnlyAdds h d.place (f d).1) : (holding e i h).Calls (.place f) := by
  apply safe_call
  rintro own file d _ _ _ hfile hd ⟨⟩
  apply hd.placed (i := i)
  · intro g hg
    rcases (hf d).recorded g hg with hg | rfl
    · exact .inl hg
    · exact .inr hfile
  · exact (hf d).deleted

theorem places_live : Places e h (holding e i h) where
  raiseForEmptyZone level := by
    apply safe_place
    intro d
    rw [raiseForEmptyZone]
    split
    · exact (alike_raiseMaxLevel).onlyAdds
    · exact OnlyAdds.refl _ _
  raiseMaxLevel := safe_place fun _ => (alike_raiseMaxLevel).onlyAdds
  setAllocSize _ := safe_place fun _ => onlyAdds_setInfo rfl
  policies := by
    apply Safe.mono (Q := fun _ w => w = _ ∧ True)
    · exact safe_quiet rfl
    · rintro d w ⟨hw, -⟩
      exact ⟨hw, fun _ _ _ _ hf => safe_place (onlyAdds_policyChange hf)⟩

theorem safe_lock : (liveness e).Safe i (call (.lock .files)) ⟨false, v.file⟩
    fun _ w => w = ⟨true, v.file⟩ := by
  apply safe_op
  intro own file d t r hown hfile hd _ hr
  simp only [exec] at hr
  split at hr
  · cases hr
  · next hfree =>
    cases hr
    refine ⟨⟨true, v.file⟩, ?_, rfl⟩
    rw [← hfile, update_eq_self]
    exact hd.acquired (Bool.eq_false_iff.mpr hfree)

theorem safe_unlock (hv : ∀ h s, v.file = some (h, s) → s = .held ∨ s = .gone) :
    (liveness e).Safe i (call (.unlock .files)) ⟨true, v.file⟩
      fun _ w => w = ⟨false, v.file⟩ := by
  apply safe_op
  rintro own file d _ _ hown hfile hd _ ⟨⟩
  refine ⟨⟨false, v.file⟩, ?_, rfl⟩
  rw [← hfile, update_eq_self]
  apply hd.released hown
  rw [hfile]
  exact hv

theorem sync_live : (holding e i h).Admits (syncFileMetadata e (.thread i) h) := by
  apply (safe_lock (v := ⟨true, some (h, .held)⟩)).mono
  rintro _ _ rfl
  apply bind_admits handles_live.look
  intro d
  apply bind_admits
  · exact admits_ite_ret (persistRecord_admits handles_live.toSeeks logs_live)
  · intro s
    apply (safe_unlock (by simp)).mono
    rintro _ _ rfl
    exact ⟨rfl, trivial⟩

theorem works_live : Works e (.thread i) h (holding e i h) where
  handles := handles_live
  writes := writes_live
  places := places_live
  sync := sync_live
  append _ _ := safe_quiet rfl
  tryAcquireWRLock := safe_quiet rfl
  releaseWRLock := safe_quiet rfl

theorem withLevelwiseFiles_live {α : Type} {m : DevTask α}
    (hm : (holding e i h).Admits m) : (holding e i h).Admits (withLevelwiseFiles m) :=
  withLevelwiseFiles_admits handles_live.toRanks hm

theorem addZoneFileRecord_live : (holding e i h).Admits (addZoneFileRecord e h) :=
  withLevelwiseFiles_live (place_admits (safe_place fun _ => onlyAdds_addZoneFileRecord))

theorem removeZoneFileRecord_live : (holding e i h).Admits (removeZoneFileRecord h) :=
  withLevelwiseFiles_live (place_admits (safe_place fun _ => onlyAdds_removeZoneFileRecord))

theorem createOrUpdateRecord_live : (holding e i h).Admits (createOrUpdateRecord e h) := by
  have hadd : (holding e i h).Admits (do
      addZoneFileRecord e h
      place fun d => d.place.setInfo h { d.place.info h with isRecorded := true }) :=
    admits_bind addZoneFileRecord_live fun _ =>
      place_admits (safe_place fun _ => onlyAdds_setInfo rfl)
  refine admits_then handles_live.look fun d => ?_
  split
  · exact admits_bind removeZoneFileRecord_live fun _ => hadd
  · exact hadd

theorem closeWR_live : (holding e i h).Admits (closeWR e (.thread i) h) := by
  apply admits_bind createOrUpdateRecord_live
  intro _
  apply admits_bind (writes_live.body _)
  intro _
  refine admits_then sync_live fun s => ?_
  apply admits_bind (safe_quiet rfl)
  intro _
  apply admits_bind (closeActiveZone_admits handles_live writes_live.close writes_live.release
    writes_live.clearActiveZone)
  intro _
  exact admits_bind (safe_quiet rfl) fun _ => admits_ret _

theorem onInfo_live (hf : ∀ g, (f g).isDeleted = g.isDeleted) :
    (holding e i h).Admits (onInfo h f) :=
  place_admits (safe_place fun _ => onlyAdds_setInfo (hf _))

theorem ignore_admits {L : Judgement Call.Res} {α : Type} {m : DevTask α} (hm : L.Admits m) :
    L.Admits (ignore m) := admits_bind hm fun _ => admits_ret _

theorem writer_live {o : Operation} (ho : o.ofWriter h = true) (spins : ℕ) :
    (holding e i h).Admits (programOf e (.thread i) spins o) := by
  cases o with
  | setWriteLifeTimeHint | setLevel | updateInternalKeys | updateInternalKeysRange =>
    cases of_decide_eq_true ho
    dsimp only [programOf]
    apply onInfo_live
    exact fun _ => rfl
  | updateMetadata g n m r s c average =>
    cases of_decide_eq_true ho
    refine admits_bind (onInfo_live ?_) fun _ => ?_
    · exact fun _ => rfl
    split
    · exact place_admits (safe_place fun _ => ⟨fun _ hg => .inl hg, fun _ => rfl⟩)
    · exact admits_ret _
  | bufferedAppend | sparseAppend =>
    cases of_decide_eq_true ho
    exact ignore_admits (segmentAppend_admits works_live.appends _ _ _ _)
  | append g data =>
    cases of_decide_eq_true ho
    exact ignore_admits (append_admits works_live.appends _ _)
  | pushExtent g =>
    cases of_decide_eq_true ho
    exact pushExtent_admits works_live.edits
  | persistMetadata g =>
    cases of_decide_eq_true ho
    exact ignore_admits sync_live
  | _ => cases ho

theorem session_live (spins : ℕ) (l : List Operation) :
    (holding e i h).Admits (session e i spins h l) := by
  induction l with
  | nil => exact admits_ret _
  | cons o rest ih =>
    rw [session.eq_def]
    split
    · next heq => cases heq
    · next heq =>
      cases heq
      exact admits_then closeWR_live fun _ => ih
    · next heq =>
      cases heq
      split
      · next ho => exact admits_bind (writer_live ho spins) fun _ => ih
      · exact ih

theorem moveFileToNewLevel_live (level : ℤ) :
    (holding e i h).Admits (moveFileToNewLevel e h level) := by
  apply admits_bind removeZoneFileRecord_live
  intro _
  refine admits_bind (place_admits (safe_place ?_)) fun _ => addZoneFileRecord_live
  exact fun _ => onlyAdds_setInfo rfl

theorem safe_letGo (hs : s ≠ .unnamed) (hm : s ≠ .marked) :
    (liveness e).Safe i (letGo i h) ⟨b, some (h, s)⟩ fun _ w => w = ⟨b, none⟩ := by
  apply Safe.bind
  apply safe_op
  rintro own file d _ _ hown hfile hd _ ⟨⟩
  refine ⟨⟨b, none⟩, ?_, ?_⟩
  · rw [← hown, update_eq_self]
    exact hd.dropped hfile hs hm
  · split
    · have hclear : ((liveness e).judgement i ⟨b, none⟩).Admits (clearExtents h) :=
        clearExtents_admits (writes_live.edits handles_live)
      exact hclear.mono fun _ _ hw => hw.1
    · exact .ret rfl

/-- Whether the thread has the file, as it was told. -/
def View.told (b : Bool) (h : Handle) (found : Bool) : View :=
  ⟨b, if found then some (h, .held) else none⟩

theorem safe_getFile :
    (liveness e).Safe i (getFile i h) ⟨b, none⟩ fun found w => w = told b h found := by
  apply safe_op
  intro own file d t r hown hfile hd _ hr
  simp only [exec] at hr
  split at hr <;> cases hr
  · refine ⟨⟨b, none⟩, ?_, rfl⟩
    rw [← hown, ← hfile, update_eq_self, update_eq_self]
    exact hd
  · next hl =>
    refine ⟨⟨b, some (h, .held)⟩, ?_, rfl⟩
    rw [← hown, update_eq_self]
    exact hd.found hfile hl

theorem safe_getFileLocked :
    (liveness e).Safe i (getFileLocked i h) ⟨false, none⟩
      fun found w => w = told false h found := by
  apply Safe.bind
  apply (safe_lock (v := ⟨true, none⟩)).mono
  rintro _ _ rfl
  apply Safe.bind
  apply safe_getFile.mono
  rintro found _ rfl
  apply Safe.bind
  apply (safe_unlock (v := told true h found) ?_).mono
  · rintro _ _ rfl
    exact .ret rfl
  · intro g s hg
    cases found <;> cases hg
    exact .inl rfl

theorem safe_addLink (hs : s.Unmarked) :
    (liveness e).Safe i (call (.addLink h)) ⟨true, some (h, s)⟩
      fun _ w => w = ⟨true, some (h, .held)⟩ := by
  apply safe_op
  rintro own file d _ _ hown hfile hd _ ⟨⟩
  refine ⟨⟨true, some (h, .held)⟩, ?_, rfl⟩
  rw [← hown, update_eq_self]
  exact hd.renamed hfile hs hown (.inr ⟨rfl, Nat.succ_pos _⟩)

def Stage.ofLinks (n : ℕ) : Stage := if n = 0 then .unnamed else .held

theorem Stage.ofLinks_cases (n : ℕ) :
    ofLinks n = .unnamed ∧ n = 0 ∨ ofLinks n = .held ∧ 0 < n := by
  cases n with
  | zero => exact .inl ⟨rfl, rfl⟩
  | succ n => exact .inr ⟨rfl, Nat.succ_pos n⟩

theorem safe_removeLink :
    (liveness e).Safe i (call (.removeLink h)) ⟨true, some (h, .held)⟩
      fun _ w => ∃ n, w = ⟨true, some (h, ofLinks n)⟩ := by
  apply safe_op
  rintro own file d _ _ hown hfile hd _ ⟨⟩
  refine ⟨⟨true, some (h, ofLinks (d.links h - 1))⟩, ?_, _, rfl⟩
  rw [← hown, update_eq_self]
  exact hd.renamed hfile ⟨by decide, by decide⟩ hown (ofLinks_cases _)

theorem safe_lookLinks (hs : s.Unmarked) :
    (liveness e).Safe i look ⟨true, some (h, s)⟩
      fun d w => w = ⟨true, some (h, ofLinks (d.links h))⟩ := by
  apply safe_op
  rintro own file d _ _ hown hfile hd _ ⟨⟩
  refine ⟨⟨true, some (h, ofLinks (d.links h))⟩, ?_, rfl⟩
  rw [← hown, update_eq_self]
  have := hd.renamed hfile hs hown (ofLinks_cases (d.links h))
  rwa [show update d.fileTable.links h (d.links h) = d.fileTable.links from
    update_eq_self ..] at this

theorem safe_setDeleted :
    (liveness e).Safe i (setDeleted h) ⟨true, some (h, .unnamed)⟩
      fun _ w => w = ⟨true, some (h, .gone)⟩ := by
  apply safe_op
  rintro own file d _ _ hown hfile hd hok ⟨⟩
  refine ⟨⟨true, some (h, .marked)⟩, ?_, ?_⟩
  · rw [← hown, update_eq_self]
    exact hd.flagged hfile hok
  -- between the two steps the lists hold the marked file, under the mutex of the files
  apply bind_admits (handles_live.lock _ (by decide))
  intro _
  apply safe_op
  rintro own file d _ _ hown hfile hd - ⟨⟩
  refine ⟨⟨true, some (h, .gone)⟩, ?_, ?_⟩
  · rw [← hown, update_eq_self]
    exact hd.unlisted hfile
  · exact bind_admits (handles_live.unlock _ (by decide)) fun _ => Safe.ret rfl

theorem safe_deleteFileNoLock :
    (liveness e).Safe i (deleteFileNoLock e i h) ⟨true, none⟩ fun _ w => w = ⟨true, none⟩ := by
  have hletGo : ∀ (t : Status) (s : Stage), s ≠ .unnamed → s ≠ .marked →
      (liveness e).Safe i (do letGo i h; return t) ⟨true, some (h, s)⟩
        fun _ w => w = ⟨true, none⟩ := by
    intro t s hs hm
    apply Safe.bind
    apply (safe_letGo hs hm).mono
    rintro _ _ rfl
    exact .ret rfl
  apply safe_getFile.mono
  rintro found _ rfl
  cases found with
  | false => exact .ret rfl
  | true =>
    apply safe_removeLink.mono
    rintro _ _ ⟨n, rfl⟩
    have hgone : (ofLinks n).Unmarked := by
      rcases ofLinks_cases n with ⟨hn, -⟩ | ⟨hn, -⟩ <;> rw [hn] <;> exact ⟨by decide, by decide⟩
    apply bind_admits (persistRecord_admits handles_live.toSeeks logs_live)
    intro s
    split
    · apply Safe.bind
      apply (safe_addLink hgone).mono
      rintro _ _ rfl
      exact hletGo s .held (by decide) (by decide)
    · apply Safe.bind
      apply (safe_lookLinks hgone).mono
      rintro d _ rfl
      rcases ofLinks_cases (d.links h) with ⟨hst, hl⟩ | ⟨hst, hl⟩
      · rw [hst, if_neg (by omega)]
        apply Safe.bind
        apply safe_setDeleted.mono
        rintro _ _ rfl
        exact hletGo s .gone (by decide) (by decide)
      · rw [hst, if_pos hl]
        exact hletGo s .held (by decide) (by decide)

theorem safe_newFile :
    (liveness e).Safe i (call (.newFile i h)) ⟨true, none⟩
      fun _ w => w = ⟨true, some (h, .fresh)⟩ := by
  apply safe_op
  intro own file d t r hown hfile hd _ hr
  simp only [exec] at hr
  split at hr
  · cases hr
  · next hnew =>
    cases hr
    refine ⟨⟨true, some (h, .fresh)⟩, ?_, rfl⟩
    rw [← hown, update_eq_self]
    exact hd.made hfile hown (Bool.eq_false_iff.mpr hnew)

theorem onInfo_quiet (hf : ∀ g, (f g).isDeleted = g.isDeleted) :
    ((liveness e).judgement i v).Admits (onInfo h f) := by
  apply safe_call
  rintro own file d _ _ _ _ hd ⟨⟩
  apply hd.placed (i := i)
  · exact fun g hg => .inl hg
  · exact (onlyAdds_setInfo (hf _)).deleted

theorem safe_createFileNoLock (ioType : IOType) (sparse : Bool) :
    (liveness e).Safe i (createFileNoLock e i h ioType sparse) ⟨true, none⟩
      fun opened w => w = told true h opened := by
  apply Safe.bind
  apply safe_newFile.mono
  rintro _ _ rfl
  refine .bind_admits (onInfo_quiet ?_) fun _ => ?_
  · exact fun _ => rfl
  apply bind_admits (writes_live.body _)
  intro _
  apply bind_admits (persistRecord_admits handles_live.toSeeks logs_live)
  intro s
  split
  · apply Safe.bind
    apply (safe_letGo (by decide) (by decide)).mono
    rintro _ _ rfl
    exact .ret rfl
  · apply bind_admits (safe_quiet rfl)
    intro _
    apply Safe.bind
    apply (safe_addLink ⟨by decide, by decide⟩).mono
    rintro _ _ rfl
    exact .ret rfl

theorem safe_useFile (hm : (holding e i h).Admits m) :
    (liveness e).Safe i (do m; letGo i h) ⟨false, some (h, .held)⟩
      fun _ w => w = ⟨false, none⟩ :=
  .bind_admits hm fun _ => safe_letGo (by decide) (by decide)

theorem resetUnusedIOZones_live : ((liveness e).judgement i v).Admits
    (ignore (resetUnusedIOZones e (.thread i))) :=
  ignore_admits (resetUnused_admits handles_live.toRecycles)

/-- A thread ends each job as it began it, without a file. -/
theorem safe_job (spins : ℕ) (j : Job) :
    (liveness e).Safe i (programOfJob e i spins j) ⟨false, none⟩
      fun _ w => w = ⟨false, none⟩ := by
  have hlock : ∀ {f : Unit → DevTask Unit},
      (liveness e).Safe i (f ()) ⟨true, none⟩ (fun _ w => w = ⟨false, none⟩) →
      (liveness e).Safe i (call (.lock .files) >>= f) ⟨false, none⟩
        fun _ w => w = ⟨false, none⟩ := by
    intro f hf
    apply (safe_lock (v := ⟨true, none⟩)).mono
    rintro ⟨⟩ _ rfl
    exact hf
  have hunlock : ∀ {f : Unit → DevTask Unit} {b : Bool} {h : Handle},
      (liveness e).Safe i (f ()) (told false h b) (fun _ w => w = ⟨false, none⟩) →
      (liveness e).Safe i (call (.unlock .files) >>= f) (told true h b)
        fun _ w => w = ⟨false, none⟩ := by
    intro f b h hf
    apply (safe_unlock (v := told true h b) ?_).mono
    · rintro ⟨⟩ _ rfl
      exact hf
    · intro g s hg
      cases b <;> cases hg
      exact .inl rfl
  have hreset : (liveness e).Safe i (ignore (resetUnusedIOZones e (.thread i))) ⟨false, none⟩
      fun _ w => w = ⟨false, none⟩ :=
    .mono resetUnusedIOZones_live fun _ _ hw => hw.1
  cases j with
  | newWritableFile old h ioType sparse actions =>
    apply hlock
    apply Safe.bind
    refine Safe.mono (Q := fun _ w => w = ⟨true, none⟩) ?_ ?_
    · cases old with
      | none => exact .ret rfl
      | some g => exact safe_deleteFileNoLock
    rintro s _ rfl
    apply Safe.bind
    have hopen : (liveness e).Safe i
        (if s.ok then createFileNoLock e i h ioType sparse else pure false) ⟨true, none⟩
        fun opened w => w = told true h opened := by
      split
      · exact safe_createFileNoLock ioType sparse
      · exact .ret rfl
    apply hopen.mono
    rintro opened _ rfl
    apply hunlock
    cases opened with
    | false => exact .ret rfl
    | true =>
      have hrest := safe_useFile (session_live (e := e) (i := i) (h := h) spins actions)
      rw [if_pos rfl]
      split
      · exact .bind_admits resetUnusedIOZones_live fun _ => hrest
      · exact hrest
  | reopenWritableFile h actions =>
    apply hlock
    apply safe_getFile.mono
    rintro found _ rfl
    cases found with
    | false => exact (safe_unlock (v := ⟨true, none⟩) (by simp)).mono fun _ _ hw => hw
    | true =>
      apply bind_admits (safe_quiet rfl)
      intro _
      apply hunlock
      exact safe_useFile (session_live spins actions)
  | moveFileToNewLevel h level =>
    apply Safe.bind
    apply safe_getFileLocked.mono
    rintro found _ rfl
    cases found with
    | false => exact .mono (admits_hang handles_live.hang) fun _ _ hw => hw.1
    | true => exact safe_useFile (moveFileToNewLevel_live level)
  | migrateFileExtents h selected =>
    apply Safe.bind
    apply safe_getFileLocked.mono
    rintro found _ rfl
    cases found with
    | false => exact .ret rfl
    | true => exact safe_useFile (ignore_admits (migrateFileExtents_admits works_live.migrates selected))
  | deleteFile h =>
    apply hlock
    apply Safe.bind
    apply safe_deleteFileNoLock.mono
    rintro s _ rfl
    apply hunlock (b := false) (h := h)
    split
    · exact hreset
    · exact .ret rfl
  | resetUnusedIOZones => exact hreset

theorem safe_thread (jobs : List (Job × ℕ)) :
    (liveness e).Safe i (thread e i jobs) ⟨false, none⟩ fun _ _ => True := by
  induction jobs with
  | nil => exact .ret trivial
  | cons j rest ih =>
    apply Safe.bind
    apply (safe_job j.2 j.1).mono
    rintro _ _ rfl
    exact ih

/-- No thread has a file and none is recorded; the named files are live ones. -/
structure Idle (d : Zbd) : Prop where
  lists : d.place.lists = []
  unlocked : d.locked .files = false
  pins : ∀ h, d.pins h = []
  named : ∀ h, 0 < d.links h → d.created h = true ∧ (d.place.info h).isDeleted = false
  uncreated : ∀ h, d.created h = false → (d.place.info h).isDeleted = false

theorem Idle.live (hd : Idle d) : Live (fun _ => false) (fun _ => none) d.fileTable := by
  have hrec : ∀ h, h ∉ d.place.recorded := by
    intro h hh
    rw [recorded, hd.lists] at hh
    cases hh
  refine ⟨by rintro _ ⟨⟩, by rintro _ _ _ ⟨⟩, ?_, ?_, fun h hh => absurd hh (hrec h), ?_,
    by rintro _ _ _ ⟨⟩, by rintro _ _ ⟨⟩, by rintro _ _ ⟨⟩, ?_⟩
  · intro i h
    change (d.pins h).count i = _
    simp [hd.pins]
  · rintro h (hl | ⟨i, s, hi, -⟩)
    · exact (hd.named h hl).2
    · cases hi
  · rintro h (hh | ⟨i, hi⟩)
    · exact absurd hh (hrec h)
    · cases hi
  · intro h hh
    refine ⟨?_, hd.pins h, hrec h, hd.uncreated h hh⟩
    by_contra hl
    have := (hd.named h (Nat.pos_of_ne_zero hl)).1
    rw [show d.created h = false from hh] at this
    cases this

theorem smallDevice_idle : Idle smallDevice :=
  ⟨rfl, rfl, fun _ => rfl, fun _ hl => absurd hl (Nat.lt_irrefl 0), fun _ _ => rfl⟩

def writeSst (h : Handle) (key : Key) : Job × ℕ :=
  (.newWritableFile none h .data false [.setLevel h 0, .updateInternalKeys h key, .closeWR h], 9)

def writeAndDelete (files : List Handle) : ℕ → List (Job × ℕ)
  | 0 => files.map fun h => writeSst h [UInt8.ofNat h]
  | 1 => [(.deleteFile 1, 9)]
  | _ => []

end ZenFs.Device
