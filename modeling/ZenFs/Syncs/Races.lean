import ZenFs.Namespace.Recovery
import ZenFs.Syncs.Model

/-!
What the log knows of a file that grows while it is persisted.

Between two persists the log has exactly the extents that count as synced. A persist extends
both the log and the count, and they stay the same as long as no extent is added after the
file was encoded and before the mutex is given back.
-/

namespace ZenFs.Syncs

open Library Task List Option

variable {o : Call} {append : ℕ → Append} {body : Task Call.Res Status}
variable {dest link name : List UInt8} {files imgs : List FileImage} {g : Geometry}
variable {i j size start : ℕ} {job : Job} {jobs : List Job} {l : List ZoneExtent}
variable {names : List (Option FileImage)} {source : Name}
variable {x : ZoneExtent}
variable {e : Env} {s t : Shared}

variable {r : Record}

theorem recoverFile_append {l : List Record} {id : ℕ}
    (hl : Record.endRecord ∉ l) (hr : r ≠ .endRecord) (f : Option ZoneFile) :
    recoverFile g id (l ++ [r]) f = (recoverFile g id l f).bind (replayRecord g id r) := by
  induction l generalizing f with
  | nil =>
    rw [nil_append, recoverFile_cons hr]
    show _ = replayRecord g id r f
    cases replayRecord g id r f <;> rfl
  | cons q rest ih =>
    rw [mem_cons, not_or] at hl
    rw [cons_append, recoverFile_cons (Ne.symm hl.1), recoverFile_cons (Ne.symm hl.1)]
    cases replayRecord g id q f with
    | error st => rfl
    | ok f' => exact ih hl.2 f'

def Logs (e : Env) (s : Shared) (l : List ZoneExtent) : Prop :=
  .endRecord ∉ s.log ∧
    ∃ u, recoverFile e.geometry e.fileId s.log none = .ok (some u) ∧ u.extents = l

/-- The record says nothing about the extents of the file. -/
def Apathetic (e : Env) : Record → Prop
  | .update img => img.fileId ≠ e.fileId
  | .replace img => img.fileId ≠ e.fileId
  | .deletion _ _ => True
  | _ => False

theorem Logs.other (h : Logs e s l) (hr : Apathetic e r) (ht : t.log = s.log ++ [r]) :
    Logs e t l := by
  obtain ⟨hend, u, hu, hl⟩ := h
  have hne : r ≠ .endRecord := by
    rintro rfl
    exact hr
  have hstep : ∃ v, replayRecord e.geometry e.fileId r (some u) = .ok (some v) ∧
      v.extents = u.extents := by
    cases r with
    | update | replace => exact ⟨u, if_neg hr, rfl⟩
    | deletion id name =>
      by_cases hid : id = e.fileId
      · exact ⟨{ u with linkfiles := u.linkfiles.erase name }, by simp [replayRecord, hid], rfl⟩
      · exact ⟨u, by simp [replayRecord, hid], rfl⟩
    | snapshot | endRecord => exact hr.elim
  obtain ⟨v, hv, hext⟩ := hstep
  refine ⟨by simpa [ht, hend] using hne.symm, v, ?_, hext.trans hl⟩
  rw [ht, recoverFile_append hend hne, hu]
  exact hv

variable {f : ZoneFile}

theorem Logs.update (h : Logs e s l) (hf : Encodable e.geometry f) (hid : f.fileId = e.fileId)
    (ht : t.log = s.log ++ [.update f.encodeUpdateTo]) :
    Logs e t (l ++ f.extents.drop f.nrSyncedExtents) := by
  obtain ⟨hend, u, hu, hl⟩ := h
  have hstep : replayRecord e.geometry e.fileId (.update f.encodeUpdateTo) (some u) =
      .ok (some (u.mergeUpdate (f.redecoded f.nrSyncedExtents) false)) := by
    have hdec : decodeFrom e.geometry f.encodeUpdateTo = .ok (f.redecoded f.nrSyncedExtents) :=
      decodeFrom_encodeTo hf f.nrSyncedExtents
    simp only [replayRecord]
    rw [if_pos (show f.encodeUpdateTo.fileId = e.fileId from hid), hdec]
    rfl
  refine ⟨by simpa [ht] using hend, u.mergeUpdate (f.redecoded f.nrSyncedExtents) false, ?_, ?_⟩
  · rw [ht, recoverFile_append hend (by simp), hu]
    exact hstep
  · simp [ZoneFile.mergeUpdate, ZoneFile.redecoded, hl]

theorem Logs.snapshot (hf : Encodable e.geometry f) (hid : f.fileId = e.fileId)
    (himgs : ∀ img ∈ imgs, img.fileId = e.fileId → img = f.encodeSnapshotTo)
    (hmem : f.encodeSnapshotTo ∈ imgs) (ht : t.log = [.snapshot imgs]) : Logs e t f.extents := by
  have hfind : imgs.find? (·.fileId = e.fileId) = some f.encodeSnapshotTo := by
    cases hfound : imgs.find? (·.fileId = e.fileId) with
    | none =>
      have := find?_eq_none.mp hfound _ hmem
      exact absurd (decide_eq_true (show f.encodeSnapshotTo.fileId = e.fileId from hid)) this
    | some img =>
      have hsome := find?_some hfound
      rw [himgs img (mem_of_find?_eq_some hfound) (of_decide_eq_true hsome)]
  have hdec := decodeFrom_encodeTo hf 0
  refine ⟨by simp [ht], f.redecoded 0, ?_, by simp [ZoneFile.redecoded]⟩
  rw [ht]
  simp only [recoverFile, replayRecord, hfind, ZoneFile.encodeSnapshotTo, hdec]
  rfl

/-- The log has the extents that count as synced. -/
def Exact (e : Env) (s : Shared) : Prop :=
  Logs e s (s.file.extents.take s.file.nrSyncedExtents)

/-- How far the holder of the mutex is: it has an update to write, or a part of a snapshot, or
the record is written, or the extents count as synced. -/
inductive Stage
  | outside
  | exact
  | update (img : FileImage)
  | images (imgs : List FileImage)
  | full
  | done

variable {u v : Stage} {vs : ℕ → Stage} {Q : o.Res → Stage → Prop}

def Fits (e : Env) (i : ℕ) : Stage → Shared → Prop
  | .outside, s => s.holder ≠ some i
  | .exact, s => s.holder = some i ∧ Exact e s
  | .update img, s => s.holder = some i ∧ Exact e s ∧ s.encoded = true ∧
      img = s.file.encodeUpdateTo
  | .images imgs, s => s.holder = some i ∧ Exact e s ∧ ∀ img ∈ imgs,
      img.fileId = e.fileId → s.encoded = true ∧ img = s.file.encodeSnapshotTo
  | .full, s => s.holder = some i ∧ s.encoded = true ∧ Logs e s s.file.extents
  | .done, s => s.holder = some i ∧ s.encoded = true ∧ Logs e s s.file.extents ∧
      s.file.nrSyncedExtents = s.file.extents.length

structure Sane (e : Env) (s : Shared) : Prop where
  fileId : s.file.fileId = e.fileId
  synced_le : s.file.nrSyncedExtents ≤ s.file.extents.length
  encodable : Encodable e.geometry s.file
  attached : s.detached = false
  free : s.holder = none → Exact e s

/-- No extent is added while the holder of the mutex has encoded the file, and every roll
writes its snapshot. -/
def Apart (e : Env) : ℕ → Call → Shared → Prop
  | _, .pushExtent _ _ _, s => s.encoded = false
  | _, .addSnapshot _, s => e.append s.appends = .written
  | _, _, _ => True

instance (i : ℕ) (o : Call) (s : Shared) : Decidable (Apart e i o s) :=
  match o with
  | .pushExtent _ _ _ => inferInstanceAs (Decidable (_ = _))
  | .addSnapshot _ => inferInstanceAs (Decidable (_ = _))
  | .lock _ | .unlock | .isDeleted | .setFileModificationTime | .encodeTo _ | .listing
  | .addRecord _ | .metadataSynced | .addLinkName _ | .removeLinkName _
  | .renameLink _ _ => isTrue trivial

/-- The argument about the threads. -/
def discipline (e : Env) : Discipline ℕ Call.Res Shared Stage :=
  .threadwise (exec e) (Apart e) (fun _ _ _ => True) (Sane e) (Fits e)

theorem Fits.eq_outside (h : Fits e i v s) (hne : s.holder ≠ some i) :
    v = .outside := by
  cases v with
  | outside => rfl
  | exact | update | images | full | done => exact absurd h.1 hne

theorem Fits.other (hi : s.holder ≠ some j) (hji : j ≠ i)
    (h : Fits e j v s) (ht : t.holder = some i ∨ t.holder = none) : Fits e j v t := by
  cases h.eq_outside hi
  show t.holder ≠ some j
  rcases ht with ht | ht
  · rw [ht]
    exact fun h => hji (some.inj h).symm
  · rw [ht]
    nofun

theorem holder_ne_none (hi : s.holder = some i) : s.holder ≠ none := by
  rw [hi]
  nofun

theorem safe_of_holder (h : ∀ s, Sane e s → Fits e i v s → s.holder = some i ∧
      (Apart e i o s → ∀ r t, exec e o s = some (r, t) →
        Sane e t ∧ (t.holder = some i ∨ t.holder = none) ∧ ∃ w, Fits e i w t ∧ Q r w)) :
    (discipline e).Safe i (call o) v Q := by
  apply Discipline.Safe.threadwise
  intro s hs hv
  obtain ⟨hi, hstep⟩ := h s hs hv
  refine ⟨trivial, fun hok r t hr => ?_⟩
  obtain ⟨ht, hholder, hw⟩ := hstep hok r t hr
  refine ⟨ht, fun j u hj hu => hu.other ?_ hj hholder, hw⟩
  rw [hi]
  exact fun h => hj (some.inj h).symm

/-- The stages in which the log has what counts as synced, and nothing is to be written. -/
inductive Settled : Stage → Prop
  | exact : Settled .exact
  | done : Settled .done

theorem Settled.fits (hv : Settled v) (h : Fits e i v s) :
    s.holder = some i ∧ Exact e s := by
  cases hv with
  | exact => exact h
  | done =>
    obtain ⟨hi, -, hlog, hsynced⟩ := h
    refine ⟨hi, ?_⟩
    rw [Exact, hsynced, take_length]
    exact hlog

structure Edited (f f' : ZoneFile) : Prop where
  fileId : f'.fileId = f.fileId
  extents : f'.extents = f.extents
  synced : f'.nrSyncedExtents = f.nrSyncedExtents
  names : [] ∉ f.linkfiles → [] ∉ f'.linkfiles

theorem Sane.edited (hs : Sane e s) (hf : Edited s.file f) (ht : t.file = f)
    (hdetached : t.detached = s.detached) (hholder : t.holder ≠ none) : Sane e t where
  fileId := by rw [ht, hf.fileId, hs.fileId]
  synced_le := by
    rw [ht, hf.synced, hf.extents]
    exact hs.synced_le
  encodable := by
    rw [ht]
    exact ⟨hf.extents ▸ hs.encodable.extents, hf.names hs.encodable.names⟩
  attached := hdetached.trans hs.attached
  free h := absurd h hholder

theorem Exact.edited (hs : Exact e s) (hf : Edited s.file t.file) (hlog : t.log = s.log) :
    Exact e t := by
  rw [Exact, Logs, hlog, hf.extents, hf.synced]
  exact hs

theorem safe_edit (hv : Settled v)
    (ho : ∀ s r t, exec e o s = some (r, t) → Edited s.file t.file ∧ t.log = s.log ∧
      t.detached = s.detached ∧ t.holder = s.holder) :
    (discipline e).Safe i (call o) v fun _ w => w = .exact := by
  apply safe_of_holder
  intro s hs hfits
  obtain ⟨hi, hexact⟩ := hv.fits hfits
  refine ⟨hi, fun _ r t hr => ?_⟩
  obtain ⟨hf, hlog, hdetached, hholder⟩ := ho s r t hr
  have hti : t.holder = some i := hholder.trans hi
  exact ⟨hs.edited hf rfl hdetached (by rw [hti]; nofun), .inl hti, .exact,
    ⟨hti, hexact.edited hf hlog⟩, rfl⟩

theorem safe_isDeleted (hv : Settled v) :
    (discipline e).Safe i isDeleted v fun _ w => w = .exact := by
  apply safe_edit hv
  rintro s r t ⟨⟩
  exact ⟨⟨rfl, rfl, rfl, id⟩, rfl, rfl, rfl⟩

theorem safe_setFileModificationTime (hv : Settled v) :
    (discipline e).Safe i (call .setFileModificationTime) v fun _ w => w = .exact := by
  apply safe_edit hv
  rintro s r t ⟨⟩
  exact ⟨⟨rfl, rfl, rfl, id⟩, rfl, rfl, rfl⟩

theorem safe_addLinkName (hv : Settled v) (hname : name ≠ []) :
    (discipline e).Safe i (call (.addLinkName name)) v fun _ w => w = .exact := by
  apply safe_edit hv
  rintro s r t ⟨⟩
  refine ⟨⟨rfl, rfl, rfl, ?_⟩, rfl, rfl, rfl⟩
  intro h
  simpa [Shared.setFile, ZoneFile.addLinkName, h] using hname.symm

theorem edited_removeLinkName {name : Name} :
    Edited f (f.removeLinkName name).2 := by
  unfold ZoneFile.removeLinkName
  split
  · exact ⟨rfl, rfl, rfl, fun h hmem => h (mem_of_mem_erase hmem)⟩
  · exact ⟨rfl, rfl, rfl, id⟩

theorem edited_renameLink (hdest : dest ≠ []) :
    Edited f (f.renameLink source dest).2 := by
  unfold ZoneFile.renameLink
  split
  · refine ⟨rfl, rfl, rfl, fun h hmem => ?_⟩
    rcases mem_append.mp hmem with hmem | hmem
    · exact h (mem_of_mem_erase hmem)
    · exact hdest (mem_singleton.mp hmem).symm
  · exact ⟨rfl, rfl, rfl, id⟩

theorem safe_removeLinkName (hv : Settled v) (name : Name) :
    (discipline e).Safe i (removeLinkName name) v fun _ w => w = .exact := by
  apply safe_edit hv
  rintro s r t ⟨⟩
  exact ⟨edited_removeLinkName, rfl, rfl, rfl⟩

theorem safe_renameLink (hv : Settled v) (source : Name) (hdest : dest ≠ []) :
    (discipline e).Safe i (renameLink source dest) v fun _ w => w = .exact := by
  apply safe_edit hv
  rintro s r t ⟨⟩
  exact ⟨edited_renameLink hdest, rfl, rfl, rfl⟩

theorem safe_encodeUpdate :
    (discipline e).Safe i (encodeTo false) .exact fun img w => w = .update img := by
  apply safe_of_holder
  rintro s hs ⟨hi, hexact⟩
  refine ⟨hi, ?_⟩
  rintro - r t ⟨⟩
  exact ⟨⟨hs.fileId, hs.synced_le, hs.encodable, hs.attached, hs.free⟩, .inl hi, .update _,
    ⟨hi, hexact, rfl, rfl⟩, rfl⟩

theorem safe_encodeSnapshot (imgs : List FileImage) :
    (discipline e).Safe i (encodeTo true) (.images imgs) fun img w =>
      w = .images (imgs ++ [img]) ∧ img.fileId = e.fileId := by
  apply safe_of_holder
  rintro s hs ⟨hi, hexact, himgs⟩
  refine ⟨hi, ?_⟩
  rintro - r t ⟨⟩
  refine ⟨⟨hs.fileId, hs.synced_le, hs.encodable, hs.attached, hs.free⟩, .inl hi, .images _,
    ⟨hi, hexact, ?_⟩, rfl, hs.fileId⟩
  intro img hmem hid
  rcases mem_append.mp hmem with hmem | hmem
  · exact ⟨rfl, (himgs img hmem hid).2⟩
  · exact ⟨rfl, mem_singleton.mp hmem⟩

theorem safe_listing (imgs : List FileImage) :
    (discipline e).Safe i listing (.images imgs) fun names w => w = .images imgs ∧
      none ∈ names ∧ ∀ img, some img ∈ names → img.fileId ≠ e.fileId := by
  apply safe_of_holder
  rintro s hs ⟨hi, hexact, himgs⟩
  refine ⟨hi, ?_⟩
  rintro - r t ⟨⟩
  exact ⟨⟨hs.fileId, hs.synced_le, hs.encodable, hs.attached, hs.free⟩, .inl hi, .images imgs,
    ⟨hi, hexact, himgs⟩, rfl, e.listed _, e.others _⟩

theorem appended_eq {written failed : Shared → Shared} {r : Status}
    (h : s.appended e written failed = (r, t)) :
    (e.append s.appends = .written ∧ r = .OK ∧ t = written { s with appends := s.appends + 1 }) ∨
    (e.append s.appends ≠ .written ∧ r.ok = false ∧
      t = failed { s with appends := s.appends + 1 }) := by
  rw [Shared.appended] at h
  split at h
  · next hw =>
    cases h
    exact .inl ⟨hw, rfl, rfl⟩
  · next hw =>
    cases h
    exact .inr ⟨by rw [hw]; nofun, rfl, rfl⟩
  · next hw =>
    cases h
    exact .inr ⟨by rw [hw]; nofun, rfl, rfl⟩

/-- After a failure the next thing is a roll, or nothing. -/
def Unwritten (r : Status) (w : Stage) : Prop :=
  r.ok = false ∧ w = if r.isNoSpace then .images [] else .exact

theorem fits_unwritten (hi : s.holder = some i) (hs : Exact e s) (r : Status) :
    Fits e i (if r.isNoSpace then .images [] else .exact) s := by
  split
  · exact ⟨hi, hs, nofun⟩
  · exact ⟨hi, hs⟩

theorem safe_addRecord (hu : ∀ s, Fits e i u s → s.holder = some i ∧ Exact e s)
    (hv : ∀ s t, Sane e s → Fits e i u s → t.log = s.log ++ [r] → t.file = s.file →
      t.holder = s.holder → t.encoded = s.encoded → Fits e i v t) :
    (discipline e).Safe i (addRecord r) u fun st w =>
      (st = .OK ∧ w = v) ∨ Unwritten st w := by
  apply safe_of_holder
  intro s hs hfits
  obtain ⟨hi, hexact⟩ := hu s hfits
  refine ⟨hi, fun _ st t hr => ?_⟩
  rcases appended_eq (some.inj hr) with ⟨-, rfl, rfl⟩ | ⟨-, hok, rfl⟩
  · have hlog : Shared.addToLog { s with appends := s.appends + 1 } r =
        { s with appends := s.appends + 1, log := s.log ++ [r] } := if_neg (by simp [hs.attached])
    rw [hlog]
    exact ⟨⟨hs.fileId, hs.synced_le, hs.encodable, hs.attached,
      fun hnone => absurd hnone (holder_ne_none hi)⟩, .inl hi, v,
      hv s _ hs hfits rfl rfl rfl rfl, .inl ⟨rfl, rfl⟩⟩
  · exact ⟨⟨hs.fileId, hs.synced_le, hs.encodable, hs.attached, hs.free⟩, .inl hi, _,
      fits_unwritten (s := { s with appends := s.appends + 1 }) hi hexact st, .inr ⟨hok, rfl⟩⟩

theorem safe_addRecord_update (img : FileImage) :
    (discipline e).Safe i (addRecord (.update img)) (.update img) fun st w =>
      (st = .OK ∧ w = .full) ∨ Unwritten st w := by
  apply safe_addRecord
  · rintro s ⟨hi, hexact, -⟩
    exact ⟨hi, hexact⟩
  · rintro s t hs ⟨hi, hexact, henc, rfl⟩ hlog hfile hholder hencoded
    refine ⟨hholder.trans hi, hencoded.trans henc, ?_⟩
    have := Logs.update hexact hs.encodable hs.fileId hlog
    rwa [take_append_drop, ← hfile] at this

theorem safe_addRecord_other (hr : Apathetic e r) (hv : Settled v) :
    (discipline e).Safe i (addRecord r) v fun st w => (st = .OK ∧ w = .exact) ∨ Unwritten st w := by
  apply safe_addRecord fun _ h => hv.fits h
  intro s t hs hfits hlog hfile hholder _
  obtain ⟨hi, hexact⟩ := hv.fits hfits
  refine ⟨hholder.trans hi, ?_⟩
  rw [Exact, hfile]
  exact Logs.other hexact hr hlog

def Images (e : Env) (files imgs : List FileImage) : Prop :=
  ∀ img ∈ files, img.fileId = e.fileId → img ∈ imgs

theorem safe_addSnapshot (hfiles : Images e files imgs)
    (hmem : ∃ img ∈ files, img.fileId = e.fileId) :
    (discipline e).Safe i (addSnapshot files) (.images imgs) fun st w =>
      st = .OK ∧ w = .full := by
  apply safe_of_holder
  rintro s hs ⟨hi, -, himgs⟩
  refine ⟨hi, fun hwritten st t hr => ?_⟩
  rcases appended_eq (some.inj hr) with ⟨-, rfl, rfl⟩ | ⟨hno, -, -⟩
  · obtain ⟨img, hin, hid⟩ := hmem
    obtain ⟨henc, rfl⟩ := himgs img (hfiles img hin hid) hid
    refine ⟨⟨hs.fileId, hs.synced_le, hs.encodable, rfl,
      fun hnone => absurd hnone (holder_ne_none hi)⟩, .inl hi, .full, ⟨hi, henc, ?_⟩, rfl, rfl⟩
    exact Logs.snapshot hs.encodable hs.fileId
      (fun img hin hid => (himgs img (hfiles img hin hid) hid).2) hin rfl
  · exact absurd hwritten hno

theorem safe_metadataSynced (hv : v = .full ∨ v = .done) :
    (discipline e).Safe i (call .metadataSynced) v fun _ w => w = .done := by
  apply safe_of_holder
  intro s hs hfits
  have hfull : Fits e i .full s := by
    rcases hv with rfl | rfl
    · exact hfits
    · exact ⟨hfits.1, hfits.2.1, hfits.2.2.1⟩
  obtain ⟨hi, henc, hlogs⟩ := hfull
  refine ⟨hi, ?_⟩
  rintro - r t ⟨⟩
  exact ⟨⟨hs.fileId, le_rfl, ⟨hs.encodable.extents, hs.encodable.names⟩, hs.attached,
    fun hnone => absurd hnone (holder_ne_none hi)⟩, .inl hi, .done, ⟨hi, henc, hlogs, rfl⟩, rfl⟩

theorem safe_unlock (hv : Settled v) :
    (discipline e).Safe i (call .unlock) v fun _ w => w = .outside := by
  apply safe_of_holder
  intro s hs hfits
  obtain ⟨hi, hexact⟩ := hv.fits hfits
  refine ⟨hi, ?_⟩
  rintro - r t ⟨⟩
  exact ⟨⟨hs.fileId, hs.synced_le, hs.encodable, hs.attached, fun _ => hexact⟩, .inr rfl, .outside,
    nofun, rfl⟩

open Discipline

theorem safe_encodeSnapshotTo (imgs : List FileImage)
    (hothers : ∀ img, some img ∈ names → img.fileId ≠ e.fileId) :
    (discipline e).Safe i (encodeSnapshotTo names) (.images imgs) fun files w =>
      ∃ imgs', w = .images imgs' ∧ imgs ⊆ imgs' ∧ Images e files imgs' ∧
        (none ∈ names → ∃ img ∈ files, img.fileId = e.fileId) := by
  induction names generalizing imgs with
  | nil => exact .ret ⟨imgs, rfl, List.Subset.refl _, nofun, nofun⟩
  | cons entry rest ih =>
    have hrest : ∀ img, some img ∈ rest → img.fileId ≠ e.fileId := fun img h =>
      hothers img (mem_cons_of_mem _ h)
    cases entry with
    | none =>
      apply (safe_encodeSnapshot imgs).seq
      rintro img _ ⟨rfl, hid⟩
      apply (ih (imgs ++ [img]) hrest).seq
      rintro files _ ⟨imgs', rfl, hsub, hfiles, -⟩
      refine .ret ⟨imgs', rfl, fun x hx => hsub (mem_append_left _ hx), ?_,
        fun _ => ⟨img, by simp, hid⟩⟩
      intro x hx hxid
      rcases mem_cons.mp hx with rfl | hx
      · exact hsub (by simp)
      · exact hfiles x hx hxid
    | some img =>
      apply (ih imgs hrest).seq
      rintro files _ ⟨imgs', rfl, hsub, hfiles, hmem⟩
      refine .ret ⟨imgs', rfl, hsub, ?_, ?_⟩
      · intro x hx hxid
        rcases mem_cons.mp hx with rfl | hx
        · exact absurd hxid (hothers x (by simp))
        · exact hfiles x hx hxid
      · intro hnone
        obtain ⟨x, hx, hxid⟩ := hmem (by simpa using hnone)
        exact ⟨x, mem_cons_of_mem _ hx, hxid⟩

theorem safe_allMetadataSynced (hv : v = .full ∧ none ∈ names ∨ v = .done) :
    (discipline e).Safe i (allMetadataSynced names) v fun _ w => w = .done := by
  induction names generalizing v with
  | nil =>
    rcases hv with ⟨-, hnone⟩ | hv
    · cases hnone
    · exact hv
  | cons entry rest ih =>
    cases entry with
    | none =>
      apply (safe_metadataSynced (hv.imp_left And.left)).seq
      intro _ w hw
      exact ih (.inr hw)
    | some img =>
      apply ih
      exact hv.imp_left fun h => ⟨h.1, by simpa using h.2⟩

theorem safe_rollMetaZoneLocked :
    (discipline e).Safe i rollMetaZoneLocked (.images []) fun st w => st = .OK ∧ w = .done := by
  apply (safe_listing []).seq
  rintro names _ ⟨rfl, hnone, hothers⟩
  apply (safe_encodeSnapshotTo [] hothers).seq
  rintro files _ ⟨imgs, rfl, -, hfiles, hmem⟩
  apply (safe_addSnapshot hfiles (hmem hnone)).seq
  rintro st _ ⟨rfl, rfl⟩
  apply (safe_allMetadataSynced (.inl ⟨rfl, hnone⟩)).seq
  rintro _ _ rfl
  exact .ret ⟨rfl, rfl⟩

theorem safe_persistRecord (h : (discipline e).Safe i (addRecord r) u fun st w =>
      (st = .OK ∧ w = v) ∨ Unwritten st w) :
    (discipline e).Safe i (persistRecord r) u fun st w =>
      (st.ok = true ∧ (w = v ∨ w = .done)) ∨ (st.ok = false ∧ w = .exact) := by
  apply h.seq
  rintro st w (⟨rfl, rfl⟩ | ⟨hok, rfl⟩)
  · exact .ret (.inl ⟨rfl, .inl rfl⟩)
  · by_cases hcode : st.isNoSpace = true
    · rw [if_pos hcode, if_pos hcode]
      apply safe_rollMetaZoneLocked.mono
      rintro st w ⟨rfl, rfl⟩
      exact .inl ⟨rfl, .inr rfl⟩
    · rw [if_neg hcode, if_neg hcode]
      exact .ret (.inr ⟨hok, rfl⟩)

theorem safe_persistOther (hr : Apathetic e r) (hv : Settled v) :
    (discipline e).Safe i (persistRecord r) v fun _ w => Settled w := by
  apply (safe_persistRecord (safe_addRecord_other hr hv)).mono
  rintro st w (⟨-, rfl | rfl⟩ | ⟨-, rfl⟩)
  · exact .exact
  · exact .done
  · exact .exact

theorem safe_syncFileMetadataNoLock (hv : Settled v) :
    (discipline e).Safe i syncFileMetadataNoLock v fun _ w => Settled w := by
  apply (safe_isDeleted hv).seq
  rintro deleted _ rfl
  cases deleted with
  | true => exact .ret .exact
  | false =>
    apply (safe_setFileModificationTime .exact).seq
    rintro _ _ rfl
    apply safe_encodeUpdate.seq
    rintro img _ rfl
    apply (safe_persistRecord (safe_addRecord_update img)).seq
    rintro st w (⟨hok, hw⟩ | ⟨hok, rfl⟩)
    · rw [if_pos hok]
      apply (safe_metadataSynced hw).seq
      rintro _ _ rfl
      exact .ret .done
    · rw [if_neg (by simp [hok])]
      exact .ret .exact

theorem safe_linkFileNoLock (hv : Settled v) (hlink : link ≠ []) :
    (discipline e).Safe i (linkFileNoLock link) v fun _ w => Settled w := by
  apply (safe_addLinkName hv hlink).seq
  rintro _ _ rfl
  apply (safe_syncFileMetadataNoLock .exact).seq
  intro st w hw
  split
  · exact .ret hw
  · apply (safe_removeLinkName hw link).mono
    rintro _ _ rfl
    exact .exact

theorem safe_renameFileNoLock {source : List UInt8} (hv : Settled v) (existing : Option (ℕ × Name))
    (hsource : source ≠ []) (hdest : dest ≠ []) :
    (discipline e).Safe i (renameFileNoLock existing source dest) v fun _ w => Settled w := by
  have hdelete : (discipline e).Safe i (deleteExisting existing) v fun _ w => Settled w := by
    cases existing with
    | none => exact .ret hv
    | some p => exact safe_persistOther trivial hv
  apply hdelete.seq
  intro st w hw
  split
  · exact .ret hw
  · apply (safe_renameLink hw source hdest).seq
    rintro st _ rfl
    split
    · exact .ret .exact
    · apply (safe_syncFileMetadataNoLock .exact).seq
      intro st w hw
      split
      · exact .ret hw
      · apply (safe_renameLink hw dest hsource).mono
        rintro _ _ rfl
        exact .exact

/-- Names are not empty, an extent lies in the zone it is booked on, and a record of another
file is none of this one. -/
def Job.Valid (e : Env) : Job → Prop
  | .pushExtent x _ _ => ExtentsOk e.geometry [x]
  | .syncFileMetadata => True
  | .linkFile link => link ≠ []
  | .renameFile _ source dest => source ≠ [] ∧ dest ≠ []
  | .persistOther r => Apathetic e r

theorem safe_lock :
    (discipline e).Safe i (call (.lock i)) .outside fun _ w => w = .exact := by
  apply Safe.threadwise
  intro s hs hout
  refine ⟨trivial, fun _ r t hr => ?_⟩
  have hnone : s.holder = none := by
    by_contra hne
    rw [show exec e (.lock i) s = none from if_neg hne] at hr
    cases hr
  rw [show exec e (.lock i) s = some ((), { s with holder := some i }) from if_pos hnone] at hr
  cases hr
  refine ⟨⟨hs.fileId, hs.synced_le, hs.encodable, hs.attached, nofun⟩, ?_, .exact,
    ⟨rfl, hs.free hnone⟩, rfl⟩
  intro j u hj hu
  exact hu.other (by rw [hnone]; nofun) hj (.inl rfl)

theorem Exact.pushExtent (hs : Sane e s) (h : Exact e s) :
    Exact e (s.pushExtent x start size) := by
  have htake : (s.file.extents ++ [x]).take s.file.nrSyncedExtents =
      s.file.extents.take s.file.nrSyncedExtents := take_append_of_le_length hs.synced_le
  show Logs e s ((s.file.extents ++ [x]).take s.file.nrSyncedExtents)
  rw [htake]
  exact h

/-- As long as the file has not been encoded, the holder knows nothing that another extent
makes wrong. -/
theorem Fits.pushExtent (hs : Sane e s)
    (hno : s.encoded = false) (h : Fits e j u s) : Fits e j u (s.pushExtent x start size) := by
  have habs : s.encoded ≠ true := by
    rw [hno]
    nofun
  cases u with
  | outside => exact h
  | exact => exact ⟨h.1, h.2.pushExtent hs⟩
  | update img => exact absurd h.2.2.1 habs
  | images imgs => exact ⟨h.1, h.2.1.pushExtent hs, fun img hin hid =>
      absurd (h.2.2 img hin hid).1 habs⟩
  | full | done => exact absurd h.2.1 habs

theorem safe_pushExtent (hx : ExtentsOk e.geometry [x]) (start size : ℕ) (v : Stage) :
    (discipline e).Safe i (call (.pushExtent x start size)) v fun _ w => w = v := by
  apply Safe.threadwise
  intro s hs hv
  refine ⟨trivial, ?_⟩
  rintro hno r t ⟨⟩
  refine ⟨⟨hs.fileId, ?_, ⟨?_, hs.encodable.names⟩, hs.attached, fun h => (hs.free h).pushExtent hs⟩,
    fun j u _ hu => hu.pushExtent hs hno, v, hv.pushExtent hs hno, rfl⟩
  · show s.file.nrSyncedExtents ≤ (s.file.extents ++ [x]).length
    have := hs.synced_le
    simp only [length_append]
    omega
  · intro y hy
    rcases mem_append.mp hy with hy | hy
    · exact hs.encodable.extents y hy
    · exact hx y hy

theorem safe_withFilesMtx (h : (discipline e).Safe i body .exact fun _ w => Settled w) :
    (discipline e).Safe i (withFilesMtx i body) .outside fun _ w => w = .outside := by
  apply safe_lock.seq
  rintro _ _ rfl
  apply h.seq
  intro _ w hw
  exact safe_unlock hw

theorem safe_programOfJob (hjob : job.Valid e) :
    (discipline e).Safe i (programOfJob i job) .outside fun _ w => w = .outside := by
  cases job with
  | pushExtent x start size => exact safe_pushExtent hjob start size .outside
  | syncFileMetadata => exact safe_withFilesMtx (safe_syncFileMetadataNoLock .exact)
  | linkFile link => exact safe_withFilesMtx (safe_linkFileNoLock .exact hjob)
  | renameFile existing source dest =>
    exact safe_withFilesMtx (safe_renameFileNoLock .exact existing hjob.1 hjob.2)
  | persistOther r => exact safe_withFilesMtx (safe_persistOther hjob .exact)

theorem safe_programOfJobs (hjobs : ∀ job ∈ jobs, job.Valid e) :
    (discipline e).Safe i (programOfJobs i jobs) .outside fun _ _ => True := by
  induction jobs with
  | nil => exact .ret trivial
  | cons job rest ih =>
    apply (safe_programOfJob (hjobs job (by simp))).seq
    rintro _ _ rfl
    exact ih fun job hjob => hjobs job (mem_cons_of_mem _ hjob)

/-- Where the threads keep their invariant, the log has what counts as synced. -/
theorem contains_of_inv (h : (discipline e).Inv vs s) : Contains e s := by
  obtain ⟨hs, hfits⟩ := h
  have hexact : Exact e s → Contains e s := by
    rintro ⟨-, u, hu, hext⟩
    exact ⟨u, hu, hext ▸ prefix_rfl⟩
  cases hholder : s.holder with
  | none => exact hexact (hs.free hholder)
  | some i =>
    have hi := hfits i
    cases hv : vs i with
    | outside =>
      rw [hv] at hi
      exact absurd hholder hi
    | exact =>
      rw [hv] at hi
      exact hexact hi.2
    | update | images =>
      rw [hv] at hi
      exact hexact hi.2.1
    | full =>
      rw [hv] at hi
      obtain ⟨-, -, -, u, hu, hext⟩ := hi
      exact ⟨u, hu, hext ▸ take_prefix _ _⟩
    | done =>
      rw [hv] at hi
      exact hexact (Settled.done.fits hi).2

/-- Nobody holds the mutex, the log is right, and the file can be decoded from its record. -/
structure Quiet (e : Env) (s : Shared) : Prop extends Sane e s where
  unlocked : s.holder = none

/-- If no extent is added between an encoding of the file and the end of the persist it
belongs to, and every roll writes its snapshot, then in every interleaving the log has all
extents that count as synced. -/
theorem contains_of_apart (jobs : ℕ → List Job) (hjobs : ∀ i, ∀ job ∈ jobs i, job.Valid e)
    (hs : Quiet e s) {p : Pool ℕ Call.Res Shared}
    (h : Reaches (Pool.step (exec e)) (Pool.Allows (Apart e)) (threads jobs s) p) :
    Contains e p.state := by
  have hsound : (discipline e).Sound (threads jobs s) := by
    refine ⟨fun _ => .outside, ⟨hs.toSane, ?_⟩, fun i => safe_programOfJobs (hjobs i)⟩
    intro i
    show s.holder ≠ some i
    rw [hs.unlocked]
    nofun
  obtain ⟨vs, hinv, -⟩ := hsound.reaches h
  exact contains_of_inv hinv

/-- A file on the small device whose only name is listed, and an answer for each `AddRecord`. -/
def smallEnv (append : ℕ → Append) : Env where
  geometry := .small
  fileId := 1
  append := append
  listing _ := [none]
  clock _ := 0
  listed _ := List.mem_singleton_self _
  others _ _ h := nomatch List.mem_singleton.mp h

def newFile : Shared where
  holder := none
  file := { ZoneFile.new 1 with linkfiles := [[47]] }
  log := [.snapshot [({ ZoneFile.new 1 with linkfiles := [[47]] } : ZoneFile).encodeSnapshotTo]]
  detached := false
  encoded := false
  appends := 0
  listings := 0
  clockReads := 0

theorem quiet_newFile : Quiet (smallEnv append) newFile where
  fileId := rfl
  synced_le := le_rfl
  encodable := ⟨nofun, by decide⟩
  attached := rfl
  free _ := ⟨by decide, { ZoneFile.new 1 with linkfiles := [[47]] }, by rfl, rfl⟩
  unlocked := rfl

/-- The writer adds two extents and persists the file in between; another thread persists
something else. -/
def smallJobs : ℕ → List Job
  | 0 => [.pushExtent ⟨0, 16, 0⟩ 16 16, .syncFileMetadata, .pushExtent ⟨16, 16, 0⟩ 32 32]
  | 1 => [.persistOther (.deletion 9 [120])]
  | _ => []

theorem valid_smallJobs (i : ℕ) :
    ∀ job ∈ smallJobs i, job.Valid (smallEnv append) := by
  have hzone : ∀ start, start = 0 ∨ start = 16 →
      ExtentsOk Geometry.small [(⟨start, 16, 0⟩ : ZoneExtent)] := by
    intro start hstart x hx
    rw [mem_singleton.mp hx]
    rcases hstart with rfl | rfl <;> rfl
  match i with
  | 0 =>
    intro job hjob
    simp only [smallJobs, mem_cons, not_mem_nil, or_false] at hjob
    rcases hjob with rfl | rfl | rfl
    · exact hzone 0 (.inl rfl)
    · exact trivial
    · exact hzone 16 (.inr rfl)
  | 1 =>
    intro job hjob
    rw [mem_singleton.mp hjob]
    exact trivial
  | i + 2 => exact nofun

/-- The writer adds an extent, and the file is persisted; the log is full and rolls when the
other thread persists something. The extent that comes last is not synced. -/
theorem contains_after_roll : ∃ p, Reaches (Pool.step (exec (smallEnv fun n =>
      if n = 1 then .noSpace else .written))) (Pool.Allows (Apart (smallEnv fun n =>
      if n = 1 then .noSpace else .written))) (threads smallJobs newFile) p ∧
    p.state.file.nrSyncedExtents = 1 ∧ p.state.file.extents.length = 2 ∧
    Contains (smallEnv fun n => if n = 1 then .noSpace else .written) p.state := by
  apply Reaches.of_any_imp
    (P := fun p => p.state.file.nrSyncedExtents = 1 ∧ p.state.file.extents.length = 2)
    (replicate 8 0 ++ replicate 7 1 ++ [0]) (by decide +kernel)
  intro p hp ⟨h1, h2⟩
  exact ⟨h1, h2, contains_of_apart smallJobs (valid_smallJobs) (quiet_newFile) hp⟩

/-- A link is made while the writer adds an extent after the file was encoded: the extent
counts as synced, and the log does not have it. -/
theorem extent_lost_while_linking : ∃ p, Reaches (Pool.step (exec (smallEnv fun _ => .written)))
      anyStep (threads (fun
        | 0 => [.pushExtent ⟨0, 16, 0⟩ 16 16]
        | 1 => [.linkFile [48]]
        | _ => []) newFile) p ∧
    p.state.file.nrSyncedExtents = 1 ∧ ¬ Contains (smallEnv fun _ => .written) p.state :=
  Reaches.of_any (replicate 5 1 ++ [0] ++ replicate 3 1) (by decide +kernel)

end ZenFs.Syncs
