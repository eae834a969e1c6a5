import Mathlib.Data.Fintype.Basic
import ZenFs.Library.Locks

/-!
The write lock of a file against `files_mtx_`.

A writer that closes its file and the migration of a file hold the write lock of the
file when they persist its metadata, which takes `files_mtx_`. `ReopenWritableFile`
takes them in the other order. The threads can all be blocked only while a reopen waits.
-/

namespace ZenFs.Reopen

open Library Option

variable {b : Bool}
variable {ι φ : Type}

inductive Mutex (φ : Type)
  | files
  | metadataSync
  | openForWr (f : φ)
  deriving DecidableEq

/-- What a thread does. The numbers count how often a writer persists metadata before
its last `CloseWR`, for new zones and syncs. -/
inductive Role (φ : Type)
  /-- `ReopenWritableFile` of an existing file, which is then written to and closed. -/
  | reopen (f : φ) (persists : ℕ)
  /-- A writer that has the file open goes on and closes it. -/
  | close (f : φ) (persists : ℕ)
  /-- `MigrateExtents` for the extents of these files. -/
  | migrate (files : List φ)

def persistRecord : Code (Mutex φ) := .lock .metadataSync (.unlock .metadataSync .done)

/-- `ZenFS::SyncFileMetadata`, behind `PersistMetadata` and `SyncFileExtents`. -/
def syncFileMetadata : Code (Mutex φ) := .lock .files (persistRecord ++ .unlock .files .done)

/-- The appends and syncs of a writer up to `CloseWR`, which persists once more and
releases the write lock. -/
def writeAndClose (f : φ) (persists : ℕ) : Code (Mutex φ) :=
  syncFileMetadata.times persists ++ syncFileMetadata ++ .unlock (.openForWr f) .done

/-- `ZenFS::OpenWritableFile` on the path that reopens an existing file. -/
def reopenWritableFile (f : φ) : Code (Mutex φ) :=
  .lock .files (.lock (.openForWr f) (.unlock .files .done))

def migrateFileExtents (f : φ) : Code (Mutex φ) :=
  .lock .files (.unlock .files
    (.tryLock (.openForWr f) (syncFileMetadata ++ .unlock (.openForWr f) .done) .done))

def migrateExtents : List φ → Code (Mutex φ)
  | [] => .done
  | f :: rest => migrateFileExtents f ++ migrateExtents rest

def Role.code : Role φ → Code (Mutex φ)
  | reopen f n => reopenWritableFile f ++ writeAndClose f n
  | close f n => writeAndClose f n
  | migrate files => migrateExtents files

/-- The threads and their tasks. The write lock of a file is held at the start by the
thread that has it open. -/
structure Scenario (ι φ : Type) where
  role : ι → Role φ
  opened : φ → Option ι
  opened_iff : ∀ f t, opened f = some t ↔ ∃ n, role t = .close f n

def start (sc : Scenario ι φ) : Machine ι (Mutex φ) where
  holder
    | .openForWr f => sc.opened f
    | _ => none
  code t := (sc.role t).code
  slots := 0

def asksFor : Code (Mutex φ) → Option φ
  | .lock (.openForWr f) _ => some f
  | _ => none

/-- The thread is inside `ReopenWritableFile` and asks for the write lock. -/
def Reopening (s : Machine ι (Mutex φ)) (t : ι) (f : φ) : Prop := asksFor (s.code t) = some f

def entersReopen : Code (Mutex φ) → Option φ
  | .lock .files (.lock (.openForWr f) _) => some f
  | _ => none

/-- The file that the code is about to migrate, if its write lock is free. -/
def triesToMigrate : Code (Mutex φ) → Option φ
  | .tryLock (.openForWr f) _ _ => some f
  | _ => none

/-- A step of thread `t` that does not get in the way of a reopen: a reopen begins only
while the write lock of its file is free, and a migration does not try for the write
lock of a file that is just being reopened. -/
def Considerate (s : Machine ι (Mutex φ)) (t : ι) : Prop :=
  (∀ f, entersReopen (s.code t) = some f → s.holder (.openForWr f) = none) ∧
    ∀ f, triesToMigrate (s.code t) = some f → ∀ u, ¬ Reopening s u f

instance [Fintype ι] [Fintype φ] [DecidableEq φ] (s : Machine ι (Mutex φ)) (t : ι) :
    Decidable (Considerate s t) := by
  unfold Considerate Reopening
  infer_instance

def rank : Mutex φ → ℕ
  | .openForWr _ => 0
  | .files => 1
  | .metadataSync => 2

/-- Locks are taken by rank, except that a reopen asks for a write lock while it holds
`files_mtx_`. -/
def Before (l m : Mutex φ) : Prop := rank l < rank m ∨ l = .files ∧ rank m = 0

variable {c : Code (Mutex φ)}

theorem bracketed_sync_append {l : Mutex φ} [DecidableEq φ]
    (hb : rank l ≠ 0 → b = false) (hc : c.Bracketed l b) :
    (syncFileMetadata ++ c).Bracketed l b := by
  cases l with
  | openForWr g => simpa [syncFileMetadata, persistRecord, Code.Bracketed] using hc
  | files | metadataSync =>
    obtain rfl := hb (by simp [rank])
    simpa [syncFileMetadata, persistRecord, Code.Bracketed] using hc

theorem ordered_sync_append (hc : c.Ordered Before) :
    (syncFileMetadata ++ c).Ordered Before := by
  simpa [syncFileMetadata, persistRecord, Code.Ordered, Code.Follows, Before, rank] using hc

theorem follows_sync_append {f : φ} (hc : c.Follows Before (.openForWr f)) :
    (syncFileMetadata ++ c).Follows Before (.openForWr f) := by
  simpa [syncFileMetadata, persistRecord, Code.Follows, Before, rank] using hc

theorem ordered_writeAndClose (f : φ) (n : ℕ) : (writeAndClose f n).Ordered Before := by
  induction n with
  | zero => exact ordered_sync_append trivial
  | succ n ih =>
    exact ordered_sync_append ih

theorem follows_writeAndClose (f : φ) (n : ℕ) :
    (writeAndClose f n).Follows Before (.openForWr f) := by
  induction n with
  | zero => exact follows_sync_append (Or.inl rfl)
  | succ n ih =>
    exact follows_sync_append ih

def StartsReopen : Code (Mutex φ) → Prop
  | .lock (.openForWr _) _ => True
  | _ => False

/-- The code asks for a write lock only right after `files_mtx_`, and uses no slots. -/
def Guarded : Code (Mutex φ) → Prop
  | .done => True
  | .lock l c => (StartsReopen c → l = .files) ∧ Guarded c
  | .unlock _ c => ¬ StartsReopen c ∧ Guarded c
  | .tryLock _ yes no => (¬ StartsReopen yes ∧ Guarded yes) ∧ ¬ StartsReopen no ∧ Guarded no
  | _ => False

theorem Guarded.append {d : Code (Mutex φ)} (hc : Guarded c) (hd : Guarded d)
    (hs : ¬ StartsReopen d) : Guarded (c ++ d) := by
  have hstart : ∀ {c : Code (Mutex φ)}, StartsReopen (c ++ d) → StartsReopen c := by
    intro c h
    cases c with
    | done => exact absurd h hs
    | lock l c => cases l <;> exact h
    | _ => exact h
  induction c with
  | done => exact hd
  | lock l c ih | unlock l c ih => exact ⟨fun h => hc.1 (hstart h), ih hc.2⟩
  | tryLock l yes no ihy ihn =>
    exact ⟨⟨fun h => hc.1.1 (hstart h), ihy hc.1.2⟩, fun h => hc.2.1 (hstart h), ihn hc.2.2⟩
  | _ => cases hc

theorem guarded_sync_append (hc : Guarded c) (hs : ¬ StartsReopen c) :
    Guarded (syncFileMetadata ++ c) := by
  exact ⟨fun _ => rfl, fun h => h.elim, id, hs, hc⟩

theorem guarded_writeAndClose (f : φ) (n : ℕ) :
    Guarded (writeAndClose f n) ∧ ¬ StartsReopen (writeAndClose f n) := by
  induction n with
  | zero => exact ⟨guarded_sync_append ⟨id, trivial⟩ id, id⟩
  | succ n ih =>
    exact ⟨guarded_sync_append ih.1 ih.2, id⟩

theorem guarded_migrateExtents (files : List φ) :
    Guarded (migrateExtents files) ∧ ¬ StartsReopen (migrateExtents files) := by
  induction files with
  | nil => exact ⟨trivial, id⟩
  | cons f rest ih =>
    have hf : Guarded (migrateFileExtents f) :=
      ⟨fun _ => rfl, id, ⟨id, guarded_sync_append ⟨id, trivial⟩ id⟩, id, trivial⟩
    exact ⟨hf.append ih.1 ih.2, id⟩

theorem guarded_role (r : Role φ) : Guarded r.code ∧ ¬ StartsReopen r.code := by
  cases r with
  | reopen f n =>
    have hw := guarded_writeAndClose f n
    exact ⟨⟨fun _ => rfl, fun h => h.elim, hw.2, hw.1⟩, id⟩
  | close f n => exact guarded_writeAndClose f n
  | migrate files => exact guarded_migrateExtents files

theorem start_holder (sc : Scenario ι φ) (l : Mutex φ) (t : ι) :
    (start sc).holder l = some t ↔ ∃ f n, sc.role t = .close f n ∧ l = .openForWr f := by
  cases l with
  | openForWr f => simp [start, sc.opened_iff f t]
  | files | metadataSync => simp [start]

/-- Whoever is inside `ReopenWritableFile` holds `files_mtx_`, and the write lock that it
asks for is free. -/
structure Calm (s : Machine ι (Mutex φ)) : Prop where
  guarded : ∀ t, Guarded (s.code t)
  free : ∀ t f, Reopening s t f → s.holder .files = some t ∧ s.holder (.openForWr f) = none

theorem asksFor_eq_some {f : φ} :
    asksFor c = some f ↔ ∃ d, c = .lock (.openForWr f) d := by
  cases c with
  | lock l d => cases l <;> simp [asksFor]
  | _ => simp [asksFor]

theorem not_reopening {s : Machine ι (Mutex φ)} {t : ι} {f : φ} (h : ¬ StartsReopen (s.code t)) :
    ¬ Reopening s t f := by
  intro hre
  obtain ⟨d, hd⟩ := asksFor_eq_some.mp hre
  rw [hd] at h
  exact h trivial

namespace Calm

variable {s s' : Machine ι (Mutex φ)} {t : ι}

theorem start (sc : Scenario ι φ) : Calm (start sc) where
  guarded t := (guarded_role (sc.role t)).1
  free t _ h := absurd h (not_reopening (guarded_role (sc.role t)).2)

theorem move [DecidableEq ι] (h : Calm s)
    (hcode : s'.code = Function.update s.code t c) (hg : Guarded c)
    (hothers : ∀ u f, u ≠ t → Reopening s u f → s'.holder .files = some u ∧
      s'.holder (.openForWr f) = none)
    (hself : ∀ f d, c = .lock (.openForWr f) d → s'.holder .files = some t ∧
      s'.holder (.openForWr f) = none) : Calm s' := by
  have hcode' : ∀ u, u = t ∧ s'.code u = c ∨ u ≠ t ∧ s'.code u = s.code u := by
    intro u
    by_cases hu : u = t
    · exact Or.inl ⟨hu, by rw [hcode, hu, Function.update_self]⟩
    · exact Or.inr ⟨hu, by rw [hcode, Function.update_of_ne hu]⟩
  constructor
  · intro u
    rcases hcode' u with ⟨-, hu⟩ | ⟨-, hu⟩ <;> rw [hu]
    · exact hg
    · exact h.guarded u
  · intro u f hre
    rcases hcode' u with ⟨rfl, hu⟩ | ⟨hne, hu⟩ <;> rw [Reopening, hu] at hre
    · obtain ⟨d, hd⟩ := asksFor_eq_some.mp hre
      exact hself f d hd
    · exact hothers u f hne hre

end Calm

variable [DecidableEq φ]

theorem bracketed_writeAndClose (f : φ) (n : ℕ) (l : Mutex φ) :
    (writeAndClose f n).Bracketed l (l = .openForWr f) := by
  have hrank : rank l ≠ 0 → decide (l = .openForWr f) = false := by
    cases l <;> simp [rank]
  induction n with
  | zero =>
    apply bracketed_sync_append hrank
    by_cases hl : l = .openForWr f
    · simp [hl, Code.Bracketed]
    · simp [hl, Code.Bracketed, Ne.symm hl]
  | succ n ih =>
    exact bracketed_sync_append hrank ih

theorem proper_reopen (f : φ) (n : ℕ) : (Role.reopen f n).code.Proper Before := by
  constructor
  · intro l
    have hw := bracketed_writeAndClose f n l
    cases l with
    | openForWr g =>
      by_cases hg : g = f
      · simpa [Role.code, reopenWritableFile, Code.Bracketed, hg] using hw
      · simpa [Role.code, reopenWritableFile, Code.Bracketed, hg, Ne.symm hg] using hw
    | files | metadataSync => simpa [Role.code, reopenWritableFile, Code.Bracketed] using hw
  · have ho := ordered_writeAndClose f n
    have hf := follows_writeAndClose f n
    simp [Role.code, reopenWritableFile, Code.Ordered, Code.Follows, Before, rank, ho, hf]

theorem proper_migrateFileExtents (f : φ) : (migrateFileExtents f).Proper Before := by
  constructor
  · intro l
    have hw := bracketed_writeAndClose f 0 l
    cases l with
    | openForWr g =>
      by_cases hg : g = f
      · simpa [migrateFileExtents, Code.Bracketed, writeAndClose, Code.times, hg] using hw
      · simpa [migrateFileExtents, Code.Bracketed, writeAndClose, Code.times, hg,
          Ne.symm hg] using hw
    | files => simpa [migrateFileExtents, Code.Bracketed, writeAndClose, Code.times] using hw
    | metadataSync =>
      simpa [migrateFileExtents, Code.Bracketed, writeAndClose, Code.times] using hw
  · have ho := ordered_writeAndClose f 0
    have hf := follows_writeAndClose f 0
    simpa [migrateFileExtents, Code.Ordered, Code.Follows, writeAndClose, Code.times] using
      And.intro hf ho

theorem proper_migrateExtents (files : List φ) : (migrateExtents files).Proper Before := by
  induction files with
  | nil => exact Code.Proper.done
  | cons f rest ih => exact (proper_migrateFileExtents f).append ih

variable [DecidableEq ι]

theorem start_disciplined (sc : Scenario ι φ) : (start sc).Disciplined Before := by
  constructor
  · intro l t
    have hcode : (start sc).code t = (sc.role t).code := rfl
    cases hr : sc.role t with
    | reopen f n =>
      have hl : (start sc).holder l ≠ some t := by simp [start_holder, hr]
      rw [hcode, hr, decide_eq_false hl]
      exact (proper_reopen f n).bracketed l
    | close f n =>
      have hl : (start sc).holder l = some t ↔ l = .openForWr f := by simp [start_holder, hr]
      rw [hcode, hr, decide_eq_decide.mpr hl]
      exact bracketed_writeAndClose f n l
    | migrate files =>
      have hl : (start sc).holder l ≠ some t := by simp [start_holder, hr]
      rw [hcode, hr, decide_eq_false hl]
      exact (proper_migrateExtents files).bracketed l
  · intro t
    change (sc.role t).code.Ordered Before
    cases sc.role t with
    | reopen f n => exact (proper_reopen f n).ordered
    | close f n => exact ordered_writeAndClose f n
    | migrate files => exact (proper_migrateExtents files).ordered
  · intro l t hl
    obtain ⟨f, n, hr, rfl⟩ := (start_holder sc l t).mp hl
    change (sc.role t).code.Follows Before _
    rw [hr]
    exact follows_writeAndClose f n

/-- A considerate step keeps the write locks free that a reopen asks for. -/
theorem Calm.step {s s' : Machine ι (Mutex φ)} {t : ι} {limit : ℕ} (h : Calm s)
    (hd : s.Disciplined Before) (hok : Considerate s t) (hs : s.step limit t = some s') :
    Calm s' := by
  have hg := h.guarded t
  cases hc : s.code t with
  | done => simp [Machine.step, hc] at hs
  | lock l c =>
    rw [hc] at hg
    simp only [Machine.step, hc] at hs
    split_ifs at hs with hfree
    cases hs
    apply h.move rfl hg.2
    · intro u f hu hre
      obtain ⟨hfiles, hwr⟩ := h.free u f hre
      have hl : l ≠ .files := by
        rintro rfl
        simp [hfree] at hfiles
      -- the other thread that could take the write lock would hold `files_mtx_` as well
      have hl' : l ≠ .openForWr f := by
        rintro rfl
        have := (h.free t f (asksFor_eq_some.mpr ⟨c, hc⟩)).1
        rw [hfiles, some.injEq] at this
        exact hu this
      rw [Machine.setCode_holder, Machine.setHolder_holder_of_ne _ _ _ hl.symm,
        Machine.setHolder_holder_of_ne _ _ _ hl'.symm]
      exact ⟨hfiles, hwr⟩
    · rintro f d rfl
      obtain rfl := hg.1 trivial
      have hwr := hok.1 f (by rw [hc]; rfl)
      simpa [Machine.setHolder] using hwr
  | unlock l c =>
    rw [hc] at hg
    simp only [Machine.step, hc, some.injEq] at hs
    subst hs
    have hl : s.holder l = some t := by
      have := hd.bracketed l t
      simp only [hc, Code.Bracketed, decide_eq_true_eq] at this
      exact this.1
    apply h.move rfl hg.2
    · intro u f hu hre
      obtain ⟨hfiles, hwr⟩ := h.free u f hre
      have hne : l ≠ .files := by
        rintro rfl
        rw [hfiles, some.injEq] at hl
        exact hu hl
      refine ⟨?_, ?_⟩
      · simpa [Machine.setHolder_holder_of_ne _ _ _ hne.symm] using hfiles
      · by_cases hf : l = .openForWr f
        · simp [hf]
        · simpa [Machine.setHolder_holder_of_ne _ _ _ (Ne.symm hf)] using hwr
    · rintro f d rfl
      exact absurd trivial hg.1
  | tryLock l yes no =>
    rw [hc] at hg
    simp only [Machine.step, hc] at hs
    split_ifs at hs with hfree
    · cases hs
      apply h.move rfl hg.1.2
      · intro u f hu hre
        obtain ⟨hfiles, hwr⟩ := h.free u f hre
        have hl : l ≠ .files := by
          rintro rfl
          simp [hfree] at hfiles
        have hl' : l ≠ .openForWr f := by
          rintro rfl
          exact hok.2 f (by rw [hc]; rfl) u hre
        rw [Machine.setCode_holder, Machine.setHolder_holder_of_ne _ _ _ hl.symm,
          Machine.setHolder_holder_of_ne _ _ _ hl'.symm]
        exact ⟨hfiles, hwr⟩
      · rintro f d rfl
        exact absurd trivial hg.1.1
    · cases hs
      apply h.move rfl hg.2.2
      · intro u f _ hre
        exact h.free u f hre
      · rintro f d rfl
        exact absurd trivial hg.2.1
  | _ =>
    rw [hc] at hg
    exact hg.elim

/-- In every run of considerate steps, as long as a thread has not finished, one of the
threads can take a step. -/
theorem not_stuck_of_considerate (sc : Scenario ι φ) (limit : ℕ) {s : Machine ι (Mutex φ)}
    (hs : Reaches (Machine.step limit) Considerate (start sc) s) : ¬ s.Stuck limit := by
  intro hstuck
  let I (s : Machine ι (Mutex φ)) : Prop := s.Disciplined Before ∧ Calm s
  obtain ⟨hd, hcalm⟩ : I s := by
    refine hs.keeps ⟨start_disciplined sc, Calm.start sc⟩ ?_
    rintro t v w ⟨hd, hcalm⟩ hok hstep
    exact ⟨hd.step hstep, hcalm.step hd hok hstep⟩
  rcases hstuck.cycle hd rank 2 (by intro l; cases l <;> simp [rank]) with
    ⟨t, l, c, hc⟩ | ⟨t, l, m, c, hc, hl, hlt⟩
  · have := hcalm.guarded t
    rw [hc] at this
    exact this
  · have hf := hd.follows l t hl
    rw [hc] at hf
    -- the only step against the order is that of a reopen, and its lock is free
    obtain ⟨rfl, hm⟩ := hf.1.resolve_left hlt
    cases m with
    | openForWr f =>
      have hfree := (hcalm.free t f (asksFor_eq_some.mpr ⟨c, hc⟩)).2
      have := hstuck.2 t
      simp [Machine.step, hc, hfree] at this
    | files => simp [rank] at hm
    | metadataSync => simp [rank] at hm

/-- One file: thread `false` has it open and closes it, thread `true` reopens it. -/
def closeAndReopen : Scenario Bool Unit where
  role t := if t then .reopen () 0 else .close () 0
  opened _ := some false
  opened_iff f t := by cases t <;> simp

/-- The first thread closes the file before the second one reopens it. -/
theorem closeAndReopen_not_stuck :
    ∃ s, Reaches (Machine.step 0) Considerate (start closeAndReopen) s ∧
      s.holder (.openForWr ()) = some true ∧ ¬ s.Stuck 0 := by
  have hrun : ∃ s, runSteps (Machine.step 0) Considerate (start closeAndReopen)
      (List.replicate 5 false ++ List.replicate 2 true) = some s ∧
      s.holder (.openForWr ()) = some true := by
    refine ⟨(runSteps (Machine.step 0) Considerate (start closeAndReopen)
      (List.replicate 5 false ++ List.replicate 2 true)).get (by decide), ?_, by decide⟩
    exact (some_get _).symm
  obtain ⟨s, hs, hheld⟩ := hrun
  have hreach := Reaches.of_runSteps hs
  exact ⟨s, hreach, hheld, not_stuck_of_considerate closeAndReopen 0 hreach⟩

/-- The second thread takes `files_mtx_` before the first one closes the file: it waits for
the write lock, which the first thread keeps until it has had `files_mtx_`. -/
theorem closeAndReopen_stuck :
    ∃ s, Reaches (Machine.step 0) anyStep (start closeAndReopen) s ∧ s.Stuck 0 := by
  have hrun : ∃ s, (start closeAndReopen).step 0 true = some s ∧
      s.Stuck 0 := by
    refine ⟨_, rfl, ⟨true, by decide⟩, ?_⟩
    intro t
    cases t <;> rfl
  obtain ⟨s, hs, hstuck⟩ := hrun
  exact ⟨s, .single trivial hs, hstuck⟩

end ZenFs.Reopen
