import ZenFs.Filenames.Model

/-!
What a thread knows of the names of the files, and what its steps leave of what others know.

Under `files_mtx_` a thread knows `files_` and all link names. A writer that is open and a write
lock keep the last name of their file, as long as names are erased with care. A placement
policy knows that the files it has read from the lists have names.
-/

namespace ZenFs.Filenames

open Library Task Discipline List Function

structure View where
  files : Files
  linkfiles : Handle → List Name

def Shared.view (s : Shared) : View := ⟨s.files, s.linkfiles⟩

namespace View

variable (f : View) (h : Handle) (n : Name)

def eraseFile : View := { f with files := f.files.erase n }

def insertFile : View := { f with files := f.files.insertIfNew n h }

def addLinkName : View :=
  { f with linkfiles := Function.update f.linkfiles h (f.linkfiles h ++ [n]) }

def eraseLink : View :=
  { f with linkfiles := Function.update f.linkfiles h ((f.linkfiles h).erase n) }

def Coherent : Prop := ∀ n h, f.files[n]? = some h → n ∈ f.linkfiles h

variable {f h n} {m : Name} {g : Handle}

theorem mem_addLinkName (hm : m ∈ f.linkfiles g) :
    m ∈ (f.addLinkName h n).linkfiles g := by
  unfold addLinkName
  by_cases hg : g = h
  · subst hg
    simp [hm]
  · simpa [hg] using hm

theorem mem_addLinkName_self : n ∈ (f.addLinkName h n).linkfiles h := by simp [addLinkName]

theorem mem_eraseLink (hm : m ∈ f.linkfiles g) (hne : m ≠ n) :
    m ∈ (f.eraseLink h n).linkfiles g := by
  unfold eraseLink
  by_cases hg : g = h
  · subst hg
    simpa using (mem_erase_of_ne hne).mpr hm
  · simpa [hg] using hm

theorem getElem?_eraseFile (hm : (f.eraseFile n).files[m]? = some g) :
    m ≠ n ∧ f.files[m]? = some g := by
  simp only [eraseFile, Std.ExtTreeMap.getElem?_erase, Std.LawfulEqCmp.compare_eq_iff_eq] at hm
  split at hm
  case isTrue => cases hm
  case isFalse hne => exact ⟨fun hmn => hne hmn.symm, hm⟩

theorem getElem?_insertFile
    (hm : (f.insertFile h n).files[m]? = some g) :
    m = n ∧ g = h ∨ f.files[m]? = some g := by
  simp only [insertFile, Std.ExtTreeMap.getElem?_insertIfNew,
    Std.LawfulEqCmp.compare_eq_iff_eq] at hm
  split at hm
  case isTrue hn =>
    cases hm
    exact .inl ⟨hn.1.symm, rfl⟩
  case isFalse => exact .inr hm

namespace Coherent

section

variable (hf : f.Coherent)
include hf

theorem eraseFile : (f.eraseFile n).Coherent :=
  fun m g hm => hf m g (getElem?_eraseFile hm).2

theorem addLinkName : (f.addLinkName h n).Coherent :=
  fun m g hm => mem_addLinkName (hf m g hm)

theorem insertFile (hn : n ∈ f.linkfiles h) : (f.insertFile h n).Coherent := by
  intro m g hm
  obtain ⟨rfl, rfl⟩ | hm := getElem?_insertFile hm
  · exact hn
  · exact hf m g hm

theorem eraseLink_eraseFile : ((f.eraseFile n).eraseLink h n).Coherent := by
  intro m g hm
  obtain ⟨hne, hm⟩ := getElem?_eraseFile hm
  exact mem_eraseLink (hf m g hm) hne

theorem eraseFile_eraseLink : ((f.eraseLink h n).eraseFile n).Coherent := by
  intro m g hm
  obtain ⟨hne, hm⟩ := getElem?_eraseFile hm
  exact mem_eraseLink (hf m g hm) hne

theorem insertFile_addLinkName :
    ((f.insertFile h n).addLinkName h n).Coherent := by
  intro m g hm
  obtain ⟨rfl, rfl⟩ | hm := getElem?_insertFile hm
  · exact mem_addLinkName_self
  · exact mem_addLinkName (hf m g hm)

theorem renamed :
    ((((f.eraseLink h n).addLinkName h m).eraseFile n).insertFile h m).Coherent := by
  have hm : m ∈ (((f.eraseLink h n).addLinkName h m).eraseFile n).linkfiles h :=
    mem_addLinkName_self
  apply Coherent.insertFile _ hm
  intro k g hk
  obtain ⟨hne, hk⟩ := getElem?_eraseFile hk
  exact mem_addLinkName (mem_eraseLink (hf k g hk) hne)

end

end Coherent

end View

/-- How names are to be treated: the last name of a file is erased only while no writer has
the file open and its write lock is free, and not under the eyes of a placement policy; a
write lock is tried only while the file has a name; and a policy reads the lists only while
all files in them have names. -/
def Careful (_ : ℕ) (o : Call) (s : Shared) : Prop :=
  match o with
  | .eraseLink h n => s.linkfiles h = [n] →
      ¬ s.InUse h ∧ (h ∈ s.recorded → s.owner .levelwiseFiles = none)
  | .tryAcquireWRLock _ h => s.linkfiles h ≠ []
  | .readRecords => ∀ h ∈ s.recorded, s.linkfiles h ≠ []
  | _ => True

instance (i : ℕ) (o : Call) (s : Shared) : Decidable (Careful i o s) := by
  cases o <;> unfold Careful <;> infer_instance

def Named (_ : ℕ) (o : Call) (s : Shared) : Prop :=
  match o with
  | .getFilename h => s.linkfiles h ≠ []
  | _ => True

/-- What a thread knows of the level lists: nothing, that it holds their mutex, or which files it
has read from them. -/
inductive Lists
  | away
  | held
  | read (files : List Handle)

def Lists.Fits (i : ℕ) (s : Shared) : Lists → Prop
  | away => True
  | held => s.owner .levelwiseFiles = some i
  | read l => s.owner .levelwiseFiles = some i ∧ ∀ h ∈ l, h ∈ s.recorded ∧ s.linkfiles h ≠ []

structure Local where
  /-- The names, under `files_mtx_`. -/
  view : Option View
  /-- The file of its open writer. -/
  writer : Option Handle
  /-- The file of which it holds the write lock. -/
  lock : Option Handle
  lists : Lists

structure Local.Fits (i : ℕ) (v : Local) (s : Shared) : Prop where
  view : ∀ f, v.view = some f → s.owner .files = some i ∧ s.view = f
  writer : ∀ h, v.writer = some h → (i, h) ∈ s.writers
  lock : ∀ h, v.lock = some h → s.wrLock h = some i
  lists : v.lists.Fits i s

/-- While `files_mtx_` is free all entries are coherent, and files in use have names. -/
structure Shared.Tidy (s : Shared) : Prop where
  coherent : s.owner .files = none → s.view.Coherent
  named : ∀ h, s.InUse h → s.linkfiles h ≠ []

def names (e : Answers) : Discipline ℕ Call.Res Shared Local :=
  threadwise (exec e) Careful Named Shared.Tidy Local.Fits

variable {e : Answers} {i j : ℕ} {v w : Local} {s t : Shared} {h : Handle} {n : Name}

variable {l : Lists}

theorem Lists.Fits.of_eq (hl : l.Fits j s)
    (howner : t.owner .levelwiseFiles = s.owner .levelwiseFiles)
    (hrec : t.recorded = s.recorded) (hlink : t.linkfiles = s.linkfiles) : l.Fits j t := by
  cases l with
  | away => trivial
  | held =>
    simp only [Lists.Fits, howner]
    exact hl
  | read l =>
    simp only [Lists.Fits, howner, hrec, hlink]
    exact hl

/-- The states agree on all that threads know about. -/
structure Alike (s t : Shared) : Prop where
  view : t.view = s.view
  recorded : t.recorded = s.recorded
  wrLock : t.wrLock = s.wrLock
  writers : t.writers = s.writers
  owner : t.owner = s.owner

namespace Alike

variable (hst : Alike s t)

include hst

theorem linkfiles : t.linkfiles = s.linkfiles := congrArg View.linkfiles hst.view

theorem inUse : t.InUse h ↔ s.InUse h := by rw [Shared.InUse, Shared.InUse, hst.wrLock, hst.writers]

theorem tidy (hs : s.Tidy) : t.Tidy := by
  refine ⟨fun hfree => ?_, fun h hh => ?_⟩
  · rw [hst.view]
    exact hs.coherent (by rw [← hst.owner]; exact hfree)
  · rw [hst.linkfiles]
    exact hs.named h (hst.inUse.mp hh)

theorem lists (hl : l.Fits j s) : l.Fits j t :=
  hl.of_eq (by rw [hst.owner]) hst.recorded hst.linkfiles

theorem fits (hv : v.Fits j s) : v.Fits j t := by
  refine ⟨fun f hf => ?_, fun h hh => ?_, fun h hh => ?_, hst.lists hv.lists⟩
  · rw [hst.owner, hst.view]
    exact hv.view f hf
  · rw [hst.writers]
    exact hv.writer h hh
  · rw [hst.wrLock]
    exact hv.lock h hh

end Alike

/-- The call leaves alone all that threads know about. -/
def Call.neutral : Call → Bool
  | getFile _ => true
  | listFiles => true
  | newFile => true
  | getNrLinks _ => true
  | getFilename _ => true
  | isSparse _ => true
  | setSparse _ _ => true
  | isDeleted _ => true
  | markDeleted _ => true
  | readRecords => true
  | isRecorded _ => true
  | setRecorded _ => true
  | persistRecord => true
  | aux _ => true
  | hang => true
  | _ => false

variable {o : Call}

theorem Call.neutral.alike {r : o.Res} (ho : o.neutral = true) (hr : exec e o s = some (r, t)) :
    Alike s t := by
  cases o <;> first
    | exact absurd ho Bool.false_ne_true
    | (cases hr; exact ⟨rfl, rfl, rfl, rfl, rfl⟩)
    | skip
  case getFilename h =>
    obtain ⟨m, -, hm⟩ := Option.map_eq_some_iff.mp hr
    cases hm
    exact ⟨rfl, rfl, rfl, rfl, rfl⟩
  case hang => cases r

theorem safe_neutral {R : o.Res → Prop} (ho : o.neutral = true)
    (hneed : ∀ s, s.Tidy → v.Fits i s → Named i o s)
    (hR : ∀ s r t, v.Fits i s → exec e o s = some (r, t) → R r) :
    ((names e).judgement i v).Holds (call o) R := by
  apply Safe.threadwise
  intro s hs hv
  refine ⟨hneed s hs hv, fun _ r t hr => ?_⟩
  have hst := Call.neutral.alike ho hr
  exact ⟨hst.tidy hs, fun j u _ hu => hst.fits hu, v, hst.fits hv, rfl, hR s r t hv hr⟩

def Call.asked : Call → Option Handle
  | getFilename h => some h
  | _ => none

theorem Call.asked_eq_some : o.asked = some h ↔ o = .getFilename h := by
  cases o <;> simp [Call.asked]

theorem safe_read (ho : o.neutral = true) (hasked : o.asked = none) :
    ((names e).judgement i v).Admits (call o) := by
  apply safe_neutral ho _ fun _ _ _ _ _ => trivial
  intro s _ _
  cases o <;> trivial

def Local.Trusts (v : Local) (h : Handle) : Prop :=
  (∃ f, v.view = some f ∧ f.linkfiles h ≠ []) ∨ v.writer = some h ∨ v.lock = some h ∨
    ∃ l, v.lists = .read l ∧ h ∈ l

theorem Local.Fits.named (hv : v.Fits i s) (hs : s.Tidy) (hh : v.Trusts h) :
    s.linkfiles h ≠ [] := by
  obtain ⟨f, hf, hnamed⟩ | hw | hl | ⟨l, hl, hmem⟩ := hh
  · obtain ⟨-, rfl⟩ := hv.view f hf
    exact hnamed
  · exact hs.named h (.inr ⟨_, hv.writer h hw, rfl⟩)
  · apply hs.named h
    left
    rw [hv.lock h hl]
    exact nofun
  · have hread := hv.lists
    rw [hl] at hread
    exact (hread.2 h hmem).2

theorem safe_getFilename (hh : v.Trusts h) :
    ((names e).judgement i v).Admits (getFilename h) := by
  have hcall : ((names e).judgement i v).Admits (call (.getFilename h)) :=
    safe_neutral rfl (fun s hs hv => hv.named hs hh) fun _ _ _ _ _ => trivial
  exact Judgement.admits_bind hcall fun _ => Judgement.admits_ret _

theorem safe_getFile {f : View} (hf : v.view = some f) :
    ((names e).judgement i v).Holds (getFile n) fun r => r = f.files[n]? := by
  apply safe_neutral (o := .getFile n) rfl fun _ _ _ => trivial
  intro s r t hv hr
  obtain ⟨-, rfl⟩ := hv.view f hf
  cases hr
  rfl

theorem safe_listFiles {f : View} (hf : v.view = some f) :
    ((names e).judgement i v).Holds listFiles fun r => r = f.files := by
  apply safe_neutral (o := .listFiles) rfl fun _ _ _ => trivial
  intro s r t hv hr
  obtain ⟨-, rfl⟩ := hv.view f hf
  cases hr
  rfl

def Shared.setView (s : Shared) (f : View) : Shared :=
  { s with files := f.files, linkfiles := f.linkfiles }

/-- A change of names keeps what the others know, if no file in use and none that a policy may
look at loses its last name. -/
theorem safe_setView {f : View} {g : o.Res → View} {R : o.Res → Prop}
    (hf : v.view = some f) (hneed : ∀ s, Named i o s)
    (hr : ∀ s r t, s.view = f → exec e o s = some (r, t) → t = s.setView (g r) ∧ R r)
    (hkeep : ∀ s r, s.view = f → Careful i o s → R r → ∀ h, f.linkfiles h ≠ [] →
      s.InUse h ∨ h ∈ s.recorded ∧ s.owner .levelwiseFiles ≠ none → (g r).linkfiles h ≠ []) :
    (names e).Safe i (call o) v fun r w => w = { v with view := some (g r) } ∧ R r := by
  apply Safe.threadwise
  intro s hs hv
  refine ⟨hneed s, fun hok r t ht => ?_⟩
  obtain ⟨howner, hview⟩ := hv.view f hf
  obtain ⟨rfl, hR⟩ := hr s r t hview ht
  have hlink : s.linkfiles = f.linkfiles := congrArg View.linkfiles hview
  have hstill : ∀ h, s.linkfiles h ≠ [] →
      s.InUse h ∨ h ∈ s.recorded ∧ s.owner .levelwiseFiles ≠ none → (g r).linkfiles h ≠ [] := by
    rw [hlink]
    exact hkeep s r hview hok hR
  have hlists : ∀ (j : ℕ) (l : Lists), l.Fits j s → l.Fits j (s.setView (g r)) := by
    intro j l hl
    cases l with
    | away => trivial
    | held => exact hl
    | read l =>
      refine ⟨hl.1, fun h hh => ?_⟩
      obtain ⟨hrec, hname⟩ := hl.2 h hh
      refine ⟨hrec, hstill h hname (.inr ⟨hrec, ?_⟩)⟩
      rw [hl.1]
      exact nofun
  refine ⟨⟨fun hfree => ?_, fun h hh => ?_⟩, fun j u hj hu => ?_, _, ?_, rfl, hR⟩
  · rw [Shared.setView, howner] at hfree
    cases hfree
  · exact hstill h (hs.named h hh) (.inl hh)
  · refine ⟨fun k hk => ?_, hu.writer, hu.lock, hlists j _ hu.lists⟩
    -- two threads do not hold the mutex at once
    have hother := (hu.view k hk).1
    rw [howner] at hother
    cases hother
    exact absurd rfl hj
  · refine ⟨fun k hk => ?_, hv.writer, hv.lock, hlists i _ hv.lists⟩
    cases hk
    exact ⟨howner, rfl⟩

section View

variable {f : View} (hf : v.view = some f)

include hf

theorem safe_growing {g : View} (hneed : ∀ s, Named i o s)
    (hr : ∀ s r t, s.view = f → exec e o s = some (r, t) → t = s.setView g)
    (hgrow : ∀ h, f.linkfiles h ≠ [] → g.linkfiles h ≠ []) :
    (names e).Safe i (call o) v fun _ w => w = { v with view := some g } := by
  have hsafe : (names e).Safe i (call o) v fun _ w => w = { v with view := some g } ∧ True := by
    apply safe_setView hf hneed
    · intro s r t hs ht
      exact ⟨hr s r t hs ht, trivial⟩
    · intro s r _ _ _ h hh _
      exact hgrow h hh
  exact hsafe.mono fun _ w hw => hw.1

theorem safe_eraseFile : (names e).Safe i (call (.eraseFile n)) v
    fun _ w => w = { v with view := some (f.eraseFile n) } := by
  apply safe_growing (o := .eraseFile n) hf (fun _ => trivial)
  · intro s r t hs hr
    subst hs
    cases hr
    rfl
  · exact fun h hh => hh

theorem safe_insertFile : (names e).Safe i (call (.insertFile n h)) v
    fun _ w => w = { v with view := some (f.insertFile h n) } := by
  apply safe_growing (o := .insertFile n h) hf (fun _ => trivial)
  · intro s r t hs hr
    subst hs
    cases hr
    rfl
  · exact fun h hh => hh

theorem safe_addLinkName : (names e).Safe i (call (.addLinkName h n)) v
    fun _ w => w = { v with view := some (f.addLinkName h n) } := by
  apply safe_growing (o := .addLinkName h n) hf (fun _ => trivial)
  · intro s r t hs hr
    subst hs
    cases hr
    rfl
  · intro g hg
    obtain ⟨m, hm⟩ := exists_mem_of_ne_nil _ hg
    exact ne_nil_of_mem (View.mem_addLinkName hm)

/-- The one change that needs care. -/
theorem safe_eraseLink : (names e).Safe i (eraseLink h n) v
    fun r w => w = { v with view := some (f.eraseLink h n) } ∧ r = decide (n ∈ f.linkfiles h) := by
  apply safe_setView (o := .eraseLink h n) hf (fun _ => trivial)
  · intro s r t hs hr
    subst hs
    cases hr
    exact ⟨rfl, contains_eq_mem _ _⟩
  · intro s r hs hok _ g hg hwatched
    subst hs
    by_cases hgh : g = h
    · subst hgh
      intro hnone
      have hlast : s.linkfiles g = [n] := by
        have herase : (s.linkfiles g).erase n = [] := by simpa [View.eraseLink, Shared.view] using hnone
        obtain hnil | hone := erase_eq_nil_iff.mp herase
        · exact absurd hnil hg
        · exact hone
      obtain ⟨hidle, hunseen⟩ := hok hlast
      obtain huse | ⟨hrec, hheld⟩ := hwatched
      · exact hidle huse
      · exact hheld (hunseen hrec)
    · simpa [View.eraseLink, hgh] using hg

end View

def Shared.setOwner (s : Shared) (m : Mutex) (o : Option ℕ) : Shared :=
  { s with owner := Function.update s.owner m o }

theorem Local.Fits.setOwner {o : Option ℕ} (hv : v.Fits j s) (hne : s.owner .files ≠ some j) :
    v.Fits j (s.setOwner .files o) := by
  refine ⟨fun f hf => ?_, hv.writer, hv.lock, hv.lists.of_eq rfl rfl rfl⟩
  exact absurd (hv.view f hf).1 hne

theorem safe_lock_files : (names e).Safe i (call (.lock i .files)) v
    fun _ w => ∃ f : View, f.Coherent ∧ w = { v with view := some f } := by
  apply Safe.threadwise
  intro s hs hv
  refine ⟨trivial, fun _ r t hr => ?_⟩
  by_cases hfree : s.owner .files = none
  · simp only [exec, hfree] at hr
    cases hr
    refine ⟨⟨(fun hno => by cases hno), hs.named⟩, fun j u hj hu => ?_,
      { v with view := some s.view }, ?_, s.view, hs.coherent hfree, rfl⟩
    · apply hu.setOwner
      rw [hfree]
      exact fun hno => by cases hno
    · refine ⟨fun f hf => ?_, hv.writer, hv.lock, hv.lists.of_eq rfl rfl rfl⟩
      cases hf
      exact ⟨rfl, rfl⟩
  · simp only [exec, hfree] at hr
    cases hr

theorem safe_unlock_files {f : View} (hf : v.view = some f) (hcoh : f.Coherent) :
    (names e).Safe i (call (.unlock .files)) v fun _ w => w = { v with view := none } := by
  apply Safe.threadwise
  intro s hs hv
  refine ⟨trivial, fun _ r t hr => ?_⟩
  cases hr
  obtain ⟨howner, rfl⟩ := hv.view f hf
  refine ⟨⟨fun _ => hcoh, hs.named⟩, fun j u hj hu => ?_, _, ?_, rfl⟩
  · apply hu.setOwner
    rw [howner]
    intro hij
    cases hij
    exact hj rfl
  · exact ⟨nofun, hv.writer, hv.lock, hv.lists.of_eq rfl rfl rfl⟩

theorem safe_lock_levelwiseFiles : (names e).Safe i (call (.lock i .levelwiseFiles)) v
    fun _ w => w = { v with lists := .held } := by
  apply Safe.threadwise
  intro s hs hv
  refine ⟨trivial, fun _ r t hr => ?_⟩
  by_cases hfree : s.owner .levelwiseFiles = none
  · simp only [exec, hfree] at hr
    cases hr
    refine ⟨⟨hs.coherent, hs.named⟩, fun j u hj hu => ?_, _, ?_, rfl⟩
    · refine ⟨hu.view, hu.writer, hu.lock, ?_⟩
      have hlists := hu.lists
      cases hl : u.lists with
      | away => trivial
      | held =>
        simp only [hl, Lists.Fits, hfree] at hlists
        cases hlists
      | read l =>
        simp only [hl, Lists.Fits, hfree] at hlists
        cases hlists.1
    · exact ⟨hv.view, hv.writer, hv.lock, rfl⟩
  · simp only [exec, hfree] at hr
    cases hr

def Lists.Held (l : Lists) : Prop := l ≠ .away

theorem Lists.Held.owner (hheld : l.Held) (hl : l.Fits i s) :
    s.owner .levelwiseFiles = some i := by
  cases l with
  | away => exact absurd rfl hheld
  | held => exact hl
  | read l => exact hl.1

/-- What happens to the lists in the hands of one thread does not touch what others know. -/
theorem Lists.Fits.away_of_owner (hj : j ≠ i) (howner : s.owner .levelwiseFiles = some i)
    (hl : l.Fits j s) : l = .away := by
  by_contra haway
  have hother := Lists.Held.owner haway hl
  rw [howner] at hother
  cases hother
  exact hj rfl

theorem safe_unlock_levelwiseFiles (hheld : v.lists.Held) :
    (names e).Safe i (call (.unlock .levelwiseFiles)) v
      fun _ w => w = { v with lists := .away } := by
  apply Safe.threadwise
  intro s hs hv
  refine ⟨trivial, fun _ r t hr => ?_⟩
  cases hr
  refine ⟨⟨hs.coherent, hs.named⟩, fun j u hj hu => ?_, _, ?_, rfl⟩
  · refine ⟨hu.view, hu.writer, hu.lock, ?_⟩
    rw [hu.lists.away_of_owner hj (hheld.owner hv.lists)]
    trivial
  · exact ⟨hv.view, hv.writer, hv.lock, trivial⟩

section

variable (hheld : v.lists = .held)
include hheld

theorem safe_change_records (hneed : ∀ s, Named i o s)
    (hr : ∀ s r t, exec e o s = some (r, t) → ∃ l, t = { s with recorded := l }) :
    ((names e).judgement i v).Admits (call o) := by
  apply Safe.threadwise
  intro s hs hv
  refine ⟨hneed s, fun _ r t ht => ?_⟩
  obtain ⟨l, rfl⟩ := hr s r t ht
  have howner : s.owner .levelwiseFiles = some i := by
    have hlists := hv.lists
    rw [hheld] at hlists
    exact hlists
  refine ⟨⟨hs.coherent, hs.named⟩, fun j u hj hu => ?_, v, ?_, rfl, trivial⟩
  · refine ⟨hu.view, hu.writer, hu.lock, ?_⟩
    rw [hu.lists.away_of_owner hj howner]
    trivial
  · refine ⟨hv.view, hv.writer, hv.lock, ?_⟩
    rw [hheld]
    exact howner

theorem safe_addRecord :
    ((names e).judgement i v).Admits (call (.addRecord h)) :=
  safe_change_records hheld (fun _ => trivial) fun s r t ht => by
    cases ht
    exact ⟨_, rfl⟩

theorem safe_removeRecord :
    ((names e).judgement i v).Admits (call (.removeRecord h)) :=
  safe_change_records hheld (fun _ => trivial) fun s r t ht => by
    cases ht
    exact ⟨_, rfl⟩

theorem safe_readRecords :
    (names e).Safe i readRecords v fun r w => w = { v with lists := .read r } := by
  apply Safe.threadwise
  intro s hs hv
  refine ⟨trivial, fun hok r t hr => ?_⟩
  cases hr
  have howner : s.owner .levelwiseFiles = some i := by
    have hlists := hv.lists
    rw [hheld] at hlists
    exact hlists
  refine ⟨hs, fun _ _ _ hu => hu, { v with lists := .read s.recorded },
    ⟨hv.view, hv.writer, hv.lock, ?_⟩, rfl⟩
  exact ⟨howner, fun h hh => ⟨hh, hok h hh⟩⟩

end

theorem Local.Fits.of_lock (hv : v.Fits j s) {k : Handle} {o : Option ℕ}
    (hk : v.lock ≠ some k ∨ o = some j) :
    v.Fits j { s with wrLock := update s.wrLock k o } := by
  refine ⟨hv.view, hv.writer, fun h hh => ?_, ?_⟩
  · by_cases hkh : h = k
    · subst hkh
      obtain hne | rfl := hk
      · exact absurd hh hne
      · simp
    · simpa [hkh] using hv.lock h hh
  · exact hv.lists.of_eq rfl rfl rfl

theorem Shared.Tidy.of_lock (hs : s.Tidy) {k : Handle} {o : Option ℕ}
    (hk : o ≠ none → s.linkfiles k ≠ []) :
    Shared.Tidy { s with wrLock := update s.wrLock k o } := by
  refine ⟨hs.coherent, fun h hh => ?_⟩
  by_cases hkh : h = k
  · subst hkh
    obtain hlocked | hwriter := hh
    · exact hk (by simpa using hlocked)
    · exact hs.named h (.inr hwriter)
  · apply hs.named h
    simpa [Shared.InUse, hkh] using hh

theorem safe_acquireWRLock (hh : v.Trusts h) :
    ((names e).judgement i v).Admits (call (.acquireWRLock i h)) := by
  apply Safe.threadwise
  intro s hs hv
  refine ⟨trivial, fun _ r t hr => ?_⟩
  by_cases hfree : s.wrLock h = none
  · simp only [exec, hfree] at hr
    cases hr
    refine ⟨hs.of_lock fun _ => hv.named hs hh, fun j u hj hu => hu.of_lock (.inl ?_), v,
      hv.of_lock (.inr rfl), rfl, trivial⟩
    intro hlock
    have hheld := hu.lock h hlock
    rw [hfree] at hheld
    cases hheld
  · simp only [exec, hfree] at hr
    cases hr

theorem safe_tryAcquireWRLock : (names e).Safe i (tryAcquireWRLock i h) v
    fun r w => if r then w = { v with lock := some h } else w = v := by
  apply Safe.threadwise
  intro s hs hv
  refine ⟨trivial, fun hok r t hr => ?_⟩
  by_cases hfree : s.wrLock h = none
  · simp only [exec, hfree] at hr
    cases hr
    refine ⟨hs.of_lock fun _ => hok, fun j u hj hu => hu.of_lock (.inl ?_),
      { v with lock := some h }, ?_, rfl⟩
    · intro hlock
      have hheld := hu.lock h hlock
      rw [hfree] at hheld
      cases hheld
    · have hfits : Local.Fits i { v with lock := none } s :=
        ⟨hv.view, hv.writer, (fun _ hno => by cases hno), hv.lists⟩
      have hnow := hfits.of_lock (k := h) (o := some i) (.inl fun hno => by cases hno)
      refine ⟨hnow.view, hnow.writer, fun g hg => ?_, hnow.lists⟩
      cases hg
      simp
  · simp only [exec, hfree] at hr
    cases hr
    exact ⟨hs, fun _ _ _ hu => hu, v, hv, rfl⟩

theorem safe_releaseWRLock : (names e).Safe i (call (.releaseWRLock i h)) v
    fun _ w => w = { v with lock := none } := by
  apply Safe.threadwise
  intro s hs hv
  refine ⟨trivial, fun _ r t hr => ?_⟩
  by_cases hmine : s.wrLock h = some i
  · simp only [exec, hmine] at hr
    cases hr
    refine ⟨hs.of_lock fun hne => absurd rfl hne, fun j u hj hu => hu.of_lock (.inl ?_),
      { v with lock := none }, ?_, rfl⟩
    · intro hlock
      have hheld := hu.lock h hlock
      rw [hmine] at hheld
      cases hheld
      exact hj rfl
    · have hfits : Local.Fits i { v with lock := none } s :=
        ⟨hv.view, hv.writer, (fun _ hno => by cases hno), hv.lists⟩
      exact hfits.of_lock (.inl fun hno => by cases hno)
  · simp only [exec, hmine] at hr
    cases hr

theorem safe_openWriter (hh : v.Trusts h) : (names e).Safe i (call (.openWriter i h)) v
    fun _ w => w = { v with writer := some h } := by
  apply Safe.threadwise
  intro s hs hv
  refine ⟨trivial, fun _ r t hr => ?_⟩
  cases hr
  refine ⟨⟨hs.coherent, fun g hg => ?_⟩, fun j u hj hu => ?_, { v with writer := some h }, ?_, rfl⟩
  · obtain hlock | ⟨w, hw, rfl⟩ := hg
    · exact hs.named g (.inl hlock)
    · obtain rfl | hw := mem_cons.mp hw
      · exact hv.named hs hh
      · exact hs.named w.2 (.inr ⟨w, hw, rfl⟩)
  · exact ⟨hu.view, fun g hg => mem_cons_of_mem _ (hu.writer g hg), hu.lock,
      hu.lists.of_eq rfl rfl rfl⟩
  · refine ⟨hv.view, fun g hg => ?_, hv.lock, hv.lists.of_eq rfl rfl rfl⟩
    cases hg
    exact mem_cons_self

theorem safe_closeWriter : (names e).Safe i (call (.closeWriter i h)) v
    fun _ w => w = { v with writer := none } := by
  apply Safe.threadwise
  intro s hs hv
  refine ⟨trivial, fun _ r t hr => ?_⟩
  cases hr
  refine ⟨⟨hs.coherent, fun g hg => ?_⟩, fun j u hj hu => ?_, { v with writer := none }, ?_, rfl⟩
  · obtain hlock | ⟨w, hw, rfl⟩ := hg
    · exact hs.named g (.inl hlock)
    · exact hs.named w.2 (.inr ⟨w, mem_of_mem_erase hw, rfl⟩)
  · refine ⟨hu.view, fun g hg => ?_, hu.lock, hu.lists.of_eq rfl rfl rfl⟩
    apply (mem_erase_of_ne _).mpr (hu.writer g hg)
    intro hpair
    cases hpair
    exact hj rfl
  · exact ⟨hv.view, nofun, hv.lock, hv.lists.of_eq rfl rfl rfl⟩

end ZenFs.Filenames
