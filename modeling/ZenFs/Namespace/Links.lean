import ZenFs.Library.LinkTable
import ZenFs.Model.Namespace

/-!
The catalog as a linked table of names.

`Sound` says that names and link lists agree. Every change of the namespace, in memory
and in the replay of a record, gives one object other names and other data; `Relink`
describes such a change by what it leaves in `files_` and in the heap.
-/

namespace ZenFs

open Library Option List

variable {dest file link m n source : Name} {edit : ZoneFile → ZoneFile} {f f' new : ZoneFile}
variable {old : List Name}

namespace Catalog

theorem files_erase {t : Files} :
    (t.erase n)[m]? = if n = m then none else t[m]? := by
  simp [Std.ExtTreeMap.getElem?_erase]

theorem files_insertIfNew {t : Files} {h : Handle} :
    (t.insertIfNew n h)[m]? = if n = m ∧ t[m]? = none then some h else t[m]? := by
  rw [Std.ExtTreeMap.getElem?_insertIfNew]
  by_cases hnm : n = m
  · subst hnm
    simp
  · simp [hnm]

theorem named_iff (c : Catalog) (h : Handle) : c.Named h ↔ ∃ n : Name, c.files[n]? = some h := by
  constructor
  · rintro ⟨⟨n, k⟩, hp, rfl⟩
    exact ⟨n, Std.ExtTreeMap.mem_toList_iff_getElem?_eq_some.mp hp⟩
  · rintro ⟨n, hn⟩
    exact ⟨(n, h), Std.ExtTreeMap.mem_toList_iff_getElem?_eq_some.mpr hn, rfl⟩

variable {c d : Catalog} {h k : Handle}

@[simp] theorem eraseName_files (n m : Name) :
    (c.eraseName n).files[m]? = if n = m then none else c.files[m]? :=
  files_erase

@[simp] theorem insertName_files (n m : Name) : (c.insertName h n).files[m]? =
    if n = m ∧ c.files[m]? = none then some h else c.files[m]? :=
  files_insertIfNew

@[simp] theorem eraseName_heap (n : Name) : (c.eraseName n).heap = c.heap := rfl

@[simp] theorem insertName_heap (n : Name) : (c.insertName h n).heap = c.heap := rfl

@[simp] theorem editFile_files (edit : ZoneFile → ZoneFile) :
    (c.editFile h edit).files = c.files := rfl

@[simp] theorem editFile_heap_self (edit : ZoneFile → ZoneFile) :
    (c.editFile h edit).heap h = (c.heap h).map edit := by simp [editFile]

theorem editFile_heap_of_ne (hk : k ≠ h) :
    (c.editFile h edit).heap k = c.heap k := by simp [editFile, hk]

theorem editFile_of_eq (hk : (c.heap h).map edit = c.heap h) :
    c.editFile h edit = c := by simp [editFile, hk]

theorem editFile_id : c.editFile h id = c := editFile_of_eq (by simp)

@[simp] theorem addUsed_files (l : List ZoneExtent) : (c.addUsed l).files = c.files := rfl
@[simp] theorem addUsed_heap (l : List ZoneExtent) : (c.addUsed l).heap = c.heap := rfl
@[simp] theorem addUsed_nextHandle (l : List ZoneExtent) :
    (c.addUsed l).nextHandle = c.nextHandle := rfl
@[simp] theorem subUsed_files (l : List ZoneExtent) : (c.subUsed l).files = c.files := rfl
@[simp] theorem subUsed_heap (l : List ZoneExtent) : (c.subUsed l).heap = c.heap := rfl
@[simp] theorem subUsed_nextHandle (l : List ZoneExtent) :
    (c.subUsed l).nextHandle = c.nextHandle := rfl
@[simp] theorem addUsed_nextFileId (l : List ZoneExtent) :
    (c.addUsed l).nextFileId = c.nextFileId := rfl
@[simp] theorem subUsed_nextFileId (l : List ZoneExtent) :
    (c.subUsed l).nextFileId = c.nextFileId := rfl
@[simp] theorem editFile_nextFileId (edit : ZoneFile → ZoneFile) :
    (c.editFile h edit).nextFileId = c.nextFileId := rfl
@[simp] theorem bumpFileId_files (id : ℕ) : (c.bumpFileId id).files = c.files := rfl
@[simp] theorem bumpFileId_heap (id : ℕ) : (c.bumpFileId id).heap = c.heap := rfl
@[simp] theorem bumpFileId_nextHandle (id : ℕ) :
    (c.bumpFileId id).nextHandle = c.nextHandle := rfl
@[simp] theorem alloc_files (f : ZoneFile) : (c.alloc f).files = c.files := rfl

@[simp] theorem alloc_heap_self (f : ZoneFile) : (c.alloc f).heap c.nextHandle = some f := by
  simp [alloc]

theorem alloc_heap_of_ne (f : ZoneFile) (hk : k ≠ c.nextHandle) :
    (c.alloc f).heap k = c.heap k := by simp [alloc, hk]

@[simp] theorem destroy_files : (c.destroy h).files = c.files := by
  unfold destroy
  split <;> rfl

@[simp] theorem destroy_nextHandle : (c.destroy h).nextHandle = c.nextHandle := by
  unfold destroy
  split <;> rfl

@[simp] theorem destroy_nextFileId : (c.destroy h).nextFileId = c.nextFileId := by
  unfold destroy
  split <;> rfl

theorem destroy_heap : (c.destroy h).heap k = if k = h then none else c.heap k := by
  unfold destroy
  split
  · next hn =>
    by_cases hk : k = h
    · subst hk
      simp [hn]
    · simp [hk]
  · by_cases hk : k = h
    · subst hk
      simp
    · simp [hk]

@[simp] theorem release_files : (c.release h).files = c.files := by
  unfold release
  split <;> simp

@[simp] theorem release_nextHandle : (c.release h).nextHandle = c.nextHandle := by
  unfold release
  split <;> simp

@[simp] theorem release_nextFileId : (c.release h).nextFileId = c.nextFileId := by
  unfold release
  split <;> simp

theorem release_heap_of_ne (hk : k ≠ h) : (c.release h).heap k = c.heap k := by
  unfold release
  split <;> simp [destroy_heap, hk]

theorem release_heap_of_named (hn : c.Named k) : (c.release h).heap k = c.heap k := by
  by_cases hk : k = h
  · subst hk
    simp [release, hn]
  · exact release_heap_of_ne hk

def table (c : Catalog) (n : Name) : Option ZoneFile := c.files[n]?.bind c.heap

theorem table_eq_some :
    c.table n = some f ↔ ∃ h, c.files[n]? = some h ∧ c.heap h = some f := by
  simp [table, bind_eq_some_iff]

/-- Names lead to live objects that list them, objects in use list only names that lead
to them, and ids tell the objects in use apart. -/
structure Sound (c : Catalog) : Prop where
  alive : ∀ {n : Name} {h}, c.files[n]? = some h → ∃ f, c.heap h = some f
  mem : ∀ {n : Name} {h f}, c.files[n]? = some h → c.heap h = some f → n ∈ f.linkfiles
  all : ∀ {n : Name} {h f} {m : Name}, c.files[n]? = some h → c.heap h = some f → m ∈ f.linkfiles →
    c.files[m]? = some h
  nodup : ∀ {n : Name} {h f}, c.files[n]? = some h → c.heap h = some f → f.linkfiles.Nodup
  inj : ∀ {n m : Name} {h k f f'}, c.files[n]? = some h → c.files[m]? = some k →
    c.heap h = some f → c.heap k = some f' → f.fileId = f'.fileId → h = k
  fresh : ∀ {h}, c.nextHandle ≤ h → c.heap h = none

namespace Sound

theorem table_linked (hc : c.Sound) :
    LinkTable.Linked ZoneFile.linkfiles ZoneFile.fileId c.table where
  mem hf := by
    obtain ⟨h, hn, hh⟩ := table_eq_some.mp hf
    exact hc.mem hn hh
  all hf hm := by
    obtain ⟨h, hn, hh⟩ := table_eq_some.mp hf
    exact table_eq_some.mpr ⟨h, hc.all hn hh hm, hh⟩
  inj hf hg hid := by
    obtain ⟨h, hn, hh⟩ := table_eq_some.mp hf
    obtain ⟨k, hm, hk⟩ := table_eq_some.mp hg
    obtain rfl := hc.inj hn hm hh hk hid
    rw [hh] at hk
    exact some.inj hk

theorem table_isSome (hc : c.Sound) (n : Name) : c.table n = none ↔ c.files[n]? = none := by
  constructor
  · intro ht
    cases hn : c.files[n]? with
    | none => rfl
    | some h =>
      obtain ⟨f, hf⟩ := hc.alive hn
      simp [table, hn, hf] at ht
  · intro hn
    simp [table, hn]

theorem same_iff (hc : c.Sound) (hn : c.table n = some f)
    (hm : c.table m = some f') : c.files[n]? = c.files[m]? ↔ f.fileId = f'.fileId := by
  obtain ⟨h, hn, hh⟩ := table_eq_some.mp hn
  obtain ⟨k, hm, hk⟩ := table_eq_some.mp hm
  rw [hn, hm, some.injEq]
  constructor
  · rintro rfl
    rw [hh] at hk
    rw [some.inj hk]
  · exact hc.inj hn hm hh hk

end Sound

theorem sound_empty : empty.Sound where
  alive h := by simp [empty] at h
  mem h := by simp [empty] at h
  all h := by simp [empty] at h
  nodup h := by simp [empty] at h
  inj h := by simp [empty] at h
  fresh _ := rfl

/-- `d` comes from `c` by taking the names `old` away from the object at `h` and making
it `new`, with the names that `new` lists. -/
structure Relink (c : Catalog) (h : Handle) (old : List Name) (new : ZoneFile) (d : Catalog) :
    Prop where
  files : ∀ m : Name, d.files[m]? = if m ∈ new.linkfiles then some h
    else if m ∈ old then none else c.files[m]?
  self : new.linkfiles ≠ [] → d.heap h = some new
  other : ∀ k, k ≠ h → c.Named k → d.heap k = c.heap k
  fresh : ∀ k, d.nextHandle ≤ k → d.heap k = none

/-- What `Relink` needs of the object before the change: the names `old` are all its
names, and the new names are free. -/
structure Relinkable (c : Catalog) (h : Handle) (old : List Name) (new : ZoneFile) : Prop where
  old_iff : ∀ m : Name, m ∈ old ↔ c.files[m]? = some h
  free : ∀ m ∈ new.linkfiles, m ∈ old ∨ c.files[m]? = none
  nodup : new.linkfiles.Nodup
  id_ne : new.linkfiles ≠ [] → ∀ (n : Name) (k f), c.files[n]? = some k → k ≠ h →
    c.heap k = some f → f.fileId ≠ new.fileId

namespace Relink

section

variable (hr : Relink c h old new d)
include hr

theorem files_cases (ho : Relinkable c h old new)
    (hm : d.files[m]? = some k) :
    (k = h ∧ m ∈ new.linkfiles) ∨ (k ≠ h ∧ m ∉ new.linkfiles ∧ c.files[m]? = some k) := by
  rw [hr.files] at hm
  by_cases hn : m ∈ new.linkfiles
  · simp only [hn, if_true, some.injEq] at hm
    exact .inl ⟨hm.symm, hn⟩
  · by_cases hmo : m ∈ old
    · simp [hn, hmo] at hm
    · simp only [hn, hmo] at hm
      refine .inr ⟨?_, hn, hm⟩
      rintro rfl
      exact hmo ((ho.old_iff m).mpr hm)

private theorem heap_self (hm : m ∈ new.linkfiles) :
    d.heap h = some new :=
  hr.self (ne_nil_of_mem hm)

private theorem heap_other (hk : k ≠ h)
    (hm : c.files[m]? = some k) : d.heap k = c.heap k :=
  hr.other k hk ((named_iff _ _).mpr ⟨m, hm⟩)

theorem sound (hc : c.Sound) (ho : Relinkable c h old new) :
    d.Sound where
  alive := by
    intro n k hn
    rcases hr.files_cases ho hn with ⟨rfl, hm⟩ | ⟨hk, -, hm⟩
    · exact ⟨new, hr.heap_self hm⟩
    · rw [hr.heap_other hk hm]
      exact hc.alive hm
  mem := by
    intro n k f hn hf
    rcases hr.files_cases ho hn with ⟨rfl, hm⟩ | ⟨hk, -, hm⟩
    · rw [hr.heap_self hm] at hf
      rwa [← some.inj hf]
    · rw [hr.heap_other hk hm] at hf
      exact hc.mem hm hf
  all := by
    intro n k f m hn hf hmf
    rcases hr.files_cases ho hn with ⟨rfl, hm⟩ | ⟨hk, -, hm⟩
    · rw [hr.heap_self hm] at hf
      rw [← some.inj hf] at hmf
      simp [hr.files, hmf]
    · rw [hr.heap_other hk hm] at hf
      have hmk := hc.all hm hf hmf
      have hmo : m ∉ old := by
        rw [ho.old_iff, hmk]
        simpa using hk
      have hmn : m ∉ new.linkfiles := by
        intro hmn
        rcases ho.free m hmn with hmo' | hnone
        · exact hmo hmo'
        · rw [hmk] at hnone
          cases hnone
      simp [hr.files, hmn, hmo, hmk]
  nodup := by
    intro n k f hn hf
    rcases hr.files_cases ho hn with ⟨rfl, hm⟩ | ⟨hk, -, hm⟩
    · rw [hr.heap_self hm] at hf
      rw [← some.inj hf]
      exact ho.nodup
    · rw [hr.heap_other hk hm] at hf
      exact hc.nodup hm hf
  inj := by
    intro n m k k' f f' hn hm hf hf' hid
    rcases hr.files_cases ho hn with ⟨rfl, hnm⟩ | ⟨hk, -, hnm⟩ <;>
      rcases hr.files_cases ho hm with ⟨rfl, hmm⟩ | ⟨hk', -, hmm⟩
    · rfl
    · rw [hr.heap_self hnm] at hf
      rw [hr.heap_other hk' hmm] at hf'
      rw [← some.inj hf] at hid
      exact absurd hid.symm (ho.id_ne (ne_nil_of_mem hnm) m k' f' hmm hk' hf')
    · rw [hr.heap_self hmm] at hf'
      rw [hr.heap_other hk hnm] at hf
      rw [← some.inj hf'] at hid
      exact absurd hid (ho.id_ne (ne_nil_of_mem hmm) n k f hnm hk hf)
    · rw [hr.heap_other hk hnm] at hf
      rw [hr.heap_other hk' hmm] at hf'
      exact hc.inj hnm hmm hf hf' hid
  fresh := fun hk => hr.fresh _ hk

theorem table_eq (ho : Relinkable c h old new) :
    d.table = LinkTable.swap c.table old new.linkfiles new := by
  funext m
  by_cases hn : m ∈ new.linkfiles
  · rw [LinkTable.swap_of_mem _ _ _ _ hn]
    simp [table, hr.files, hn, hr.heap_self hn]
  · by_cases hmo : m ∈ old
    · rw [LinkTable.swap_of_mem_old _ _ _ _ hn hmo]
      simp [table, hr.files, hn, hmo]
    · rw [LinkTable.swap_of_not_mem _ _ _ _ hn hmo]
      simp only [table, hr.files, hn, hmo]
      cases hm : c.files[m]? with
      | none => rfl
      | some k =>
        have hk : k ≠ h := by
          rintro rfl
          exact hmo ((ho.old_iff m).mpr hm)
        exact hr.heap_other hk hm

theorem release : Relink c h old new (d.release h) where
  files m := by rw [release_files, hr.files]
  self hne := by
    obtain ⟨m, hm⟩ := exists_mem_of_ne_nil _ hne
    rw [release_heap_of_named ((named_iff _ _).mpr ⟨m, by rw [hr.files]; exact if_pos hm⟩)]
    exact hr.self hne
  other k hk hn := by rw [release_heap_of_ne hk, hr.other k hk hn]
  fresh k hk := by
    rw [release_nextHandle] at hk
    have hnone := hr.fresh k hk
    by_cases hkh : k = h
    · subst hkh
      unfold Catalog.release
      split
      · exact hnone
      · rw [destroy_heap, if_pos rfl]
    · rw [release_heap_of_ne hkh, hnone]

end

end Relink

section Changes

section

variable (hc : c.Sound)
include hc

private theorem ne_of_fresh (hf : c.heap h = some f) (hk : c.nextHandle ≤ k) :
    k ≠ h := by
  rintro rfl
  rw [hc.fresh hk] at hf
  cases hf

theorem relink_delete (hn : c.files[n]? = some h) (hf : c.heap h = some f) :
    Relink c h f.linkfiles { f with linkfiles := f.linkfiles.erase n }
      ((c.eraseName n).editFile h fun _ => { f with linkfiles := f.linkfiles.erase n }) where
  files m := by
    have hnd := hc.nodup hn hf
    by_cases hm : n = m
    · subst hm
      simp [hnd.mem_erase_iff, hc.mem hn hf]
    · by_cases hml : m ∈ f.linkfiles
      · simp [hm, Ne.symm hm, hc.all hn hf hml]
      · simp [hm, hnd.mem_erase_iff, hml]
  self _ := by simp [hf]
  other k hk _ := by rw [editFile_heap_of_ne hk, eraseName_heap]
  fresh k hk := by
    rw [editFile_heap_of_ne (ne_of_fresh hc hf hk)]
    exact hc.fresh hk

theorem relink_link (hn : c.files[n]? = some h) (hf : c.heap h = some f)
    (hfree : c.files[link]? = none) :
    Relink c h f.linkfiles (f.addLinkName link)
      ((c.editFile h (·.addLinkName link)).insertName h link) where
  files m := by
    by_cases hm : link = m
    · subst hm
      simp [ZoneFile.addLinkName, hfree]
    · by_cases hml : m ∈ f.linkfiles
      · simp [ZoneFile.addLinkName, hml, hc.all hn hf hml]
      · simp [ZoneFile.addLinkName, hm, hml, Ne.symm hm]
  self _ := by simp [hf]
  other k hk _ := by rw [insertName_heap, editFile_heap_of_ne hk]
  fresh k hk := by
    rw [insertName_heap, editFile_heap_of_ne (ne_of_fresh hc hf hk)]
    exact hc.fresh hk

theorem relink_rename (hn : c.files[n]? = some h) (hf : c.heap h = some f)
    (hfree : c.files[dest]? = none) :
    Relink c h f.linkfiles { f with linkfiles := f.linkfiles.erase n ++ [dest] }
      (((c.editFile h fun _ => { f with linkfiles := f.linkfiles.erase n ++ [dest] }).eraseName
        n).insertName h dest) where
  files m := by
    have hnd := hc.nodup hn hf
    by_cases hd : dest = m
    · subst hd
      simp [hfree]
    · by_cases hm : n = m
      · subst hm
        simp [hnd.mem_erase_iff, hc.mem hn hf, hd, Ne.symm hd]
      · by_cases hml : m ∈ f.linkfiles
        · simp [hm, hml, Ne.symm hm, hc.all hn hf hml]
        · simp [hm, hd, hnd.mem_erase_iff, hml, Ne.symm hd]
  self _ := by simp [hf]
  other k hk _ := by rw [insertName_heap, eraseName_heap, editFile_heap_of_ne hk]
  fresh k hk := by
    rw [insertName_heap, eraseName_heap, editFile_heap_of_ne (ne_of_fresh hc hf hk)]
    exact hc.fresh hk

theorem relink_new (hl : f.linkfiles = [n]) (hfree : c.files[n]? = none) :
    Relink c c.nextHandle [] f ((c.alloc f).insertName c.nextHandle n) where
  files m := by
    by_cases hm : n = m
    · subst hm
      simp [hl, hfree]
    · simp [hl, hm, Ne.symm hm]
  self _ := by simp
  other k hk _ := by rw [insertName_heap, alloc_heap_of_ne _ hk]
  fresh k hk := by
    have hk' : c.nextHandle + 1 ≤ k := hk
    rw [insertName_heap, alloc_heap_of_ne _ (Nat.lt_of_succ_le hk').ne']
    exact hc.fresh (Nat.le_of_succ_le hk')

theorem relink_edit (hn : c.files[n]? = some h) (hf : c.heap h = some f)
    (edit : ZoneFile → ZoneFile) (hlinks : (edit f).linkfiles = f.linkfiles) :
    Relink c h f.linkfiles (edit f) (c.editFile h edit) where
  files m := by
    rw [hlinks]
    by_cases hm : m ∈ f.linkfiles
    · simp [hc.all hn hf hm]
    · simp [hm]
  self _ := by simp [hf]
  other k hk _ := editFile_heap_of_ne hk
  fresh k hk := by
    rw [editFile_heap_of_ne (ne_of_fresh hc hf hk)]
    exact hc.fresh hk

theorem Sound.nextHandle_unused (m : Name) : c.files[m]? ≠ some c.nextHandle := by
  intro hm
  obtain ⟨v, hv⟩ := hc.alive hm
  rw [hc.fresh (le_refl _)] at hv
  cases hv

theorem Sound.relinkable (hn : c.files[n]? = some h)
    (hf : c.heap h = some f) (hfree : ∀ m ∈ new.linkfiles, m ∈ f.linkfiles ∨ c.files[m]? = none)
    (hnd : new.linkfiles.Nodup) (hid : new.fileId = f.fileId) :
    Relinkable c h f.linkfiles new where
  old_iff _ := ⟨hc.all hn hf, fun hm => hc.mem hm hf⟩
  free := hfree
  nodup := hnd
  id_ne _ _ _ _ hm hk hv hvid := hk (hc.inj hm hn hv hf (hvid.trans hid))

end

end Changes

theorem Sound.congr (hc : c.Sound) (hfiles : ∀ m : Name, d.files[m]? = c.files[m]?)
    (hheap : ∀ k, c.Named k → d.heap k = c.heap k)
    (hfresh : ∀ k, d.nextHandle ≤ k → d.heap k = none) : d.Sound ∧ d.table = c.table := by
  have hr : Relink c c.nextHandle [] (ZoneFile.new 0) d :=
    ⟨by simp [ZoneFile.new, hfiles], by simp [ZoneFile.new], fun k _ hk => hheap k hk, hfresh⟩
  have ho : Relinkable c c.nextHandle [] (ZoneFile.new 0) :=
    ⟨by simpa using hc.nextHandle_unused, by simp [ZoneFile.new], by simp [ZoneFile.new], by simp [ZoneFile.new]⟩
  refine ⟨hr.sound hc ho, ?_⟩
  rw [hr.table_eq ho]
  funext m
  simp [LinkTable.swap, ZoneFile.new]

end Catalog

namespace State

variable {e : Env} {s : State} {h : Handle}

theorem syncFileMetadata_eq (hh : s.cat.heap h = some f) (hl : f.isDeleted = false)
    (replace : Bool) :
    s.syncFileMetadata e h replace =
      let file := if replace then f else { f with mTime := e.clock s.clockReads }
      let r := (if replace then s else s.touch e h).persistRecord e
        (.ofFile replace file.encodeUpdateTo)
      (r.1, if r.1.ok then r.2.editFile h ZoneFile.metadataSynced else r.2) := by
  unfold syncFileMetadata
  rw [hh]
  simp only
  rw [if_neg (by simp [hl])]

def unlinked (s : State) (h : Handle) (f : ZoneFile) (n : Name) : State :=
  (s.onCat (·.eraseName n)).editFile h fun _ => { f with linkfiles := f.linkfiles.erase n }

def linked (s : State) (h : Handle) (link : Name) : State :=
  (s.editFile h (·.addLinkName link)).onCat (·.insertName h link)

def renamed (s : State) (h : Handle) (f : ZoneFile) (source dest : Name) : State :=
  ((s.editFile h fun _ => { f with linkfiles := f.linkfiles.erase source ++ [dest] }).onCat
    (·.eraseName source)).onCat (·.insertName h dest)

theorem deleteFileNoLock_eq (hn : s.getFile n = some h) (hh : s.cat.heap h = some f)
    (hmem : n ∈ f.linkfiles) : s.deleteFileNoLock e n =
      let r := (s.unlinked h f n).persistRecord e (.deletion f.fileId n)
      if r.1.ok then (r.1, r.2.editFile h ZoneFile.markDeleted)
      else (r.1, (r.2.onCat (·.insertName h n)).editFile h (·.addLinkName n)) := by
  have hcall : (s.onCat (·.eraseName n)).callFile h (·.removeLinkName n) =
      (.OK, s.unlinked h f n) := by
    simp [callFile, onCat, hh, ZoneFile.removeLinkName, hmem, unlinked]
  have hheap : (s.unlinked h f n).cat.heap h =
      some { f with linkfiles := f.linkfiles.erase n } := by
    simp [unlinked, editFile, onCat, hh]
  simp only [deleteFileNoLock, hn, hcall]
  simp only [hheap]
  rfl

theorem renameTo_eq (dest : Name) (hh : s.cat.heap h = some f)
    (hmem : source ∈ f.linkfiles) : s.renameTo e h source dest =
      let r := (s.renamed h f source dest).syncFileMetadata e h false
      if r.1.ok then (r.1, r.2)
      else
        let q := (r.2.onCat (·.eraseName dest)).callFile h (·.renameLink dest source)
        if !q.1.ok then q else (q.1, q.2.onCat (·.insertName h source)) := by
  have hcall : s.callFile h (·.renameLink source dest) =
      (.OK, s.editFile h fun _ => { f with linkfiles := f.linkfiles.erase source ++ [dest] }) := by
    simp [callFile, hh, ZoneFile.renameLink, hmem]
  simp only [renameTo, hcall]
  rfl

theorem linkFile_eq (hlink : s.getFile link = none)
    (hfile : s.getFile file = some h) : s.linkFile e file link =
      let r := (s.linked h link).syncFileMetadata e h false
      if r.1.ok then (r.1, r.2)
      else
        let q := r.2.callFile h (·.removeLinkName link)
        if !q.1.ok then q else (q.1, q.2.onCat (·.eraseName link)) := by
  simp only [linkFile, hlink, hfile]
  rfl

theorem renameTo_of_not_mem (dest : Name) (hh : s.cat.heap h = some f)
    (hmem : source ∉ f.linkfiles) : s.renameTo e h source dest =
      (.IOError "RenameLink: Failed to find the linked file", s) := by
  have hsame : s.editFile h (fun _ => f) = s := by
    rw [editFile, onCat, Catalog.editFile_of_eq (by simp [hh])]
  have hcall : s.callFile h (·.renameLink source dest) =
      (.IOError "RenameLink: Failed to find the linked file", s) := by
    simp [callFile, hh, ZoneFile.renameLink, hmem, hsame]
  simp only [renameTo, hcall, Status.ok_IOError, Bool.not_false, if_true]

end State

end ZenFs
