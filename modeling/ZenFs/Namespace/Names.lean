import ZenFs.Library.Moves
import ZenFs.Namespace.Links

/-!
The namespace of a state: `files_`, and what the operations on names see of each file.

Metadata writes and changes of a file's data leave the namespace alone, whatever their
outcome. So deleting, linking and renaming are read here as changes of the namespace,
for every outcome of the metadata writes they perform.
-/

namespace ZenFs

open Library List Function Option

variable {dest file link m source : Name} {l : List Name}
variable {T : Name → Option Handle}

/-- What the operations on names see of a file object. -/
@[ext] structure Entry where
  fileId : ℕ
  linkfiles : List Name
  isDeleted : Bool

variable {E F : Entry}

def ZoneFile.entry (f : ZoneFile) : Entry := ⟨f.fileId, f.linkfiles, f.isDeleted⟩

def Entry.markDeleted (E : Entry) : Entry :=
  if E.linkfiles.length > 0 then E else { E with isDeleted := true }

@[simp] theorem Entry.markDeleted_fileId : E.markDeleted.fileId = E.fileId := by
  unfold markDeleted
  split <;> rfl

@[simp] theorem Entry.markDeleted_linkfiles (E : Entry) :
    E.markDeleted.linkfiles = E.linkfiles := by
  unfold markDeleted
  split <;> rfl

theorem ZoneFile.entry_markDeleted (f : ZoneFile) : f.markDeleted.entry = f.entry.markDeleted := by
  unfold ZoneFile.markDeleted Entry.markDeleted
  split <;> rename_i h <;> simp [ZoneFile.entry, h]

@[ext] structure Names where
  files : Name → Option Handle
  entry : Handle → Option Entry

variable {L M : Names}

def State.names (s : State) : Names := ⟨s.getFile, fun h => (s.cat.heap h).map ZoneFile.entry⟩

section Relisted

variable {x y : Name}

theorem mem_relisted (hl : l.Nodup) :
    m ∈ l.erase x ++ [y] ↔ (m ≠ x ∧ m ∈ l) ∨ m = y := by
  simp [hl.mem_erase_iff]

theorem nodup_relisted (hl : l.Nodup) (hy : y ∉ l.erase x) : (l.erase x ++ [y]).Nodup :=
  nodup_append.mpr ⟨hl.erase x, by simp, by
    rintro m hm _ hm' rfl
    exact hy (mem_singleton.mp hm' ▸ hm)⟩

end Relisted

variable {n : Name} {k : Handle}

namespace Names

variable {N : Names} {h : Handle}

theorem update_none_eq_some :
    update T n none m = some k ↔ m ≠ n ∧ T m = some k := by
  by_cases hm : m = n <;> simp [hm]

theorem update_none_of_ne (hn : T n = some h)
    (hk : k ≠ h) : update T n none m = some k ↔ T m = some k := by
  rw [update_none_eq_some]
  refine ⟨And.right, fun hm => ⟨?_, hm⟩⟩
  rintro rfl
  rw [hn] at hm
  exact hk (some.inj hm).symm

theorem update_some_eq_some :
    update T n (some h) m = some k ↔ (m = n ∧ k = h) ∨ (m ≠ n ∧ T m = some k) := by
  by_cases hm : m = n <;> simp [hm, eq_comm]

def edit (N : Names) (h : Handle) (g : Entry → Entry) : Names :=
  ⟨N.files, update N.entry h ((N.entry h).map g)⟩

def withFiles (N : Names) (T : Name → Option Handle) : Names := ⟨T, N.entry⟩

def put (N : Names) (h : Handle) (E : Entry) (T : Name → Option Handle) : Names :=
  ⟨T, update N.entry h (some E)⟩

theorem edit_eq_put (hE : N.entry h = some E) (g : Entry → Entry) :
    N.edit h g = N.put h (g E) N.files := by
  simp [edit, put, hE]

@[simp] theorem edit_id (N : Names) (h : Handle) : N.edit h id = N := by
  simp [edit]

@[simp] theorem put_edit (N : Names) (h : Handle) (E : Entry) (T : Name → Option Handle)
    (g : Entry → Entry) : (N.put h E T).edit h g = N.put h (g E) T := by
  simp [edit, put]

@[simp] theorem put_withFiles (N : Names) (h : Handle) (E : Entry) (T T' : Name → Option Handle) :
    (N.put h E T).withFiles T' = N.put h E T' := rfl

@[simp] theorem put_files (N : Names) (h : Handle) (E : Entry) (T : Name → Option Handle) :
    (N.put h E T).files = T := rfl

@[simp] theorem put_entry_self (N : Names) (h : Handle) (E : Entry) (T : Name → Option Handle) :
    (N.put h E T).entry h = some E := by
  simp [put]

theorem put_entry_of_ne (N : Names) (hk : k ≠ h) (E : Entry)
    (T : Name → Option Handle) : (N.put h E T).entry k = N.entry k := by
  simp [put, hk]

theorem put_self (hE : N.entry h = some E) : N.put h E N.files = N := by
  rw [put, ← hE, update_eq_self]

theorem withFiles_edit (hE : N.entry h = some E) (g : Entry → Entry) :
    (N.withFiles T).edit h g = N.put h (g E) T :=
  edit_eq_put (N := N.withFiles T) hE g

/-- Every name leads to a live file, and the link names of a file object are the names
that lead to it. -/
structure Tidy (N : Names) : Prop where
  alive : ∀ {n h}, N.files n = some h → ∃ E, N.entry h = some E ∧ E.isDeleted = false
  links : ∀ {h E}, N.entry h = some E → ∀ n, n ∈ E.linkfiles ↔ N.files n = some h
  nodup : ∀ {h E}, N.entry h = some E → E.linkfiles.Nodup
  ids : ∀ {h k E F}, N.entry h = some E → N.entry k = some F → E.fileId = F.fileId → h = k

theorem put_entry_cases
    (hF : (N.put h E T).entry k = some F) : (k = h ∧ F = E) ∨ (k ≠ h ∧ N.entry k = some F) := by
  by_cases hk : k = h
  · subst hk
    rw [put_entry_self] at hF
    exact .inl ⟨rfl, (some.inj hF).symm⟩
  · rw [put_entry_of_ne N hk] at hF
    exact .inr ⟨hk, hF⟩

theorem Tidy.put (hN : N.Tidy)
    (hids : ∀ {k F}, N.entry k = some F → F.fileId = E.fileId → k = h) (hnd : E.linkfiles.Nodup)
    (hlinks : ∀ n, n ∈ E.linkfiles ↔ T n = some h)
    (hother : ∀ n k, k ≠ h → (T n = some k ↔ N.files n = some k))
    (hdel : E.linkfiles ≠ [] → E.isDeleted = false) : Tidy (N.put h E T) := by
  refine ⟨?_, ?_, ?_, ?_⟩
  · intro n k hn
    by_cases hk : k = h
    · subst hk
      exact ⟨E, put_entry_self .., hdel (ne_nil_of_mem ((hlinks n).mpr hn))⟩
    · rw [put_entry_of_ne N hk]
      exact hN.alive ((hother n k hk).mp hn)
  · intro k F hF n
    rw [put_files]
    rcases put_entry_cases hF with ⟨rfl, rfl⟩ | ⟨hk, hF⟩
    · exact hlinks n
    · rw [hother n k hk]
      exact hN.links hF n
  · intro k F hF
    rcases put_entry_cases hF with ⟨rfl, rfl⟩ | ⟨-, hF⟩
    · exact hnd
    · exact hN.nodup hF
  · intro k l F G hF hG hFG
    rcases put_entry_cases hF with ⟨rfl, rfl⟩ | ⟨-, hF'⟩
    · rcases put_entry_cases hG with ⟨rfl, rfl⟩ | ⟨-, hG'⟩
      · rfl
      · exact (hids hG' hFG.symm).symm
    · rcases put_entry_cases hG with ⟨rfl, rfl⟩ | ⟨-, hG'⟩
      · exact hids hF' hFG
      · exact hN.ids hF' hG' hFG

/-- The namespace `N` follows `M` when files were neither made nor given to unnamed
objects, and only files that lost their names may be gone. -/
structure Follows (M N : Names) : Prop where
  tidy : N.Tidy
  ids : ∀ {k F}, N.entry k = some F → ∃ E, M.entry k = some E ∧ E.fileId = F.fileId
  kept : ∀ {k}, (∀ n, M.files n ≠ some k) →
    (N.entry k).map Entry.fileId = (M.entry k).map Entry.fileId
  named : ∀ {n k}, N.files n = some k → ∃ m, M.files m = some k

theorem Tidy.follows_self (hN : N.Tidy) : Follows N N :=
  ⟨hN, fun hF => ⟨_, hF, rfl⟩, fun _ => rfl, fun hn => ⟨_, hn⟩⟩

theorem Follows.trans (h₁ : Follows L M) (h₂ : Follows M N) : Follows L N where
  tidy := h₂.tidy
  ids hF := by
    obtain ⟨E, hE, hEF⟩ := h₂.ids hF
    obtain ⟨D, hD, hDE⟩ := h₁.ids hE
    exact ⟨D, hD, hDE.trans hEF⟩
  kept hk := by
    refine (h₂.kept fun n hn => ?_).trans (h₁.kept hk)
    obtain ⟨m, hm⟩ := h₁.named hn
    exact hk m hm
  named hn := by
    obtain ⟨m, hm⟩ := h₂.named hn
    exact h₁.named hm

theorem Tidy.follows_put (hN : N.Tidy) (hn : N.files n = some h)
    (hE : N.entry h = some E) {E' : Entry}
    (hid : E'.fileId = E.fileId) (hnd : E'.linkfiles.Nodup)
    (hlinks : ∀ n, n ∈ E'.linkfiles ↔ T n = some h)
    (hother : ∀ n k, k ≠ h → (T n = some k ↔ N.files n = some k))
    (hdel : E'.linkfiles ≠ [] → E'.isDeleted = false) : Follows N (N.put h E' T) where
  tidy := hN.put (fun hF hFE => hN.ids hF hE (hFE.trans hid)) hnd hlinks hother hdel
  ids := by
    intro k F hF
    rcases put_entry_cases hF with ⟨rfl, rfl⟩ | ⟨-, hF⟩
    · exact ⟨E, hE, hid.symm⟩
    · exact ⟨F, hF, rfl⟩
  kept := by
    intro k hk
    by_cases hkh : k = h
    · exact absurd hn (hkh ▸ hk n)
    · rw [put_entry_of_ne N hkh]
  named := by
    intro m k hm
    by_cases hk : k = h
    · exact ⟨n, hk ▸ hn⟩
    · exact ⟨m, (hother m k hk).mp hm⟩

theorem Tidy.follows_relisted (hN : N.Tidy) (hn : N.files n = some h)
    (hE : N.entry h = some E) (hl : E.isDeleted = false) :
    Follows N (N.put h ⟨E.fileId, E.linkfiles.erase n ++ [n], E.isDeleted⟩ N.files) := by
  have hnd := hN.nodup hE
  refine hN.follows_put hn hE rfl (nodup_relisted hnd (by simp [hnd.mem_erase_iff])) ?_
    (fun _ _ _ => Iff.rfl) fun _ => hl
  intro m
  rw [← hN.links hE]
  by_cases hm : m = n
  · simp [hm, (hN.links hE n).mpr hn]
  · simp [hm]

def Same (M N : Names) : Prop :=
  N.files = M.files ∧ ∀ k, Option.Rel
    (fun E F => E.fileId = F.fileId ∧ ∀ n, n ∈ F.linkfiles ↔ n ∈ E.linkfiles) (M.entry k) (N.entry k)

theorem Follows.same (hM : M.Tidy) (h : Follows M N) (hfiles : N.files = M.files) : Same M N := by
  refine ⟨hfiles, fun k => ?_⟩
  cases hN : N.entry k with
  | some F =>
    obtain ⟨E, hE, hid⟩ := h.ids hN
    rw [hE]
    exact .some ⟨hid, fun n => by rw [h.tidy.links hN, hM.links hE, hfiles]⟩
  | none =>
    have hun : ∀ n, M.files n ≠ some k := by
      intro n hn
      obtain ⟨F, hF, -⟩ := h.tidy.alive (hfiles ▸ hn)
      rw [hN] at hF
      cases hF
    have := h.kept hun
    rw [hN] at this
    cases hM : M.entry k with
    | none => exact .none
    | some E =>
      rw [hM] at this
      cases this

end Names

namespace State

variable {e : Env} {s : State} {h : Handle} {f : ZoneFile}

theorem names_congr {t : State} (hcat : t.cat = s.cat) : t.names = s.names := by
  show (⟨fun n => t.cat.files[n]?, fun h => (t.cat.heap h).map ZoneFile.entry⟩ : Names) = _
  rw [hcat]
  rfl

theorem exists_of_entry (hE : s.names.entry h = some E) :
    ∃ f, s.cat.heap h = some f ∧ f.entry = E :=
  map_eq_some_iff.mp hE

theorem editFile_names (s : State) (h : Handle) (edit : ZoneFile → ZoneFile) (edit' : Entry → Entry)
    (hedit : ∀ f, (edit f).entry = edit' f.entry) :
    (s.editFile h edit).names = s.names.edit h edit' := by
  refine Names.ext rfl (funext fun k => ?_)
  by_cases hk : k = h
  · subst hk
    simp only [names, Names.edit, editFile, onCat, Catalog.editFile_heap_self,
      update_self, Option.map_map]
    congr 1
    exact funext hedit
  · simp [names, Names.edit, editFile, onCat, Catalog.editFile_heap_of_ne hk, hk]

theorem editFile_names_same (s : State) (h : Handle) (edit : ZoneFile → ZoneFile)
    (hedit : ∀ f, (edit f).entry = f.entry) : (s.editFile h edit).names = s.names := by
  rw [editFile_names s h edit id hedit, Names.edit_id]

theorem eraseName_names (s : State) (n : Name) : (s.onCat (·.eraseName n)).names =
    s.names.withFiles (update s.names.files n none) := by
  refine Names.ext (funext fun m => ?_) rfl
  show (s.cat.eraseName n).files[m]? = _
  by_cases hm : m = n
  · subst hm
    simp [Names.withFiles]
  · simp [hm, Ne.symm hm, Names.withFiles, names, getFile]

theorem insertName_names (hfree : s.names.files n = none) (h : Handle) :
    (s.onCat (·.insertName h n)).names =
      s.names.withFiles (update s.names.files n (some h)) := by
  refine Names.ext (funext fun m => ?_) rfl
  show (s.cat.insertName h n).files[m]? = _
  by_cases hm : m = n
  · subst hm
    simp [show s.cat.files[m]? = none from hfree, Names.withFiles]
  · simp [hm, Ne.symm hm, Names.withFiles, names, getFile]

theorem rollMetaZoneLocked_names : s.rollMetaZoneLocked.names = s.names := by
  refine Names.ext rfl (funext fun k => ?_)
  show (s.cat.metadataSynced.heap k).map _ = (s.cat.heap k).map _
  unfold Catalog.metadataSynced
  dsimp only
  split
  · rw [Option.map_map]
    rfl
  · rfl

theorem persistRecord_names (e : Env) (s : State) (r : Record) :
    (s.persistRecord e r).2.names = s.names := by
  unfold persistRecord
  cases e.persist s.persists with
  | appended | failed | rollFailed => rfl
  | rolled => exact rollMetaZoneLocked_names

theorem persistRecord_persists (e : Env) {r : Record} :
    (s.persistRecord e r).2.persists = s.persists + 1 := by
  unfold persistRecord
  cases e.persist s.persists <;> rfl

theorem persistRecord_ok (e : Env) {r : Record} :
    (s.persistRecord e r).1.ok = (e.persist s.persists).ok := by
  unfold persistRecord
  cases e.persist s.persists <;> rfl

theorem syncFileMetadata_names (hE : s.names.entry h = some E)
    (hl : E.isDeleted = false) (replace : Bool) :
    (s.syncFileMetadata e h replace).1.ok = (e.persist s.persists).ok ∧
      (s.syncFileMetadata e h replace).2.names = s.names ∧
      (s.syncFileMetadata e h replace).2.persists = s.persists + 1 := by
  obtain ⟨f, hf, rfl⟩ := exists_of_entry hE
  have hl' : f.isDeleted = false := hl
  obtain ⟨t, r, hnames, hpersists, heq⟩ : ∃ (t : State) (r : Record), t.names = s.names ∧
      t.persists = s.persists ∧ s.syncFileMetadata e h replace =
        ((t.persistRecord e r).1, if (t.persistRecord e r).1.ok then
          (t.persistRecord e r).2.editFile h ZoneFile.metadataSynced
          else (t.persistRecord e r).2) := by
    cases replace
    · exact ⟨s.touch e h, _, editFile_names_same s h _ fun _ => rfl, rfl,
        syncFileMetadata_eq hf hl' false⟩
    · exact ⟨s, _, rfl, rfl, syncFileMetadata_eq hf hl' true⟩
  rw [heq]
  refine ⟨by rw [persistRecord_ok, hpersists], ?_, ?_⟩
  · dsimp only
    split
    · rw [editFile_names_same _ h ZoneFile.metadataSynced fun _ => rfl,
        persistRecord_names, hnames]
    · rw [persistRecord_names, hnames]
  · dsimp only
    split
    · show (t.persistRecord e r).2.persists = _
      rw [persistRecord_persists, hpersists]
    · rw [persistRecord_persists, hpersists]

theorem release_names (s : State) (h : Handle) :
    (s.release h).names.files = s.names.files ∧
      ∀ k, (s.release h).names.entry k = s.names.entry k ∨
        (k = h ∧ (∀ n, s.names.files n ≠ some h) ∧ (s.release h).names.entry k = none) := by
  constructor
  · funext n
    unfold release
    split
    · rfl
    · exact congrArg (·[n]?) Catalog.release_files
  · intro k
    unfold release
    split
    · exact .inl rfl
    · show ((s.cat.release h).heap k).map ZoneFile.entry = (s.cat.heap k).map ZoneFile.entry ∨ _
      by_cases hk : k = h
      · subst hk
        by_cases hn : s.cat.Named k
        · exact .inl (by rw [Catalog.release_heap_of_named hn])
        · refine .inr ⟨rfl, fun n hn' => hn ((Catalog.named_iff _ _).mpr ⟨n, hn'⟩), ?_⟩
          show ((s.cat.release k).heap k).map ZoneFile.entry = none
          simp [Catalog.release, hn, Catalog.destroy_heap]
      · exact .inl (by rw [Catalog.release_heap_of_ne hk])

theorem release_entry (hF : (s.release h).names.entry k = some F) :
    s.names.entry k = some F := by
  rcases (release_names s h).2 k with heq | ⟨-, -, hnone⟩
  · rw [← heq, hF]
  · rw [hnone] at hF
    cases hF

theorem release_tidy (ht : s.names.Tidy) : (s.release h).names.Tidy := by
  obtain ⟨hfiles, hentry⟩ := release_names s h
  refine ⟨?_, ?_, fun hF => ht.nodup (release_entry hF),
    fun hF hG => ht.ids (release_entry hF) (release_entry hG)⟩
  · intro n k hn
    rw [hfiles] at hn
    rcases hentry k with heq | ⟨rfl, hun, -⟩
    · rw [heq]
      exact ht.alive hn
    · exact absurd hn (hun n)
  · intro k F hF n
    rw [hfiles]
    exact ht.links (release_entry hF) n

theorem release_follows (hM : Names.Follows M s.names) (hm : M.files m = some h) :
    Names.Follows M (s.release h).names ∧ (s.release h).names.files = s.names.files := by
  obtain ⟨hfiles, hentry⟩ := release_names s h
  refine ⟨⟨release_tidy hM.tidy, fun hF => hM.ids (release_entry hF), ?_, ?_⟩, hfiles⟩
  · intro k hk
    rcases hentry k with heq | ⟨rfl, -, -⟩
    · rw [heq]
      exact hM.kept hk
    · exact absurd hm (hk m)
  · intro n k hn
    rw [hfiles] at hn
    exact hM.named hn

section Operations

variable (ht : s.names.Tidy) (hf : s.cat.heap h = some f)

include hf

theorem entry_of_heap : s.names.entry h = some f.entry := by simp [names, hf]

theorem unlinked_names (n : Name) : (s.unlinked h f n).names =
    s.names.put h ⟨f.fileId, f.linkfiles.erase n, f.isDeleted⟩
      (update s.names.files n none) := by
  rw [unlinked, editFile_names _ h _ (fun _ => ⟨f.fileId, f.linkfiles.erase n, f.isDeleted⟩)
    fun _ => rfl, eraseName_names, Names.withFiles_edit (entry_of_heap hf)]

theorem linked_names (hlink : s.names.files link = none) : (s.linked h link).names =
    s.names.put h ⟨f.fileId, f.linkfiles ++ [link], f.isDeleted⟩
      (update s.names.files link (some h)) := by
  have hedit : (s.editFile h (·.addLinkName link)).names =
      s.names.put h ⟨f.fileId, f.linkfiles ++ [link], f.isDeleted⟩ s.names.files := by
    rw [editFile_names _ h _ (fun E => ⟨E.fileId, E.linkfiles ++ [link], E.isDeleted⟩)
      fun _ => rfl, Names.edit_eq_put (entry_of_heap hf)]
    rfl
  rw [linked, insertName_names (by rw [hedit]; exact hlink), hedit, Names.put_files,
    Names.put_withFiles]

theorem renamed_names (source : Name) (hdest : s.names.files dest = none) :
    (s.renamed h f source dest).names =
      s.names.put h ⟨f.fileId, f.linkfiles.erase source ++ [dest], f.isDeleted⟩
        (Moves.moved s.names.files source dest h) := by
  have herase : ((s.editFile h fun _ =>
      { f with linkfiles := f.linkfiles.erase source ++ [dest] }).onCat (·.eraseName source)).names =
        s.names.put h ⟨f.fileId, f.linkfiles.erase source ++ [dest], f.isDeleted⟩
          (update s.names.files source none) := by
    rw [eraseName_names, editFile_names _ h _
      (fun _ => ⟨f.fileId, f.linkfiles.erase source ++ [dest], f.isDeleted⟩) fun _ => rfl,
      Names.edit_eq_put (entry_of_heap hf), Names.put_files, Names.put_withFiles]
  have hfree : update s.names.files source none dest = none := by
    by_cases hd : dest = source <;> simp [hd, hdest]
  rw [renamed, insertName_names (by rw [herase]; exact hfree), herase]
  rfl

include ht

theorem mem_linkfiles (n : Name) : n ∈ f.linkfiles ↔ s.names.files n = some h :=
  ht.links (entry_of_heap hf) n

theorem nodup_linkfiles : f.linkfiles.Nodup := ht.nodup (entry_of_heap hf)

theorem unlinked_follows (hl : f.isDeleted = false) (hn : s.names.files n = some h) :
    Names.Follows s.names (s.unlinked h f n).names := by
  have hnd := nodup_linkfiles ht hf
  rw [unlinked_names hf]
  refine ht.follows_put hn (entry_of_heap hf) rfl (hnd.erase n) (fun m => ?_)
    (fun m k hk => Names.update_none_of_ne hn hk) fun _ => hl
  rw [hnd.mem_erase_iff, Names.update_none_eq_some, mem_linkfiles ht hf]

theorem linked_follows (hl : f.isDeleted = false)
    (hfile : s.names.files file = some h) (hlink : s.names.files link = none) :
    Names.Follows s.names (s.linked h link).names := by
  have hmem := mem_linkfiles ht hf
  rw [linked_names hf hlink]
  refine ht.follows_put hfile (entry_of_heap hf) rfl ?_ ?_ ?_ fun _ => hl
  · refine nodup_append.mpr ⟨nodup_linkfiles ht hf, by simp, ?_⟩
    rintro m hm _ hm' rfl
    rw [hmem, mem_singleton.mp hm', hlink] at hm
    cases hm
  · intro m
    rw [Names.update_some_eq_some, ← hmem]
    by_cases hm : m = link <;> simp [hm]
  · intro m k hk
    rw [Names.update_some_eq_some]
    by_cases hm : m = link <;> simp [hm, hk, hlink]

theorem renamed_follows (hl : f.isDeleted = false)
    (hsource : s.names.files source = some h) (hdest : s.names.files dest = none) :
    Names.Follows s.names (s.renamed h f source dest).names := by
  have hmem := mem_linkfiles ht hf
  have hnd := nodup_linkfiles ht hf
  rw [renamed_names hf source hdest]
  refine ht.follows_put hsource (entry_of_heap hf) rfl (nodup_relisted hnd fun hd => ?_) ?_ ?_
    fun _ => hl
  · have := (hmem dest).mp (mem_of_mem_erase hd)
    rw [hdest] at this
    cases this
  · intro m
    rw [mem_relisted hnd, hmem, Moves.moved_eq_some hdest]
    tauto
  · intro m k hk
    rw [Moves.moved_eq_some hdest, ← Names.update_none_of_ne hsource hk,
      Names.update_none_eq_some]
    simp [hk]

end Operations

section Outcomes

variable (ht : s.names.Tidy)

include ht

theorem exists_file (hn : s.names.files n = some h) :
    ∃ f, s.cat.heap h = some f ∧ f.isDeleted = false ∧ n ∈ f.linkfiles := by
  obtain ⟨E, hE, hl⟩ := ht.alive hn
  obtain ⟨f, hf, rfl⟩ := exists_of_entry hE
  exact ⟨f, hf, hl, (ht.links hE n).mpr hn⟩

theorem deleteFileNoLock_names (hn : s.names.files n = some h) :
    (s.deleteFileNoLock e n).1.ok = (e.persist s.persists).ok ∧
      (s.deleteFileNoLock e n).2.persists = s.persists + 1 ∧
      Names.Follows s.names (s.deleteFileNoLock e n).2.names ∧
      (∃ E, (s.deleteFileNoLock e n).2.names.entry h = some E) ∧
      (s.deleteFileNoLock e n).2.names.files =
        if (e.persist s.persists).ok then update s.names.files n none
        else s.names.files := by
  obtain ⟨f, hf, hl, hmem⟩ := exists_file ht hn
  let r := (s.unlinked h f n).persistRecord e (.deletion f.fileId n)
  have heq : s.deleteFileNoLock e n =
      if r.1.ok then (r.1, r.2.editFile h ZoneFile.markDeleted)
      else (r.1, (r.2.onCat (·.insertName h n)).editFile h (·.addLinkName n)) :=
    deleteFileNoLock_eq hn hf hmem
  have hok : r.1.ok = (e.persist s.persists).ok := persistRecord_ok e
  have hnames : r.2.names = s.names.put h ⟨f.fileId, f.linkfiles.erase n, f.isDeleted⟩
      (update s.names.files n none) := by
    rw [persistRecord_names, unlinked_names hf]
  rw [heq]
  cases ho : (e.persist s.persists).ok with
  | true =>
    have hfinal : (r.2.editFile h ZoneFile.markDeleted).names =
        s.names.put h (Entry.markDeleted ⟨f.fileId, f.linkfiles.erase n, f.isDeleted⟩)
          (update s.names.files n none) := by
      rw [editFile_names _ h _ Entry.markDeleted ZoneFile.entry_markDeleted, hnames, Names.put_edit]
    have hnd := nodup_linkfiles ht hf
    simp only [hok, ho, if_true]
    refine ⟨trivial, persistRecord_persists e, ?_, ⟨_, by rw [hfinal, Names.put_entry_self]⟩,
      congrArg Names.files hfinal⟩
    rw [hfinal]
    refine ht.follows_put hn (entry_of_heap hf) (Entry.markDeleted_fileId) ?_ ?_
      (fun m k hk => Names.update_none_of_ne hn hk) ?_
    · rw [Entry.markDeleted_linkfiles]
      exact hnd.erase n
    · intro m
      rw [Entry.markDeleted_linkfiles, hnd.mem_erase_iff, Names.update_none_eq_some,
        mem_linkfiles ht hf]
    · intro hne
      rw [Entry.markDeleted_linkfiles] at hne
      rw [Entry.markDeleted, if_pos (length_pos_iff.mpr hne)]
      exact hl
  | false =>
    have hfree : r.2.names.files n = none := by
      rw [hnames]
      simp
    have hback : update (update s.names.files n none) n (some h) =
        s.names.files := by
      rw [update_idem, ← hn, update_eq_self]
    have hfinal : ((r.2.onCat (·.insertName h n)).editFile h (·.addLinkName n)).names =
        s.names.put h ⟨f.fileId, f.linkfiles.erase n ++ [n], f.isDeleted⟩ s.names.files := by
      rw [editFile_names _ h _ (fun E => ⟨E.fileId, E.linkfiles ++ [n], E.isDeleted⟩) fun _ => rfl,
        insertName_names hfree, hnames, Names.put_files, Names.put_withFiles, Names.put_edit, hback]
    simp only [hok, ho, Bool.false_eq_true, if_false]
    refine ⟨trivial, persistRecord_persists e, ?_, ⟨_, by rw [hfinal, Names.put_entry_self]⟩,
      by rw [hfinal, Names.put_files]⟩
    rw [hfinal]
    exact ht.follows_relisted hn (entry_of_heap hf) hl

omit ht in
/-- A method that changes the names of a file and nothing else. -/
theorem callFile_names {N : Names} {m : ZoneFile → Status × ZoneFile}
    (hnames : s.names = N.put h E T)
    (hm : ∀ f, f.linkfiles = E.linkfiles → m f = (.OK, { f with linkfiles := l })) :
    ∃ u, s.callFile h m = (.OK, u) ∧ u.persists = s.persists ∧
      u.names = N.put h ⟨E.fileId, l, E.isDeleted⟩ T := by
  obtain ⟨f, hf, rfl⟩ := exists_of_entry (by rw [hnames, Names.put_entry_self])
  refine ⟨s.editFile h fun _ => { f with linkfiles := l }, ?_, rfl, ?_⟩
  · simp [callFile, hf, hm f rfl]
  · rw [editFile_names _ h _ (fun _ => ⟨f.fileId, l, f.isDeleted⟩) fun _ => rfl, hnames,
      Names.put_edit]
    rfl

/-- `RenameFileNoLock` to a free name: the file moves if the record is written and is moved
back otherwise. The status is OK in both cases. -/
theorem renameTo_names (hsource : s.names.files source = some h)
    (hdest : s.names.files dest = none) :
    (s.renameTo e h source dest).1.ok = true ∧
      (s.renameTo e h source dest).2.persists = s.persists + 1 ∧
      Names.Follows s.names (s.renameTo e h source dest).2.names ∧
      (s.renameTo e h source dest).2.names.files =
        if (e.persist s.persists).ok then Moves.moved s.names.files source dest h
        else s.names.files := by
  obtain ⟨f, hf, hl, hmem⟩ := exists_file ht hsource
  have hfresh : dest ∉ f.linkfiles.erase source := by
    intro hd
    have := (mem_linkfiles ht hf dest).mp (mem_of_mem_erase hd)
    rw [hdest] at this
    cases this
  let E' : Entry := ⟨f.fileId, f.linkfiles.erase source ++ [dest], f.isDeleted⟩
  have htnames : (s.renamed h f source dest).names =
      s.names.put h E' (Moves.moved s.names.files source dest h) := renamed_names hf source hdest
  let r := (s.renamed h f source dest).syncFileMetadata e h false
  obtain ⟨hok, hnames, hpersists⟩ : r.1.ok = (e.persist s.persists).ok ∧
      r.2.names = (s.renamed h f source dest).names ∧ r.2.persists = s.persists + 1 :=
    syncFileMetadata_names (by rw [htnames, Names.put_entry_self]) hl false
  have heq : s.renameTo e h source dest = if r.1.ok then (r.1, r.2) else
      let q := (r.2.onCat (·.eraseName dest)).callFile h (·.renameLink dest source)
      if !q.1.ok then q else (q.1, q.2.onCat (·.insertName h source)) := renameTo_eq dest hf hmem
  rw [heq]
  cases ho : (e.persist s.persists).ok with
  | true =>
    rw [ho] at hok
    rw [if_pos hok]
    refine ⟨hok, hpersists, ?_, congrArg Names.files (hnames.trans htnames)⟩
    rw [show (r.1, r.2).2.names = _ from hnames]
    exact renamed_follows ht hf hl hsource hdest
  | false =>
    rw [ho] at hok
    -- the rollback takes the new name away and puts the old one at the end of the list
    have herase : (r.2.onCat (·.eraseName dest)).names =
        s.names.put h E' (update s.names.files source none) := by
      rw [eraseName_names, hnames, htnames, Names.put_files, Names.put_withFiles,
        Moves.moved_clear hdest]
    obtain ⟨u, hcall, hu, hunames⟩ := callFile_names (m := (·.renameLink dest source))
      (l := f.linkfiles.erase source ++ [source]) herase fun g hg => by
        simp [ZoneFile.renameLink, hg, E', erase_append_right _ hfresh]
    have hfinal : (u.onCat (·.insertName h source)).names =
        s.names.put h ⟨f.fileId, f.linkfiles.erase source ++ [source], f.isDeleted⟩ s.names.files := by
      rw [insertName_names (by rw [hunames]; simp), hunames, Names.put_files, Names.put_withFiles,
        update_idem, ← hsource, update_eq_self]
    rw [if_neg (by rw [hok]; simp)]
    simp only [hcall, Status.ok_OK, Bool.not_true, Bool.false_eq_true, if_false]
    refine ⟨trivial, hu.trans hpersists, ?_, by rw [hfinal, Names.put_files]⟩
    rw [hfinal]
    exact ht.follows_relisted hsource (entry_of_heap hf) hl

/-- `LinkFile` of a file to a free name: the name is there if the record is written and is
taken back otherwise. The status is OK in both cases. -/
theorem linkFile_names (hfile : s.names.files file = some h) (hlink : s.names.files link = none) :
    (s.linkFile e file link).1.ok = true ∧
      (s.linkFile e file link).2.persists = s.persists + 1 ∧
      Names.Follows s.names (s.linkFile e file link).2.names ∧
      (s.linkFile e file link).2.names.files =
        if (e.persist s.persists).ok then update s.names.files link (some h)
        else s.names.files := by
  obtain ⟨f, hf, hl, -⟩ := exists_file ht hfile
  have hfresh : link ∉ f.linkfiles := by
    rw [mem_linkfiles ht hf, hlink]
    simp
  let E' : Entry := ⟨f.fileId, f.linkfiles ++ [link], f.isDeleted⟩
  have htnames : (s.linked h link).names =
      s.names.put h E' (update s.names.files link (some h)) := linked_names hf hlink
  let r := (s.linked h link).syncFileMetadata e h false
  obtain ⟨hok, hnames, hpersists⟩ : r.1.ok = (e.persist s.persists).ok ∧
      r.2.names = (s.linked h link).names ∧ r.2.persists = s.persists + 1 :=
    syncFileMetadata_names (by rw [htnames, Names.put_entry_self]) hl false
  have heq : s.linkFile e file link = if r.1.ok then (r.1, r.2) else
      let q := r.2.callFile h (·.removeLinkName link)
      if !q.1.ok then q else (q.1, q.2.onCat (·.eraseName link)) := linkFile_eq hlink hfile
  rw [heq]
  cases ho : (e.persist s.persists).ok with
  | true =>
    rw [ho] at hok
    rw [if_pos hok]
    refine ⟨hok, hpersists, ?_, congrArg Names.files (hnames.trans htnames)⟩
    rw [show (r.1, r.2).2.names = _ from hnames]
    exact linked_follows ht hf hl hfile hlink
  | false =>
    rw [ho] at hok
    obtain ⟨u, hcall, hu, hunames⟩ := callFile_names (m := (·.removeLinkName link))
      (l := f.linkfiles) (hnames.trans htnames) fun g hg => by
        simp [ZoneFile.removeLinkName, hg, E', erase_append_right _ hfresh]
    have hfinal : (u.onCat (·.eraseName link)).names = s.names := by
      rw [eraseName_names, hunames, Names.put_files, Names.put_withFiles, update_idem, ← hlink,
        update_eq_self]
      exact Names.put_self (entry_of_heap hf)
    rw [if_neg (by rw [hok]; simp)]
    simp only [hcall, Status.ok_OK, Bool.not_true, Bool.false_eq_true, if_false]
    rw [hfinal]
    exact ⟨trivial, hu.trans hpersists, ht.follows_self, rfl⟩

end Outcomes

end State

end ZenFs
