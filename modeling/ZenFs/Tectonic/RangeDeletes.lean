import ZenFs.Tectonic.LiveKeys

/-!
The keys of the database against the keys that the generator holds.

`remove_range` drops the keys of a window of the key vector, the last one included, but a
range delete of the database excludes its end key: it is the last key of the window, or the
last of the keys that a scan counts.
-/

namespace ZenFs.Tectonic

open Library KeySet List Finset

variable {call : Call} {db : List Coding.Bytes} {k key start stop : Coding.Bytes}
variable {kind : KeySetKind} {occurs : Op → Prop} {op : Option Op}

/-- `last_key_in_scan`: the iterator starts at the first key that is not below `start` and takes
`limit - 1` steps. The database is the list of its keys in order. -/
def lastKeyInScan (db : List Bytes) (start : Bytes) (limit : ℕ) : Option Bytes :=
  if limit = 0 then none else ((db.dropWhile (· < start)).drop (limit - 1)).head?

/-- `DeleteRange` removes the keys from `start` on and below `stop`. -/
def deleteRange (db : List Bytes) (start stop : Bytes) : List Bytes :=
  db.filter fun key => !decide (start ≤ key ∧ key < stop)

def put (db : List Bytes) (key : Bytes) : List Bytes :=
  if db.contains key then db else db.orderedInsert (· ≤ ·) key

/-- What the adapter does to the keys of the database. -/
def execute (db : List Bytes) : Call → List Bytes
  | .insert key _ | .update key _ | .merge key _ => put db key
  | .pointDelete key => db.filter (· ≠ key)
  | .rangeDelete start stop => deleteRange db start stop
  | .rangeDeleteCount start n => match lastKeyInScan db start n with
    | some stop => deleteRange db start stop
    | none => db
  | _ => db

def database (out : List Event) : List Bytes := out.foldl (fun db e => execute db e.call) []

theorem database_append (out : List Event) (e : Event) :
    database (out ++ [e]) = execute (database out) e.call := by
  simp [database]

@[simp] theorem mem_put : k ∈ put db key ↔ k = key ∨ k ∈ db := by
  unfold put
  split
  · next h =>
    constructor
    · exact .inr
    · rintro (rfl | hk)
      · exact contains_iff_mem.mp h
      · exact hk
  · exact mem_orderedInsert _

@[simp] theorem mem_deleteRange :
    k ∈ deleteRange db start stop ↔ k ∈ db ∧ ¬ (start ≤ k ∧ k < stop) := by
  simp only [deleteRange, mem_filter, Bool.not_eq_true', decide_eq_false_iff_not]

/-- The keys in the key set of the section at work, and what the key sets of earlier sections
held in the end. -/
structure Valid where
  sectionNum : ℕ
  current : Finset Bytes
  earlier : Finset Bytes

namespace Valid

def enter (n : ℕ) (v : Valid) : Valid :=
  if v.sectionNum = n then v else ⟨n, ∅, v.earlier ∪ v.current⟩

def step (v : Valid) (e : Event) : Valid := { v.enter e.sectionNum with current := e.kept.toFinset }

def keys (v : Valid) : Finset Bytes := v.earlier ∪ v.current

theorem keys_enter (n : ℕ) (v : Valid) : (v.enter n).keys = v.keys := by
  unfold enter
  split
  · rfl
  · ext key
    simp [keys]

theorem sectionNum_enter (n : ℕ) (v : Valid) : (v.enter n).sectionNum = n := by
  unfold enter
  split
  · next h => exact h
  · rfl

theorem enter_step (v : Valid) (e : Event) : (v.step e).enter e.sectionNum = v.step e :=
  if_pos (sectionNum_enter e.sectionNum v)

end Valid

def validAfter (out : List Event) : Valid := out.foldl Valid.step ⟨0, ∅, ∅⟩

theorem validAfter_append (out : List Event) (e : Event) :
    validAfter (out ++ [e]) = (validAfter out).step e := by
  simp [validAfter]

def Agrees (out : List Event) (e : Event) : Prop :=
  (database (out ++ [e])).toFinset = (validAfter (out ++ [e])).keys

instance (out : List Event) (e : Event) : Decidable (Agrees out e) :=
  inferInstanceAs (Decidable (_ = _))

section Windows

variable (earlier : Finset Bytes) (e : Event)

/-- The keys of the window that a delete takes out of the vector of keys. -/
def Event.window : List Bytes := e.held.diff e.kept

/-- The key has a copy outside the window: in the vector, or left over from another section. -/
def Event.Copied (key : Bytes) : Prop :=
  key ∈ earlier ∨ e.window.count key < e.held.count key

instance (key : Bytes) : Decidable (e.Copied earlier key) := inferInstanceAs (Decidable (_ ∨ _))

/-- The half-open interval from `start` to `stop` against the window: its keys are in the window
and nowhere else, and the other keys of the window have a copy outside. -/
structure Event.Fills (start stop : Bytes) : Prop where
  inside : ∀ key ∈ e.held.toFinset ∪ earlier, start ≤ key → key < stop →
    key ∈ e.window ∧ ¬ e.Copied earlier key
  outside : ∀ key ∈ e.window, ¬ (start ≤ key ∧ key < stop) → e.Copied earlier key

end Windows

/-- No copy of a deleted key is left, and the interval of a range delete fills the window. The
interval of a counted one ends at the last key that is counted. -/
def Precise (out : List Event) (e : Event) : Prop :=
  let earlier := ((validAfter out).enter e.sectionNum).earlier
  match e.call with
  | .pointDelete key => ¬ e.Copied earlier key
  | .rangeDelete start stop => e.Fills earlier start stop
  | .rangeDeleteCount start n => match lastKeyInScan (database out) start n with
    | some stop => e.Fills earlier start stop
    | none => ∀ key ∈ e.window, e.Copied earlier key
  | _ => True

def Keeps (held kept : List Bytes) : Call → Prop
  | .insert key _ => kept = held ++ [key]
  | .update key _ | .merge key _ => key ∈ held ∧ kept = held
  | .pointDelete key => ∃ window, held.Perm (window ++ kept) ∧ window ⊆ [key]
  | .rangeDelete start stop => ∃ window, held.Perm (window ++ kept) ∧
      window.head? = some start ∧ window.getLast? = some stop
  | .rangeDeleteCount _ _ => ∃ window, held.Perm (window ++ kept)
  | _ => kept = held

def Linked (out : List Event) (e : Event) : Prop :=
  ((validAfter out).enter e.sectionNum).current = e.held.toFinset ∧ Keeps e.held e.kept e.call

section Windows

variable {earlier : Finset Bytes} {e : Event} {window : List Bytes}

theorem window_perm (h : e.held.Perm (window ++ e.kept)) : e.window.Perm window := by
  refine perm_iff_count.mpr fun key => ?_
  rw [Event.window, count_diff, h.count_eq, count_append, Nat.add_sub_cancel]

theorem copied_iff (h : e.held.Perm (window ++ e.kept)) (key : Bytes) :
    e.Copied earlier key ↔ key ∈ earlier ∨ key ∈ e.kept := by
  rw [Event.Copied, (window_perm h).count_eq, h.count_eq, count_append, ← count_pos_iff (l := e.kept)]
  exact or_congr_right (by omega)

/-- The database has the keys that are left after `deleteRange` exactly if the interval fills the
window. -/
theorem fills_iff (h : e.held.Perm (window ++ e.kept))
    (hdb : ∀ key, key ∈ db ↔ key ∈ earlier ∨ key ∈ e.held) :
    (∀ key, key ∈ deleteRange db start stop ↔ key ∈ earlier ∨ key ∈ e.kept) ↔
      e.Fills earlier start stop := by
  have hmem : ∀ key, key ∈ e.held ↔ key ∈ e.window ∨ key ∈ e.kept := by
    intro key
    rw [h.mem_iff, List.mem_append, (window_perm h).mem_iff]
  simp only [mem_deleteRange, hdb, ← copied_iff h]
  constructor
  · intro hleft
    constructor
    · intro key hkey hstart hstop
      have hnot : ¬ e.Copied earlier key := fun hc => ((hleft key).mpr hc).2 ⟨hstart, hstop⟩
      refine ⟨?_, hnot⟩
      rw [copied_iff h, not_or] at hnot
      rw [mem_union, mem_toFinset] at hkey
      exact ((hmem key).mp (hkey.resolve_right hnot.1)).resolve_right hnot.2
    · intro key hkey hin
      exact (hleft key).mp ⟨.inr ((hmem key).mpr (.inl hkey)), hin⟩
  · intro hfills key
    constructor
    · rintro ⟨hearlier | hheld, hin⟩
      · exact .inl hearlier
      · rcases (hmem key).mp hheld with hwindow | hkept
        · exact hfills.outside key hwindow hin
        · exact (copied_iff h key).mpr (.inr hkept)
    · intro hcopied
      have hvalid : key ∈ earlier ∨ key ∈ e.held :=
        ((copied_iff h key).mp hcopied).imp_right fun hk => (hmem key).mpr (.inr hk)
      refine ⟨hvalid, fun hin => ?_⟩
      have hunion : key ∈ e.held.toFinset ∪ earlier := by
        rw [mem_union, mem_toFinset]
        exact hvalid.symm
      exact (hfills.inside key hunion hin.1 hin.2).2 hcopied

end Windows

variable {out : List Event}

/-- One call: if the database agrees before it, it agrees after it exactly if the call is
precise. -/
theorem agrees_iff_precise {e : Event} (hlink : Linked out e)
    (hbefore : (database out).toFinset = (validAfter out).keys) :
    Agrees out e ↔ Precise out e := by
  obtain ⟨hcurrent, hkeeps⟩ := hlink
  set earlier := ((validAfter out).enter e.sectionNum).earlier with hearlier
  have hdb : ∀ key, key ∈ database out ↔ key ∈ earlier ∨ key ∈ e.held := by
    intro key
    rw [← mem_toFinset, hbefore, ← Valid.keys_enter e.sectionNum, Valid.keys, hcurrent,
      mem_union, mem_toFinset]
  have hafter : Agrees out e ↔
      ∀ key, key ∈ execute (database out) e.call ↔ key ∈ earlier ∨ key ∈ e.kept := by
    simp only [Agrees, database_append, validAfter_append, Valid.step, Valid.keys, Finset.ext_iff,
      mem_toFinset, mem_union, ← hearlier]
  rw [hafter]
  unfold Precise
  rw [← hearlier]
  generalize e.call = call at hkeeps ⊢
  cases call with
  | insert key val =>
    simp only [execute, mem_put, hdb, iff_true]
    intro k
    rw [show e.kept = e.held ++ [key] from hkeeps, List.mem_append, List.mem_singleton]
    tauto
  | update key val | merge key val =>
    obtain ⟨hkey, hkept⟩ := hkeeps
    have hsame : put (database out) key = database out :=
      if_pos (contains_iff_mem.mpr ((hdb key).mpr (.inr hkey)))
    simp only [execute, hsame, hkept, iff_true]
    exact hdb
  | pointDelete key =>
    obtain ⟨window, hperm, hwindow⟩ := hkeeps
    simp only [execute, List.mem_filter, hdb, decide_eq_true_eq, copied_iff hperm]
    constructor
    · intro h hkey
      exact ((h key).mpr hkey).2 rfl
    · intro hgone k
      constructor
      · rintro ⟨hk | hk, hne⟩
        · exact .inl hk
        · rcases List.mem_append.mp (hperm.mem_iff.mp hk) with hk | hk
          · exact absurd (List.mem_singleton.mp (hwindow hk)) hne
          · exact .inr hk
      · intro hk
        refine ⟨hk.imp_right fun hk => hperm.mem_iff.mpr (mem_append_right _ hk), ?_⟩
        rintro rfl
        exact hgone hk
  | rangeDelete start stop =>
    obtain ⟨window, hperm, -⟩ := hkeeps
    exact fills_iff hperm hdb
  | rangeDeleteCount start n =>
    obtain ⟨window, hperm⟩ := hkeeps
    simp only [execute]
    cases lastKeyInScan (database out) start n with
    | some stop => exact fills_iff hperm hdb
    | none =>
      simp only [hdb, copied_iff hperm, hperm.mem_iff, List.mem_append, (window_perm hperm).mem_iff]
      constructor
      · exact fun h key hkey => (h key).mp (.inr (.inl hkey))
      · intro h key
        constructor
        · rintro (hk | hk | hk)
          · exact .inl hk
          · exact h key hk
          · exact .inr hk
        · exact Or.imp_right .inr
  | pointQuery | rangeQuery | rangeQueryCount | startStatFlush | endStatFlush =>
    rw [show e.kept = e.held from hkeeps]
    exact iff_of_true hdb trivial

/-- The last key of the window of a range delete with two keys is not in the interval, so it has
to have a copy elsewhere. -/
def LastCopied (out : List Event) (e : Event) : Prop :=
  ∀ start stop, e.call = .rangeDelete start stop →
    e.Copied ((validAfter out).enter e.sectionNum).earlier stop

theorem Precise.lastCopied {e : Event} (hlink : Linked out e) (h : Precise out e) :
    LastCopied out e := by
  intro start stop hcall
  obtain ⟨-, hkeeps⟩ := hlink
  rw [hcall] at hkeeps
  obtain ⟨window, hperm, -, hlast⟩ := hkeeps
  unfold Precise at h
  rw [hcall] at h
  refine h.outside stop ((window_perm hperm).mem_iff.mpr (mem_of_getLast? hlast)) ?_
  exact fun hin => List.lt_irrefl stop hin.2

theorem agree_of_along (h : Along Agrees out) :
    (database out).toFinset = (validAfter out).keys := by
  obtain rfl | ⟨init, e, rfl⟩ := eq_nil_or_concat out
  · rfl
  · rw [concat_eq_append] at h ⊢
    exact (along_append.mp h).2

theorem along_agrees_iff (h : Along Linked out) :
    Along Agrees out ↔ Along Precise out := by
  induction out using reverseRecOn with
  | nil => exact iff_of_true along_nil along_nil
  | append_singleton out e ih =>
    obtain ⟨hout, he⟩ := along_append.mp h
    rw [along_append, along_append, ih hout]
    refine and_congr_right fun hprecise => ?_
    exact agrees_iff_precise he (agree_of_along ((ih hout).mpr hprecise))

section Runs

variable {ρ : Type} {w : World ρ}

/-- The invariant of a section: the calls are linked, and the key set holds what is valid in
the section. -/
structure Holding {S : Type} [KeySet S] (n : ℕ) (g : Gen ρ S) : Prop where
  sectionNum : g.sectionNum = n
  linked : Along Linked g.out
  current : ((validAfter g.out).enter n).current = (stored g.keys).toFinset
  le : (validAfter g.out).sectionNum ≤ n

namespace Holding

variable {S : Type} [KeySet S] {n : ℕ} {g : Gen ρ S} {keys : S}

theorem setKeys (h : Holding n g) (hperm : (stored keys).Perm (stored g.keys)) :
    Holding n (g.setKeys keys) where
  sectionNum := h.sectionNum
  linked := h.linked
  current := h.current.trans (toFinset_eq_of_perm _ _ hperm.symm)
  le := h.le

theorem addEvent (h : Holding n g)
    (hkeeps : Keeps (stored g.keys) (stored keys) call) : Holding n (g.addEvent op call keys) where
  sectionNum := h.sectionNum
  linked := along_append.mpr ⟨h.linked, by rw [h.sectionNum]; exact h.current, hkeeps⟩
  current := by
    have hn : n = g.sectionNum := h.sectionNum.symm
    subst hn
    simp only [Gen.addEvent, validAfter_append]
    exact congrArg Valid.current (Valid.enter_step (validAfter g.out) ⟨g.sectionNum, _, _, _, _⟩)
  le := by
    simp only [Gen.addEvent, validAfter_append, Valid.step, Valid.sectionNum_enter]
    exact h.sectionNum.le

/-- Every kind of change keeps the keys that are held linked to the calls. -/
theorem change {g' : Gen ρ S} (hlaw : Lawful S)
    (h : Holding n g) (hchange : Change kind occurs g g') : Holding n g' := by
  cases hchange with
  | draw | probe => exact ⟨h.sectionNum, h.linked, h.current, h.le⟩
  | renew hashes hempty =>
    refine h.setKeys (List.Perm.of_eq ?_)
    rw [hempty, hlaw.stored_new]
  | sort keys hsort => exact h.setKeys (hlaw.sort_perm _ _ hsort)
  | passive op call hcall => exact h.addEvent (by cases hcall <;> rfl)
  | first op hop hempty key val | uniqueInsert hoccurs key hanswer val | upsert hoccurs key val =>
    exact h.addEvent (hlaw.stored_push key _)
  | lookup op hoccurs key call hcall idx hget =>
    have hmem := hlaw.get_mem _ _ _ hget
    cases hcall with
    | update | merge => exact h.addEvent ⟨hmem, rfl⟩
    | pointQuery => exact h.addEvent rfl
  | absent op hoccurs key call hcall =>
    cases hcall with
    | pointDelete => exact h.addEvent ⟨[], .refl _, nil_subset _⟩
    | pointQuery => exact h.addEvent rfl
  | pointDelete hoccurs idx key keys hremove =>
    exact h.addEvent ⟨[key], hlaw.remove_perm _ _ _ _ hremove, List.Subset.refl _⟩
  | rangeDelete hoccurs start stop p keys hremove =>
    exact h.addEvent (hlaw.removeRange_perm _ _ _ _ _ hremove)
  | rangeDeleteCount hoccurs start stop p keys hremove =>
    obtain ⟨window, hperm, -⟩ := hlaw.removeRange_perm _ _ _ _ _ hremove
    exact h.addEvent ⟨window, hperm⟩

end Holding

theorem generated_linked (workload : WorkloadSpec) : Along Linked (generated w workload).out := by
  obtain ⟨-, h, -⟩ := generated_rule w workload
    (I := fun n s => Along Linked s.out ∧ ((validAfter s.out).enter n).current = ∅ ∧
      (validAfter s.out).sectionNum ≤ n)
    (J := fun _ n _ g => Holding n g)
    ⟨along_nil, rfl, le_rfl⟩
    (fun sec _ n s hs =>
      { sectionNum := rfl
        linked := hs.1
        current := by
          rw [show stored (sectionStart w n (sec.keySetKind w) s).keys = [] from
            (sec.keySetKind w).lawful.stored_new _]
          exact hs.2.1
        le := hs.2.2 })
    (fun sec _ _ _ _ _ h hchange => h.change (sec.keySetKind w).lawful hchange)
    (fun _ _ n _ g h => ⟨h.linked, by
      have hne : (validAfter g.out).sectionNum ≠ n + 1 := by have := h.le; omega
      rw [Valid.enter, if_neg hne], h.le.trans (Nat.le_succ n)⟩)
  exact h

end Runs

/-- The database and the generator agree after every prefix of the stream exactly if every
call is precise. Then every range delete with two keys ends at a key that has a copy outside its
window. -/
theorem agrees_iff_of_generated {ρ : Type} (w : World ρ) (workload : WorkloadSpec) :
    (Along Agrees (generated w workload).out ↔ Along Precise (generated w workload).out) ∧
      (Along Agrees (generated w workload).out → Along LastCopied (generated w workload).out) := by
  have hlinked := generated_linked (w := w) workload
  have hiff := along_agrees_iff hlinked
  refine ⟨hiff, fun hagrees => ?_⟩
  intro i hi e he
  exact (hiff.mp hagrees i hi e he).lastCopied (hlinked i hi e he)

def repeatedKey : WorkloadSpec where
  sections := [{ groups := [
    { inserts := some { digitInserts 3 with key := some (.constant (ascii "k")) } },
    { rangeDeletes := some ⟨.constant 1, none, some (.constant 1), none, .startEnd⟩ }] }]

-- The interval is empty, and copies of the key are left.
example : Along Agrees (generated tickWorld repeatedKey).out ∧
    ∃ e ∈ (generated tickWorld repeatedKey).out, e.call = .rangeDelete (ascii "k") (ascii "k") := by
  decide +kernel

def rangeDeletes (format : RangeFormat) : WorkloadSpec where
  sections := [{ groups := [{ uniqueInserts := some (digitInserts 3) },
    { rangeDeletes := some ⟨.constant 1, none, some (.constant 2), none, format⟩ }] }]

/-- Either form of a range delete leaves the last key of the range in the database. -/
theorem not_agrees_rangeDeletes :
    ((generateOperations tickWorld (rangeDeletes .startEnd) ⟨[], []⟩).1.isOk = true ∧
      ¬ Along Agrees (generated tickWorld (rangeDeletes .startEnd)).out) ∧
    ((generateOperations tickWorld (rangeDeletes .startCount) ⟨[], []⟩).1.isOk = true ∧
      ¬ Along Agrees (generated tickWorld (rangeDeletes .startCount)).out) := by
  decide +kernel

end ZenFs.Tectonic
