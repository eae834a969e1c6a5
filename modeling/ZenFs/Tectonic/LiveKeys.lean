import ZenFs.Tectonic.Dispatch

/-!
The keys that operations name, against the keys that are live: inserted and not deleted.

The key sets hold a list of keys in which a key can stand twice, so a point delete can leave
a key behind that is no longer live; and they know nothing of the keys of earlier sections.
-/

namespace ZenFs.Tectonic

open Library KeySet List Finset

variable {e : Event} {kind : KeySetKind} {op : Option Op} {out : List Event}

def Along (P : List Event → Event → Prop) (out : List Event) : Prop :=
  ∀ i < out.length, ∀ e ∈ out[i]?, P (out.take i) e

instance (P : List Event → Event → Prop) [∀ out e, Decidable (P out e)] (out : List Event) :
    Decidable (Along P out) :=
  inferInstanceAs (Decidable (∀ i < out.length, ∀ e ∈ out[i]?, P (out.take i) e))

variable {P : List Event → Event → Prop}

theorem along_nil : Along P [] := by
  intro i hi
  cases hi

theorem along_append :
    Along P (out ++ [e]) ↔ Along P out ∧ P out e := by
  constructor
  · intro h
    constructor
    · intro i hi x hx
      have hget : (out ++ [e])[i]? = some x := by rwa [getElem?_append_left hi]
      have hP := h i (by simp; omega) x hget
      rwa [take_append_of_le_length (by omega)] at hP
    · have hP := h out.length (by simp) e (by simp)
      rwa [take_left'] at hP
      rfl
  · rintro ⟨hout, he⟩ i hi x hx
    simp only [length_append, length_singleton] at hi
    by_cases hlt : i < out.length
    · rw [take_append_of_le_length (by omega)]
      exact hout i hlt x (by rwa [getElem?_append_left hlt] at hx)
    · have hi' : i = out.length := by omega
      subst hi'
      rw [take_left' rfl]
      simp only [getElem?_concat_length, Option.mem_some_iff] at hx
      exact hx ▸ he

def Call.named : Call → Option Bytes
  | .insert key _ | .update key _ | .merge key _ | .pointDelete key | .pointQuery key => some key
  | _ => none

def liveStep (live : Finset Bytes) (e : Event) : Finset Bytes :=
  match e.call with
  | .insert key _ => insert key live
  | .pointDelete key => live.erase key
  | _ => live

def live (out : List Event) : Finset Bytes := out.foldl liveStep ∅

theorem live_append (out : List Event) (e : Event) : live (out ++ [e]) = liveStep (live out) e := by
  simp [live]

def onLive : List (Option Op) := [some .update, some .merge, some .pointDelete, some .pointQuery]

def onFresh : List (Option Op) := [some .uniqueInsert, some .pointDeleteEmpty, some .emptyPointQuery]

def Promise (out : List Event) (e : Event) : Prop :=
  (e.marker ∈ onLive → ∃ key ∈ e.call.named, key ∈ live out) ∧
    (e.marker ∈ onFresh → ∃ key ∈ e.call.named, key ∉ live out)

instance (out : List Event) (e : Event) : Decidable (Promise out e) :=
  inferInstanceAs (Decidable (_ ∧ _))

def Apart (out : List Event) (e : Event) : Prop :=
  e.marker ∈ onFresh → ∀ key ∈ e.call.named,
    key ∉ live (out.filter fun e' => e'.sectionNum < e.sectionNum)

instance (out : List Event) (e : Event) : Decidable (Apart out e) :=
  inferInstanceAs (Decidable (_ → _))

/-- The promises so far are kept. The keys of the key set are live, and what else is live comes
from earlier sections. -/
structure Tracked (earlier : Finset Bytes) (held : List Bytes) (out : List Event) : Prop where
  promises : Along Promise out
  held_live : ∀ key ∈ held, key ∈ live out
  live_held : ∀ key ∈ live out, key ∈ earlier ∨ key ∈ held

variable {key : Bytes}

namespace Tracked

variable {earlier : Finset Bytes} {held kept : List Bytes} {n : ℕ}

theorem perm (h : Tracked earlier held out) (hperm : kept.Perm held) :
    Tracked earlier kept out where
  promises := h.promises
  held_live key hkey := h.held_live key (hperm.mem_iff.mp hkey)
  live_held key hkey := by
    rw [hperm.mem_iff]
    exact h.live_held key hkey

theorem fresh (h : Tracked earlier held out) (hearlier : key ∉ earlier)
    (hheld : key ∉ held) : key ∉ live out := by
  intro hlive
  obtain hkey | hkey := h.live_held key hlive
  · exact hearlier hkey
  · exact hheld hkey

variable {call : Call}

section

variable (h : Tracked earlier held out)
include h

theorem same (hpromise : Promise out ⟨n, op, call, held, held⟩)
    (hlive : liveStep (live out) ⟨n, op, call, held, held⟩ = live out) :
    Tracked earlier held (out ++ [⟨n, op, call, held, held⟩]) where
  promises := along_append.mpr ⟨h.promises, hpromise⟩
  held_live key hkey := by
    rw [live_append, hlive]
    exact h.held_live key hkey
  live_held key hkey := by
    rw [live_append, hlive] at hkey
    exact h.live_held key hkey

theorem passive
    (hcall : Passive op call) : Tracked earlier held (out ++ [⟨n, op, call, held, held⟩]) := by
  cases hcall
  all_goals exact h.same ⟨by simp [onLive], by simp [onFresh]⟩ rfl

theorem lookup {op : Op} (hcall : Lookup op key call) (hkey : key ∈ held) :
    Tracked earlier held (out ++ [⟨n, some op, call, held, held⟩]) := by
  have hlive := h.held_live key hkey
  cases hcall
  all_goals exact h.same ⟨fun _ => ⟨key, rfl, hlive⟩, by simp [onFresh]⟩ rfl

theorem absent {op : Op} (hcall : Absent op key call) (hheld : key ∉ held)
    (hearlier : key ∉ earlier) :
    Tracked earlier held (out ++ [⟨n, some op, call, held, held⟩]) := by
  have hfresh := h.fresh hearlier hheld
  cases hcall with
  | pointDelete =>
    refine h.same ⟨by simp [onLive], fun _ => ⟨key, rfl, hfresh⟩⟩ ?_
    exact erase_eq_of_notMem hfresh
  | pointQuery => exact h.same ⟨by simp [onLive], fun _ => ⟨key, rfl, hfresh⟩⟩ rfl

theorem insert {op : Op} {val : Value}
    (hop : op = .uniqueInsert ∨ op = .upsert)
    (hfresh : op = .uniqueInsert → key ∉ held ∧ key ∉ earlier) :
    Tracked earlier (held ++ [key]) (out ++ [⟨n, some op, .insert key val, held, held ++ [key]⟩]) where
  promises := by
    refine along_append.mpr ⟨h.promises, ?_, ?_⟩
    · obtain rfl | rfl := hop <;> simp [onLive]
    · obtain rfl | rfl := hop
      · exact fun _ => ⟨key, rfl, h.fresh (hfresh rfl).2 (hfresh rfl).1⟩
      · simp [onFresh]
  held_live k hk := by
    rw [live_append]
    obtain hk | rfl := by simpa using hk
    · exact mem_insert_of_mem (h.held_live k hk)
    · exact mem_insert_self _ _
  live_held k hk := by
    rw [live_append] at hk
    rw [List.mem_append, List.mem_singleton]
    obtain rfl | hk := mem_insert.mp hk
    · exact .inr (.inr rfl)
    · obtain hk | hk := h.live_held k hk
      · exact .inl hk
      · exact .inr (.inl hk)

theorem pointDelete (hperm : held.Perm (key :: kept))
    (hgone : key ∉ kept) :
    Tracked earlier kept (out ++ [⟨n, some .pointDelete, .pointDelete key, held, kept⟩]) where
  promises := by
    refine along_append.mpr ⟨h.promises, fun _ => ⟨key, rfl, ?_⟩, by simp [onFresh]⟩
    exact h.held_live key (hperm.mem_iff.mpr mem_cons_self)
  held_live k hk := by
    rw [live_append]
    refine mem_erase.mpr ⟨?_, h.held_live k (hperm.mem_iff.mpr (mem_cons_of_mem _ hk))⟩
    rintro rfl
    exact hgone hk
  live_held k hk := by
    rw [live_append] at hk
    obtain ⟨hne, hk⟩ := mem_erase.mp hk
    obtain hk | hk := h.live_held k hk
    · exact .inl hk
    · obtain rfl | hk := mem_cons.mp (hperm.mem_iff.mp hk)
      · exact absurd rfl hne
      · exact .inr hk

end

end Tracked

theorem Change.sectionNum_eq {ρ S : Type} [KeySet S] {occurs : Op → Prop}
    {g g' : Gen ρ S} (h : Change kind occurs g g') : g'.sectionNum = g.sectionNum := by
  cases h <;> rfl

/-- The calls of earlier sections are those that were there at the start. -/
structure Numbered {ρ S : Type} (n : ℕ) (s : Stream) (g : Gen ρ S) : Prop where
  sectionNum : g.sectionNum = n
  le : ∀ e ∈ g.out, e.sectionNum ≤ n
  start : g.out.filter (fun e => e.sectionNum < n) = s.out

variable {s : Stream}

theorem Numbered.change {ρ S : Type} [KeySet S] {n : ℕ}
    {occurs : Op → Prop} {g g' : Gen ρ S} (h : Numbered n s g) (hchange : Change kind occurs g g') :
    Numbered n s g' := by
  have hnum := hchange.sectionNum_eq.trans h.sectionNum
  obtain hout | ⟨op, call, hout⟩ := hchange.out_cases
  · exact ⟨hnum, hout ▸ h.le, hout ▸ h.start⟩
  · refine ⟨hnum, ?_, ?_⟩
    · intro e he
      rw [hout] at he
      obtain he | rfl := by simpa using he
      · exact h.le e he
      · exact h.sectionNum.le
    · rw [hout, filter_append, h.start]
      simp [h.sectionNum]

theorem numbered_start {ρ : Type} {w : World ρ} {n : ℕ}
    (h : ∀ e ∈ s.out, e.sectionNum < n) : Numbered n s (sectionStart w n kind s) where
  sectionNum := rfl
  le e he := (h e he).le
  start := filter_eq_self.mpr fun e he => by simpa using h e he

/-- The check is enabled, and nothing is deleted blindly or by ranges. -/
structure CheckedSpec (workload : WorkloadSpec) : Prop where
  checked : ∀ sec ∈ workload.sections, sec.skipKeyContainsCheck = false
  deletes : ∀ sec ∈ workload.sections, ∀ group ∈ sec.groups,
    group.blindPointDeletes = none ∧ group.rangeDeletes = none

variable {sec : WorkloadSpecSection}

theorem CheckedSpec.not_occurs {ρ : Type} {w : World ρ} {workload : WorkloadSpec}
    (h : CheckedSpec workload) (hsec : sec ∈ workload.sections) :
    ¬ Occurs w sec .rangeDelete := by
  rintro ⟨group, hgroup, e, he, -⟩
  rw [WorkloadSpecGroup.opCount, (h.deletes sec hsec group hgroup).2] at he
  cases he

section Runs

variable {ρ : Type} {w : World ρ}

structure Promising (sec : WorkloadSpecSection) (n : ℕ) (s : Stream)
    (g : Gen ρ (sec.keySetKind w).Carrier) : Prop extends Numbered n s g where
  tracked : AllClean g.out → Along Apart g.out → Tracked (live s.out) (stored g.keys) g.out
  trusted : AllClean g.out → sec.keySetKind w ≠ .empty →
    Trusted (sec.keySetKind w).exact g.keys

theorem Promising.missing {n : ℕ}
    {g : Gen ρ (sec.keySetKind w).Carrier} (h : Promising sec n s g) (hexp : Expected w sec)
    (hclean : AllClean g.out) {op : Op} (hop : Checking op) (hoccurs : Occurs w sec op)
    (hanswer : contains key g.keys = .ok false) : key ∉ stored g.keys := by
  exact (h.trusted hclean (hexp.keySetKind_ne_empty hop hoccurs) key false hanswer).1 rfl

/-- Every kind of change keeps the promises of the section. -/
theorem Promising.change (hexp : Expected w sec)
    (hrange : ¬ Occurs w sec .rangeDelete) {n : ℕ}
    {g g' : Gen ρ (sec.keySetKind w).Carrier} (h : Promising sec n s g)
    (hchange : Change (sec.keySetKind w) (Occurs w sec) g g') : Promising sec n s g' where
  toNumbered := h.toNumbered.change hchange
  trusted hclean hkind := hchange.trusted ((sec.keySetKind w).trustworthy hkind) hclean
    (h.trusted (hchange.allClean hclean) hkind)
  tracked hclean hapart := by
    have hclean' := hchange.allClean hclean
    have hlaw := (sec.keySetKind w).lawful
    -- a fresh key of this section is apart from what was live at its start
    have happend : ∀ {e}, Along Apart (g.out ++ [e]) → e.sectionNum = g.sectionNum →
        e.marker ∈ onFresh → ∀ key ∈ e.call.named, key ∉ live s.out := by
      intro e hall hnum hfresh key hkey
      have hearlier := (along_append.mp hall).2 hfresh key hkey
      rwa [hnum, h.sectionNum, h.start] at hearlier
    cases hchange with
    | draw | probe => exact h.tracked hclean hapart
    | renew hashes hempty =>
      refine (h.tracked hclean hapart).perm (List.Perm.of_eq ?_)
      rw [hempty]
      exact hlaw.stored_new hashes
    | sort keys hsort => exact (h.tracked hclean hapart).perm (hlaw.sort_perm _ _ hsort)
    | passive op call hcall =>
      exact (h.tracked hclean' (along_append.mp hapart).1).passive hcall
    | first op hop hempty key val =>
      have hheld := hlaw.stored_of_isEmpty _ hempty
      have htracked := h.tracked hclean' (along_append.mp hapart).1
      show Tracked _ (stored (push key g.keys)) (_ ++ [⟨_, _, _, _, stored (push key g.keys)⟩])
      rw [hlaw.stored_push]
      refine htracked.insert hop ?_
      rintro rfl
      refine ⟨by simp [hheld], happend hapart rfl (by simp [onFresh]) key rfl⟩
    | uniqueInsert hoccurs key hanswer val =>
      have hheld := h.missing hexp hclean' .uniqueInsert hoccurs hanswer
      have htracked := h.tracked hclean' (along_append.mp hapart).1
      show Tracked _ (stored (push key g.keys)) (_ ++ [⟨_, _, _, _, stored (push key g.keys)⟩])
      rw [hlaw.stored_push]
      refine htracked.insert (.inl rfl) fun _ => ⟨hheld, ?_⟩
      exact happend hapart rfl (by simp [onFresh]) key rfl
    | upsert hoccurs key val =>
      have htracked := h.tracked hclean' (along_append.mp hapart).1
      show Tracked _ (stored (push key g.keys)) (_ ++ [⟨_, _, _, _, stored (push key g.keys)⟩])
      rw [hlaw.stored_push]
      exact htracked.insert (.inr rfl) fun h => by cases h
    | lookup op hoccurs key call hcall idx hget =>
      exact (h.tracked hclean' (along_append.mp hapart).1).lookup hcall (hlaw.get_mem _ _ _ hget)
    | absent op hoccurs key call hcall hanswer =>
      have hop : Checking op := by
        cases hcall with
        | pointDelete => exact .pointDeleteEmpty
        | pointQuery => exact .emptyPointQuery
      have hearlier : key ∉ live s.out := by
        cases hcall
        all_goals exact happend hapart rfl (by simp [onFresh]) key rfl
      exact (h.tracked hclean' (along_append.mp hapart).1).absent hcall
        (h.missing hexp hclean' hop hoccurs hanswer) hearlier
    | pointDelete hoccurs idx key keys hremove =>
      have hperm := hlaw.remove_perm _ _ _ _ hremove
      have hgone := (clean_iff (show (stored g.keys).Perm ([key] ++ stored keys) from hperm)).mp
        hclean.of_append.2 key (List.mem_singleton_self key)
      exact (h.tracked hclean' (along_append.mp hapart).1).pointDelete hperm hgone
    | rangeDelete hoccurs | rangeDeleteCount hoccurs => exact absurd hoccurs hrange

/-- Every call names a key as promised, if the key sets fit the counts, if every point delete
removes the only copy of its key, and if fresh keys are not live since an earlier section. -/
theorem promises_of_clean {ρ : Type} (w : World ρ) (workload : WorkloadSpec)
    (hspec : CheckedSpec workload) (hexp : ∀ sec ∈ workload.sections, Expected w sec)
    (hclean : AllClean (generated w workload).out)
    (hapart : Along Apart (generated w workload).out) :
    Along Promise (generated w workload).out := by
  obtain ⟨-, -, h⟩ := generated_rule w workload
    (I := fun n s => (∀ e ∈ s.out, e.sectionNum < n) ∧
      (AllClean s.out → Along Apart s.out → Along Promise s.out))
    (J := fun sec n s g => Promising sec n s g)
    ⟨fun _ he => absurd he not_mem_nil, fun _ _ => along_nil⟩
    (fun sec _ n s hs =>
      { toNumbered := numbered_start hs.1
        tracked := fun hclean hapart =>
          { promises := hs.2 hclean hapart
            held_live := fun key hkey => by
              rw [show stored (sectionStart w n (sec.keySetKind w) s).keys = [] from
                (sec.keySetKind w).lawful.stored_new _] at hkey
              cases hkey
            live_held := fun key hkey => .inl hkey }
        trusted := fun _ hkind => ((sec.keySetKind w).trustworthy hkind).new _ })
    (fun sec hsec _ _ _ _ h hchange => h.change (hexp sec hsec) (hspec.not_occurs hsec) hchange)
    (fun _ _ _ _ g h => ⟨fun e he => Nat.lt_succ_of_le (h.le e he),
      fun hclean hapart => (h.tracked hclean hapart).promises⟩)
  exact h hclean hapart

end Runs

theorem promises_insertsAndDeletes :
    (generated tickWorld insertsAndDeletes).out.length = 8 ∧
      Along Promise (generated tickWorld insertsAndDeletes).out := by
  refine ⟨by decide +kernel, promises_of_clean tickWorld insertsAndDeletes ⟨?_, ?_⟩ ?_ ?_ ?_⟩
  · simp [insertsAndDeletes]
  · simp [insertsAndDeletes]
  · exact fun sec hsec => (constantCounts_insertsAndDeletes sec hsec).expected
  · decide +kernel
  · decide +kernel

def upsertTwice : WorkloadSpec where
  sections := [{ groups := [
    { inserts := some ⟨.constant 2, some (.constant (ascii "k")), some (.constant (ascii "v")), none⟩ },
    { pointDeletes := some ⟨.constant 1, none⟩, pointQueries := some ⟨.constant 1, none⟩ }] }]

/-- The query names the copy of the key that the delete has left. -/
theorem not_promises_upsertTwice :
    CheckedSpec upsertTwice ∧
      (generateOperations tickWorld upsertTwice ⟨[], []⟩).1.isOk = true ∧
        ¬ Along Promise (generated tickWorld upsertTwice).out := by
  refine ⟨⟨?_, ?_⟩, by decide +kernel⟩
  · simp [upsertTwice]
  · simp [upsertTwice]

end ZenFs.Tectonic
