import ZenFs.Tectonic.Sections

/-!
Does the selected key set support what the operations of a section ask of it?

The selection goes by expected counts and by `skip_key_contains_check`, but the operations
call `contains` whatever that flag says, and a count can be positive although its expected
value is not. The hash sets answer wrongly once a removal has left a copy of the key.
-/

namespace ZenFs.Tectonic

open Library KeySet List

variable {e : Event} {out : List Event}
variable {op : Op}

section Selection

variable {ρ : Type} (w : World ρ) (sec : WorkloadSpecSection)

theorem has_rangeQuery :
    sec.has w .rangeQuery = (sec.hasQueryRange w || sec.hasQueryRangeCount w) := by
  rw [Bool.eq_iff_iff]
  simp only [WorkloadSpecSection.has, WorkloadSpecSection.hasQueryRange,
    WorkloadSpecSection.hasQueryRangeCount, WorkloadSpecSection.hasRange,
    WorkloadSpecGroup.opCount, any_eq_true, Bool.or_eq_true, Option.any_map,
    Option.any_eq_true, Bool.and_eq_true, beq_iff_eq]
  constructor
  · rintro ⟨group, hgroup, rqs, hrqs, hpos⟩
    cases hformat : rqs.rangeFormat with
    | startEnd => exact .inl ⟨group, hgroup, rqs, hrqs, hpos, hformat⟩
    | startCount => exact .inr ⟨group, hgroup, rqs, hrqs, hpos, hformat⟩
  · rintro (⟨group, hgroup, rqs, hrqs, hpos, -⟩ | ⟨group, hgroup, rqs, hrqs, hpos, -⟩)
    all_goals exact ⟨group, hgroup, rqs, hrqs, hpos⟩

/-- The operations that look keys up by their index. -/
inductive Selecting : Op → Prop
  | update : Selecting .update
  | merge : Selecting .merge
  | pointDelete : Selecting .pointDelete
  | rangeDelete : Selecting .rangeDelete
  | pointQuery : Selecting .pointQuery
  | rangeQuery : Selecting .rangeQuery

theorem requiresRandomElement_of_has (hop : Selecting op) (h : sec.has w op = true) :
    sec.requiresRandomElement w = true := by
  have hrange := has_rangeQuery w sec
  unfold WorkloadSpecSection.requiresRandomElement
  cases hop with
  | rangeQuery =>
    rw [hrange] at h
    simp only [Bool.or_eq_true] at h ⊢
    tauto
  | update => simp [WorkloadSpecSection.hasUpdate, h]
  | merge => simp [WorkloadSpecSection.hasMerge, h]
  | pointDelete => simp [WorkloadSpecSection.hasDeletePoint, h]
  | rangeDelete => simp [WorkloadSpecSection.hasDeleteRange, h]
  | pointQuery => simp [WorkloadSpecSection.hasQueryPoint, h]

theorem noKeyset_of_requiresRandomElement (h : sec.requiresRandomElement w = true) :
    sec.noKeyset w = false := by
  simp only [WorkloadSpecSection.requiresRandomElement, WorkloadSpecSection.noKeyset,
    Bool.or_eq_true, Bool.not_eq_false'] at h ⊢
  tauto

theorem keySetKind_of_requiresRandomElement (h : sec.requiresRandomElement w = true) :
    sec.keySetKind w ≠ .empty ∧ sec.keySetKind w ≠ .bloomFilter := by
  unfold WorkloadSpecSection.keySetKind
  simp only [noKeyset_of_requiresRandomElement w sec h]
  repeat' split
  all_goals simp_all

theorem noKeyset_of_checking (hop : Checking op) (h : sec.has w op = true) :
    sec.noKeyset w = false := by
  unfold WorkloadSpecSection.noKeyset
  cases hop with
  | uniqueInsert => simp [WorkloadSpecSection.hasUniqueInsert, h]
  | pointDeleteEmpty => simp [WorkloadSpecSection.hasDeletePointEmpty, h]
  | emptyPointQuery => simp [WorkloadSpecSection.hasQueryPointEmpty, h]

theorem keySetKind_ne_empty (h : sec.noKeyset w = false) : sec.keySetKind w ≠ .empty := by
  unfold WorkloadSpecSection.keySetKind
  rw [h]
  simp only [Bool.false_eq_true, if_false]
  repeat' split
  all_goals simp

/-- The one key set that cannot answer `contains` is selected for sections that delete from a
sorted key set, if the check is skipped. -/
theorem skips_of_vecOption (hop : Checking op) (h : sec.has w op = true)
    (hkind : sec.keySetKind w = .vecOption) :
    sec.skipKeyContainsCheck = true ∧ sec.requiresSorting w = true ∧
      sec.requiresDeletion w = true := by
  have hcheck : sec.requiresContainsCheck w = !sec.skipKeyContainsCheck := by
    unfold WorkloadSpecSection.requiresContainsCheck
    cases hop with
    | uniqueInsert => simp [WorkloadSpecSection.hasUniqueInsert, h]
    | pointDeleteEmpty => simp [WorkloadSpecSection.hasDeletePointEmpty, h]
    | emptyPointQuery => simp [WorkloadSpecSection.hasQueryPointEmpty, h]
  unfold WorkloadSpecSection.keySetKind at hkind
  repeat' split at hkind
  all_goals first | (cases hkind; done) | simp_all

end Selection

/-- The operations that need the key set have a positive expected count where they can occur. -/
def Expected {ρ : Type} (w : World ρ) (sec : WorkloadSpecSection) : Prop :=
  ∀ op, Checking op ∨ Selecting op → Occurs w sec op → sec.has w op = true

/-- The counts are as expected, and no section skips the check although it sorts, deletes and
asks `contains`. -/
structure Fitting {ρ : Type} (w : World ρ) (sec : WorkloadSpecSection) : Prop where
  expected : Expected w sec
  checked : sec.requiresSorting w = true → sec.requiresDeletion w = true →
    sec.skipKeyContainsCheck = true → ∀ op, Checking op → ¬ Occurs w sec op

namespace Fitting

variable {ρ : Type} {w : World ρ} {sec : WorkloadSpecSection}

theorem supports (h : Fitting w sec) (hoccurs : Occurs w sec op) :
    Supports (sec.keySetKind w).Carrier op := by
  have hchecks : Checking op → Checks (sec.keySetKind w).Carrier := by
    intro hop
    refine KeySetKind.checks _ fun hkind => ?_
    obtain ⟨hskip, hsort, hdelete⟩ :=
      skips_of_vecOption w sec hop (h.expected op (.inl hop) hoccurs) hkind
    exact h.checked hsort hdelete hskip op hop hoccurs
  have hselects : Selecting op → Selects (sec.keySetKind w).Carrier := by
    intro hop
    obtain ⟨hempty, hbloom⟩ := keySetKind_of_requiresRandomElement w sec
      (requiresRandomElement_of_has w sec hop (h.expected op (.inr hop) hoccurs))
    exact KeySetKind.selects _ hempty hbloom
  cases op with
  | uniqueInsert => exact hchecks .uniqueInsert
  | pointDeleteEmpty => exact hchecks .pointDeleteEmpty
  | emptyPointQuery => exact hchecks .emptyPointQuery
  | update => exact hselects .update
  | merge => exact hselects .merge
  | pointDelete => exact hselects .pointDelete
  | rangeDelete => exact hselects .rangeDelete
  | pointQuery => exact hselects .pointQuery
  | rangeQuery => exact hselects .rangeQuery
  | upsert | blindPointQuery | blindPointDelete | blindRangeQuery => trivial

theorem not_fails (h : Fitting w sec) : ¬ Fails (sec.keySetKind w).Carrier (Occurs w sec) := by
  rintro ⟨op, hoccurs, hnot⟩
  exact hnot (h.supports hoccurs)

end Fitting

variable {sec : WorkloadSpecSection}

theorem Expected.keySetKind_ne_empty {ρ : Type} {w : World ρ}
    (h : Expected w sec) (hop : Checking op) (hoccurs : Occurs w sec op) :
    sec.keySetKind w ≠ .empty :=
  Tectonic.keySetKind_ne_empty w sec (noKeyset_of_checking w sec hop (h op (.inl hop) hoccurs))

def AllClean (out : List Event) : Prop := ∀ e ∈ out, Clean e.held e.kept

theorem AllClean.of_append (h : AllClean (out ++ [e])) :
    AllClean out ∧ Clean e.held e.kept :=
  ⟨fun e' he' => h e' (mem_append_left _ he'), h e (by simp)⟩

section Answers

variable {ρ S : Type} [KeySet S] {kind : KeySetKind} {occurs : Op → Prop} {g g' : Gen ρ S}

theorem Change.out_cases (h : Change kind occurs g g') :
    g'.out = g.out ∨
      ∃ op call, g'.out = g.out ++ [⟨g.sectionNum, op, call, stored g.keys, stored g'.keys⟩] := by
  cases h with
  | draw | renew | sort | probe => exact .inl rfl
  | passive | first | uniqueInsert | upsert | lookup | absent | pointDelete | rangeDelete
  | rangeDeleteCount => exact .inr ⟨_, _, rfl⟩

theorem Change.allClean (h : Change kind occurs g g') (hclean : AllClean g'.out) :
    AllClean g.out := by
  obtain hout | ⟨op, call, hout⟩ := h.out_cases
  · rwa [hout] at hclean
  · rw [hout] at hclean
    exact hclean.of_append.1

theorem Change.trusted {exact : Bool} (hS : Trustworthy S exact) (h : Change kind occurs g g')
    (hclean : AllClean g'.out) (htrust : Trusted exact g.keys) : Trusted exact g'.keys := by
  cases h with
  | draw | probe | passive | lookup | absent => exact htrust
  | renew hashes => exact hS.new hashes
  | sort keys hsort => exact hS.sort _ _ hsort htrust
  | first op hop hempty key | uniqueInsert hoccurs key | upsert hoccurs key =>
    exact hS.push key _ htrust
  | pointDelete hoccurs idx key keys hremove =>
    exact hS.remove _ _ _ _ hremove hclean.of_append.2 htrust
  | rangeDelete hoccurs start stop p keys hremove
  | rangeDeleteCount hoccurs start stop p keys hremove =>
    exact hS.removeRange _ _ _ _ _ hremove hclean.of_append.2 htrust

end Answers

def Probe.Right (p : Probe) : Prop := p.kind.exact = true → (p.answer = true ↔ p.key ∈ p.held)

theorem probe_right {S : Type} [KeySet S] {kind : KeySetKind} {s : S} (h : Trusted kind.exact s)
    {key : Bytes} {answer : Bool} (hanswer : contains key s = .ok answer) :
    Probe.Right ⟨kind, key, answer, stored s⟩ := by
  intro hexact
  obtain ⟨hmissing, hfound⟩ := h key answer hanswer
  cases answer with
  | false => simpa using hmissing rfl
  | true => simpa using hfound hexact rfl

section Runs

variable {ρ : Type} {w : World ρ} {workload : WorkloadSpec}

/-- The invariant of a section: as long as every removal is clean, the answers so far were
right, and the next ones will be. -/
structure Answering (sec : WorkloadSpecSection) (g : Gen ρ (sec.keySetKind w).Carrier) : Prop where
  probes : AllClean g.out → ∀ p ∈ g.probes, p.Right
  trusted : AllClean g.out → sec.keySetKind w ≠ .empty →
    Trusted (sec.keySetKind w).exact g.keys

theorem Answering.change (hfit : Fitting w sec)
    {g g' : Gen ρ (sec.keySetKind w).Carrier} (h : Answering sec g)
    (hchange : Change (sec.keySetKind w) (Occurs w sec) g g') : Answering sec g' where
  trusted hclean hkind := hchange.trusted ((sec.keySetKind w).trustworthy hkind) hclean
    (h.trusted (hchange.allClean hclean) hkind)
  probes hclean := by
    have hold := h.probes (hchange.allClean hclean)
    have htrust := h.trusted (hchange.allClean hclean)
    cases hchange with
    | probe op hop hoccurs key answer hanswer =>
      intro p hp
      obtain hp | rfl := by simpa [Gen.addProbe] using hp
      · exact hold p hp
      · exact probe_right (htrust (hfit.expected.keySetKind_ne_empty hop hoccurs)) hanswer
    | draw | renew | sort | passive | first | uniqueInsert | upsert | lookup | absent
    | pointDelete | rangeDelete | rangeDeleteCount => exact hold

theorem generated_right (hfit : ∀ sec ∈ workload.sections, Fitting w sec)
    (hclean : AllClean (generated w workload).out) :
    ∀ p ∈ (generated w workload).probes, p.Right := by
  obtain ⟨-, h⟩ := generated_rule w workload
    (I := fun _ s => AllClean s.out → ∀ p ∈ s.probes, p.Right)
    (J := fun sec _ _ g => Answering sec g)
    (fun _ p hp => by cases hp)
    (fun sec _ n s hs => ⟨hs, fun _ hkind => ((sec.keySetKind w).trustworthy hkind).new _⟩)
    (fun sec hsec _ _ _ _ h hchange => h.change (hfit sec hsec) hchange)
    (fun _ _ _ _ _ h => h.probes)
  exact h hclean

end Runs

/-- Every section's key set fits its operations and every removal of the run is clean: then no
unsupported method is called, and `contains` answers right unless a Bloom filter answers. -/
theorem dispatch_sound_of_fitting {ρ : Type} (w : World ρ) (workload : WorkloadSpec)
    (hfit : ∀ sec ∈ workload.sections, Fitting w sec)
    (hclean : AllClean (generated w workload).out) :
    ¬ Unsupported (generateOperations w workload ⟨[], []⟩).1 ∧
      ∀ p ∈ (generated w workload).probes, p.Right :=
  ⟨generateOperations_supported w (fun sec hsec => (hfit sec hsec).not_fails) _,
    generated_right hfit hclean⟩

def ConstantCounts (sec : WorkloadSpecSection) : Prop :=
  ∀ group ∈ sec.groups, ∀ op e, group.opCount op = some e → ∃ n, e = .constant n

theorem ConstantCounts.expected {ρ : Type} {w : World ρ}
    (h : ConstantCounts sec) : Expected w sec := by
  rintro op - ⟨group, hgroup, e, he, r, x, hx, hpos⟩
  obtain ⟨n, rfl⟩ := h group hgroup op e he
  cases hx
  simp only [WorkloadSpecSection.has, any_eq_true, Option.any_eq_true, decide_eq_true_eq]
  exact ⟨group, hgroup, _, he, zero_lt_one.trans_le (asUsize_pos_iff.mp hpos)⟩

def digitInserts (n : ℚ) : Inserts where
  opCount := .constant n
  key := some (.uniform (.constant 2) (some .numeric))
  val := some (.constant (ascii "v"))
  characterSet := none

def insertsAndDeletes : WorkloadSpec where
  sections := [{ groups := [{ uniqueInserts := some (digitInserts 3) },
    { uniqueInserts := some (digitInserts 1)
      pointDeletes := some ⟨.constant 2, none⟩
      pointQueries := some ⟨.constant 1, none⟩
      emptyPointQueries := some ⟨.constant 1, (digitInserts 1).key, none⟩ }] }]

theorem constantCounts_insertsAndDeletes :
    ∀ sec ∈ insertsAndDeletes.sections, ConstantCounts sec := by
  intro sec hsec
  rw [insertsAndDeletes, mem_singleton] at hsec
  subst hsec
  intro group hgroup op e he
  simp only [mem_cons, not_mem_nil, or_false] at hgroup
  obtain rfl | rfl := hgroup
  all_goals cases op <;> simp [WorkloadSpecGroup.opCount] at he <;> exact ⟨_, he.symm⟩

instance : DecidablePred AllClean := fun out =>
  inferInstanceAs (Decidable (∀ e ∈ out, Clean e.held e.kept))

theorem dispatch_sound_insertsAndDeletes :
    (generated tickWorld insertsAndDeletes).probes ≠ [] ∧
      ¬ Unsupported (generateOperations tickWorld insertsAndDeletes ⟨[], []⟩).1 ∧
        ∀ p ∈ (generated tickWorld insertsAndDeletes).probes, p.Right := by
  refine ⟨by decide +kernel, dispatch_sound_of_fitting tickWorld insertsAndDeletes ?_ ?_⟩
  · intro sec hsec
    refine ⟨(constantCounts_insertsAndDeletes sec hsec).expected, fun _ _ hskip => ?_⟩
    rw [insertsAndDeletes, mem_singleton] at hsec
    subst hsec
    cases hskip
  · decide +kernel

instance {α : Type} : (r : Except Stop α) → Decidable (Unsupported r)
  | .error (.unsupported msg) => isTrue ⟨msg, rfl⟩
  | .error (.bail _) => isFalse (by rintro ⟨msg, h⟩; cases h)
  | .error (.panic _) => isFalse (by rintro ⟨msg, h⟩; cases h)
  | .error .noKey => isFalse (by rintro ⟨msg, h⟩; cases h)
  | .ok _ => isFalse (by rintro ⟨msg, h⟩; cases h)

def skippedCheck : WorkloadSpec where
  sections := [{
    groups := [{
      uniqueInserts := some (digitInserts 2)
      rangeDeletes := some ⟨.constant 1, none, some (.constant 1), none, .startCount⟩ }]
    skipKeyContainsCheck := true }]

/-- The second unique insert asks a key set that cannot answer. -/
theorem unsupported_skippedCheck :
    Unsupported (generateOperations tickWorld skippedCheck ⟨[], []⟩).1 := by
  decide +kernel

end ZenFs.Tectonic
