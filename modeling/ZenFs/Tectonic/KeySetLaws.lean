import ZenFs.Tectonic.Workload

/-!
What the key sets have in common: how every method changes the keys that are stored, and how
far the answers of `contains` can be trusted.

A removal takes one copy of a key out of the stored keys, but the hash sets forget the key
altogether. So the answers stay right only as long as no copy of a removed key is left.
-/

namespace ZenFs.Tectonic

open KeySet Finset

variable {held kept taken : List Library.Coding.Bytes} {i n : ℕ}
variable {key : Bytes} {start stop : ℕ}

theorem perm_cons_eraseIdx {α : Type} {l : List α} {a : α} (h : l[i]? = some a) :
    l.Perm (a :: l.eraseIdx i) := by
  obtain ⟨hlt, rfl⟩ := List.getElem?_eq_some_iff.mp h
  exact (List.getElem_cons_eraseIdx_perm hlt).symm

variable {p : Bytes × Bytes} {idx : ℕ}

namespace KeyVec

variable {v t : KeyVec}

theorem remove_perm (h : v.remove idx = .ok (key, t)) :
    v.keys.Perm (key :: t.keys) := by
  unfold remove at h
  split at h
  · next k hk =>
    cases h
    exact perm_cons_eraseIdx hk
  · cases h

theorem swapRemove_perm (h : v.swapRemove idx = .ok (key, t)) :
    v.keys.Perm (key :: t.keys) := by
  unfold swapRemove at h
  split at h
  · next k last hk hl =>
    obtain ⟨hlt, rfl⟩ := List.getElem?_eq_some_iff.mp hk
    have hend : v.keys.length - 1 < v.keys.length := by omega
    rw [List.getLast?_eq_getElem?] at hl
    obtain ⟨_, rfl⟩ := List.getElem?_eq_some_iff.mp hl
    cases h
    -- the exchange permutes the keys, and the last one is at the index afterwards
    have hat : ((v.keys.set idx v.keys[v.keys.length - 1]).set (v.keys.length - 1)
        v.keys[idx])[idx]? = some v.keys[v.keys.length - 1] := by
      rw [List.getElem?_set]
      split
      · next he => simp [he, hlt]
      · simp [hlt]
    exact (List.set_set_perm hlt hend).symm.trans (perm_cons_eraseIdx hat)
  · cases h

theorem split_range {α : Type} (l : List α) (h : start ≤ stop) :
    l = l.take start ++ ((l.drop start).take (stop - start) ++ l.drop stop) := by
  have hdrop : l.drop stop = (l.drop start).drop (stop - start) := by
    rw [List.drop_drop, Nat.add_sub_cancel' h]
  rw [hdrop, List.take_append_drop, List.take_append_drop]

theorem removeRange_perm
    (h : v.removeRange start stop = .ok (p, t)) :
    v.keys.Perm ((v.keys.drop start).take (stop - start) ++ t.keys) := by
  unfold removeRange at h
  split at h
  · cases h
  have hle : start ≤ stop := by omega
  dsimp only at h
  split at h
  · cases h
    have hsplit := split_range v.keys hle
    calc v.keys
      _ = v.keys.take start ++ ((v.keys.drop start).take (stop - start) ++ v.keys.drop stop) :=
        hsplit
      _ = v.keys.take start ++ (v.keys.drop start).take (stop - start) ++ v.keys.drop stop :=
        (List.append_assoc _ _ _).symm
      List.Perm _ ((v.keys.drop start).take (stop - start) ++ v.keys.take start ++
          v.keys.drop stop) := List.perm_append_comm.append_right _
      _ = _ := List.append_assoc _ _ _
  · cases h

theorem removeRange_ends (h : v.removeRange start stop = .ok (p, t)) :
    ((v.keys.drop start).take (stop - start)).head? = some p.1 ∧
      ((v.keys.drop start).take (stop - start)).getLast? = some p.2 := by
  unfold removeRange at h
  split at h
  · cases h
  dsimp only at h
  split at h
  · next key1 key2 h1 h2 =>
    cases h
    exact ⟨h1, h2⟩
  · cases h

theorem get_mem (h : v.get idx = .ok key) : key ∈ v.keys := by
  unfold get at h
  split at h
  · next k hk =>
    cases h
    exact List.mem_of_getElem? hk
  · cases h

theorem sort_perm : v.sort.keys.Perm v.keys := by
  unfold sort
  split
  · rfl
  · exact List.perm_insertionSort _ _

end KeyVec

namespace SlotVec

variable {v t : SlotVec}

theorem stored_maybeFlattenInPlace : v.maybeFlattenInPlace.stored = v.stored := by
  unfold maybeFlattenInPlace
  split
  · rfl
  · unfold stored
    induction v.keys with
    | nil => rfl
    | cons slot slots ih => cases slot <;> simp_all

theorem getElem?_of_findFrom (h : v.findFrom n idx = some (i, key)) :
    v.keys[i]? = some (some key) := by
  induction n generalizing idx with
  | zero => cases h
  | succ n ih =>
    unfold findFrom at h
    split at h
    · next k hk =>
      cases h
      exact hk
    · exact ih h

theorem stored_take (h : v.keys[i]? = some (some key)) :
    v.stored.Perm (key :: (v.take i).stored) := by
  have hperm := (perm_cons_eraseIdx h).filterMap id
  have hset : (v.keys.set i none).Perm (none :: v.keys.eraseIdx i) := by
    obtain ⟨hlt, -⟩ := List.getElem?_eq_some_iff.mp h
    have hat : (v.keys.set i none)[i]? = some none := by simp [hlt]
    simpa only [List.eraseIdx_set_eq] using perm_cons_eraseIdx hat
  exact hperm.trans ((hset.filterMap id).symm.cons key)

theorem remove_perm (h : v.remove idx = .ok (key, t)) :
    v.stored.Perm (key :: t.stored) := by
  unfold remove at h
  split at h
  · cases h
  split at h
  · next i k hk =>
    cases h
    rw [stored_maybeFlattenInPlace]
    exact stored_take (getElem?_of_findFrom hk)
  · cases h

theorem get_mem (h : v.get idx = .ok key) : key ∈ v.stored := by
  unfold get at h
  split at h
  · next i k hk =>
    cases h
    exact List.mem_filterMap.mpr ⟨_, List.mem_of_getElem? (getElem?_of_findFrom hk), rfl⟩
  · cases h

theorem stored_clear (h : start ≤ stop) :
    v.stored.Perm (v.within start stop ++ (v.clear start stop).stored) := by
  have hsplit : v.stored = (v.keys.take start).filterMap id ++
      (v.within start stop ++ (v.keys.drop stop).filterMap id) := by
    unfold stored within
    rw [← List.filterMap_append, ← List.filterMap_append, ← KeyVec.split_range v.keys h]
  have hclear : (v.clear start stop).stored =
      (v.keys.take start).filterMap id ++ (v.keys.drop stop).filterMap id := by
    simp [stored, clear]
  rw [hsplit, hclear, ← List.append_assoc, ← List.append_assoc]
  exact List.perm_append_comm.append_right _

theorem removeRange_perm
    (h : v.removeRange start stop = .ok (p, t)) :
    v.stored.Perm (v.within start stop ++ t.stored) := by
  unfold removeRange at h
  split at h
  · cases h
  split at h
  · next key1 key2 h1 h2 =>
    cases h
    have hle : start ≤ stop := by
      by_contra hlt
      have hempty : v.within start stop = [] := by
        simp [within, Nat.sub_eq_zero_of_le (Nat.le_of_not_le hlt)]
      simp [hempty] at h1
    rw [stored_maybeFlattenInPlace]
    exact stored_clear hle
  · cases h

theorem removeRange_ends (h : v.removeRange start stop = .ok (p, t)) :
    (v.within start stop).head? = some p.1 ∧ (v.within start stop).getLast? = some p.2 := by
  unfold removeRange at h
  split at h
  · cases h
  split at h
  · next key1 key2 h1 h2 =>
    cases h
    exact ⟨h1, h2⟩
  · cases h

theorem sort_perm : v.sort.stored.Perm v.stored := by
  unfold sort
  split
  · rfl
  · have hsort := (List.perm_insertionSort slotLe v.maybeFlattenInPlace.keys).filterMap id
    exact hsort.trans (List.Perm.of_eq stored_maybeFlattenInPlace)

end SlotVec

/-- How the methods change the stored keys. -/
structure Lawful (S : Type) [KeySet S] : Prop where
  stored_new : ∀ hashes, stored (new hashes : S) = []
  stored_of_isEmpty : ∀ s : S, isEmpty s = true → stored s = []
  isEmpty_push : ∀ key (s : S), isEmpty (push key s) = false
  stored_push : ∀ key (s : S), stored (push key s) = stored s ++ [key]
  remove_perm : ∀ idx key (s t : S), remove idx s = .ok (key, t) → (stored s).Perm (key :: stored t)
  removeRange_perm : ∀ start stop p (s t : S), removeRange start stop s = .ok (p, t) →
    ∃ window, (stored s).Perm (window ++ stored t) ∧ window.head? = some p.1 ∧
      window.getLast? = some p.2
  get_mem : ∀ idx key (s : S), get idx s = .ok key → key ∈ stored s
  sort_perm : ∀ s t : S, sort s = .ok t → (stored t).Perm (stored s)

theorem except_map_eq_ok {ε α β : Type} {f : α → β} {r : Except ε α} {b : β}
    (h : r.map f = .ok b) : ∃ a, r = .ok a ∧ f a = b := by
  cases r with
  | ok a => exact ⟨a, rfl, by simpa [Except.map] using h⟩
  | error e => cases h

theorem EmptyKeySet.lawful : Lawful EmptyKeySet where
  stored_new _ := rfl
  stored_of_isEmpty _ h := by cases h
  isEmpty_push _ _ := rfl
  stored_push _ _ := rfl
  remove_perm _ _ _ _ h := by cases h
  removeRange_perm _ _ _ _ _ h := by cases h
  get_mem _ _ _ h := by cases h
  sort_perm _ _ h := by cases h

theorem BloomFilterKeySet.lawful : Lawful BloomFilterKeySet where
  stored_new _ := rfl
  stored_of_isEmpty s h := by
    have hlen : s.len = 0 := by simpa [isEmpty] using h
    exact List.length_eq_zero_iff.mp (s.len_eq.symm.trans hlen)
  isEmpty_push _ _ := rfl
  stored_push _ _ := rfl
  remove_perm _ _ _ _ h := by cases h
  removeRange_perm _ _ _ _ _ h := by cases h
  get_mem _ _ _ h := by cases h
  sort_perm _ _ h := by cases h

theorem VecKeySet.lawful : Lawful VecKeySet where
  stored_new _ := rfl
  stored_of_isEmpty _ h := List.isEmpty_iff.mp h
  isEmpty_push _ _ := by simp [isEmpty, push, KeyVec.push]
  stored_push _ _ := rfl
  remove_perm _ _ _ _ h := by
    obtain ⟨_, hr, ⟨⟩⟩ := except_map_eq_ok h
    exact KeyVec.swapRemove_perm hr
  removeRange_perm _ _ _ _ _ h := by
    obtain ⟨_, hr, ⟨⟩⟩ := except_map_eq_ok h
    exact ⟨_, KeyVec.removeRange_perm hr, KeyVec.removeRange_ends hr⟩
  get_mem _ _ _ h := KeyVec.get_mem h
  sort_perm _ _ h := by
    cases h
    exact KeyVec.sort_perm

theorem SlotVec.stored_of_isEmpty {v : SlotVec} (h : v.keys.isEmpty = true) : v.stored = [] := by
  rw [SlotVec.stored, List.isEmpty_iff.mp h, List.filterMap_nil]

theorem SlotVec.stored_push (v : SlotVec) (key : Bytes) :
    (v.push key).stored = v.stored ++ [key] := by
  simp [SlotVec.stored, SlotVec.push]

/-- Every key set obeys the laws. -/
theorem KeySetKind.lawful : (kind : KeySetKind) → Lawful kind.Carrier
  | .empty => EmptyKeySet.lawful
  | .bloomFilter => BloomFilterKeySet.lawful
  | .vec => VecKeySet.lawful
  | .vecHashSet | .vecBloomFilter =>
    { stored_new := fun _ => rfl
      stored_of_isEmpty := fun _ h => List.isEmpty_iff.mp h
      isEmpty_push := fun key s => show (s.vec.keys ++ [key]).isEmpty = false by simp
      stored_push := fun _ _ => rfl
      remove_perm := fun _ _ _ _ h => by
        obtain ⟨_, hr, ⟨⟩⟩ := except_map_eq_ok h
        exact KeyVec.remove_perm hr
      removeRange_perm := fun _ _ _ _ _ h => by
        obtain ⟨_, hr, ⟨⟩⟩ := except_map_eq_ok h
        exact ⟨_, KeyVec.removeRange_perm hr, KeyVec.removeRange_ends hr⟩
      get_mem := fun _ _ _ h => KeyVec.get_mem h
      sort_perm := fun _ _ h => by
        cases h
        exact KeyVec.sort_perm }
  | .vecOption | .vecOptionHashSet =>
    { stored_new := fun _ => rfl
      stored_of_isEmpty := fun _ h => SlotVec.stored_of_isEmpty h
      isEmpty_push := fun key s => show (s.vec.keys ++ [some key]).isEmpty = false by simp
      stored_push := fun _ _ => SlotVec.stored_push _ _
      remove_perm := fun _ _ _ _ h => by
        obtain ⟨_, hr, ⟨⟩⟩ := except_map_eq_ok h
        exact SlotVec.remove_perm hr
      removeRange_perm := fun _ _ _ _ _ h => by
        obtain ⟨_, hr, ⟨⟩⟩ := except_map_eq_ok h
        exact ⟨_, SlotVec.removeRange_perm hr, SlotVec.removeRange_ends hr⟩
      get_mem := fun _ _ _ h => SlotVec.get_mem h
      sort_perm := fun _ _ h => by
        cases h
        exact SlotVec.sort_perm }

/-- A key that is left has lost no copy. -/
def Clean (held kept : List Bytes) : Prop := ∀ key ∈ kept, held.count key ≤ kept.count key

instance (held kept : List Bytes) : Decidable (Clean held kept) :=
  inferInstanceAs (Decidable (∀ key ∈ kept, held.count key ≤ kept.count key))

theorem clean_iff (h : held.Perm (taken ++ kept)) :
    Clean held kept ↔ ∀ key ∈ taken, key ∉ kept := by
  have hcount : ∀ key, held.count key = taken.count key + kept.count key := by
    intro key
    rw [h.count_eq, List.count_append]
  constructor
  · intro hclean key htaken hkept
    have := hclean key hkept
    have := List.count_pos_iff.mpr htaken
    have := hcount key
    omega
  · intro hgone key hkept
    have hnot : key ∉ taken := fun htaken => hgone key htaken hkept
    have := List.count_eq_zero.mpr hnot
    have := hcount key
    omega

/-- An answer that a key is missing is right, and so is the opposite one where the set is
`exact`. -/
def Trusted {S : Type} [KeySet S] (exact : Bool) (s : S) : Prop :=
  ∀ key answer, contains key s = .ok answer →
    (answer = false → key ∉ stored s) ∧ (exact = true → answer = true → key ∈ stored s)

/-- The methods that keep the answers right. -/
structure Trustworthy (S : Type) [KeySet S] (exact : Bool) : Prop where
  new : ∀ hashes, Trusted exact (new hashes : S)
  push : ∀ key (s : S), Trusted exact s → Trusted exact (push key s)
  remove : ∀ idx key (s t : S), remove idx s = .ok (key, t) → Clean (stored s) (stored t) →
    Trusted exact s → Trusted exact t
  removeRange : ∀ start stop p (s t : S), removeRange start stop s = .ok (p, t) →
    Clean (stored s) (stored t) → Trusted exact s → Trusted exact t
  sort : ∀ s t : S, sort s = .ok t → Trusted exact s → Trusted exact t

theorem trusted_of_iff {S : Type} [KeySet S] {exact : Bool} {s : S} {test : Bytes → Prop}
    [DecidablePred test] (hcontains : ∀ key, contains key s = .ok (decide (test key)))
    (htest : ∀ key, test key ↔ key ∈ stored s) : Trusted exact s := by
  intro key answer h
  rw [hcontains] at h
  cases h
  simp [htest]

theorem iff_of_trusted {S : Type} [KeySet S] {s : S} {test : Bytes → Prop} [DecidablePred test]
    (h : Trusted true s) (hcontains : ∀ key, contains key s = .ok (decide (test key)))
    (key : Bytes) : test key ↔ key ∈ stored s := by
  obtain ⟨hmissing, hfound⟩ := h key _ (hcontains key)
  by_cases ht : test key
  · simpa [ht] using hfound rfl
  · simpa [ht] using hmissing

theorem mem_sdiff_iff {set : Finset Bytes} {held taken kept : List Bytes}
    (hset : ∀ key, key ∈ set ↔ key ∈ held) (hperm : held.Perm (taken ++ kept))
    (hclean : Clean held kept) (key : Bytes) : key ∈ set \ taken.toFinset ↔ key ∈ kept := by
  have hgone := (clean_iff hperm).mp hclean
  rw [mem_sdiff, List.mem_toFinset, hset, hperm.mem_iff, List.mem_append]
  constructor
  · rintro ⟨htaken | hkept, hnot⟩
    · exact absurd htaken hnot
    · exact hkept
  · intro hkept
    exact ⟨.inr hkept, fun htaken => hgone key htaken hkept⟩

theorem mem_erase_iff {set : Finset Bytes} {held kept : List Bytes} {gone : Bytes}
    (hset : ∀ key, key ∈ set ↔ key ∈ held) (hperm : held.Perm (gone :: kept))
    (hclean : Clean held kept) (key : Bytes) : key ∈ set.erase gone ↔ key ∈ kept := by
  have hmem := mem_sdiff_iff hset (show held.Perm ([gone] ++ kept) from hperm) hclean key
  rw [erase_eq]
  simpa only [List.toFinset_cons, List.toFinset_nil, insert_empty_eq] using hmem

theorem trustworthy_of_trusted {S : Type} [KeySet S] {exact : Bool} (h : ∀ s : S, Trusted exact s) :
    Trustworthy S exact :=
  ⟨fun _ => h _, fun _ _ _ => h _, fun _ _ _ t _ _ _ => h t, fun _ _ _ _ t _ _ _ => h t,
    fun _ t _ _ => h t⟩

theorem VecHashSetKeySet.trusted_iff {s : VecHashSetKeySet} :
    Trusted true s ↔ ∀ key, key ∈ s.keySet ↔ key ∈ s.vec.keys :=
  ⟨fun h => iff_of_trusted h fun _ => rfl, fun h => trusted_of_iff (fun _ => rfl) h⟩

theorem VecHashSetKeySet.trustworthy : Trustworthy VecHashSetKeySet true where
  new _ := trusted_iff.mpr fun key => by simp [KeySet.new, KeyVec.empty]
  push key s h := trusted_iff.mpr fun k => by
    have := trusted_iff.mp h k
    simp only [KeySet.push, KeyVec.push, mem_insert, List.mem_append, List.mem_singleton]
    tauto
  remove _ _ _ _ hr hclean h := by
    obtain ⟨_, hvec, ⟨⟩⟩ := except_map_eq_ok hr
    exact trusted_iff.mpr (mem_erase_iff (trusted_iff.mp h) (KeyVec.remove_perm hvec) hclean)
  removeRange _ _ _ _ _ hr hclean h := by
    obtain ⟨_, hvec, ⟨⟩⟩ := except_map_eq_ok hr
    exact trusted_iff.mpr (mem_sdiff_iff (trusted_iff.mp h) (KeyVec.removeRange_perm hvec) hclean)
  sort s _ hs h := by
    cases hs
    exact trusted_iff.mpr fun key => (trusted_iff.mp h key).trans KeyVec.sort_perm.mem_iff.symm

theorem VecOptionHashSetKeySet.trusted_iff {s : VecOptionHashSetKeySet} :
    Trusted true s ↔ ∀ key, key ∈ s.set ↔ key ∈ s.vec.stored :=
  ⟨fun h => iff_of_trusted h fun _ => rfl, fun h => trusted_of_iff (fun _ => rfl) h⟩

theorem VecOptionHashSetKeySet.trustworthy : Trustworthy VecOptionHashSetKeySet true where
  new _ := trusted_iff.mpr fun key => by simp [KeySet.new, SlotVec.empty, SlotVec.stored]
  push key s h := trusted_iff.mpr fun k => by
    have := trusted_iff.mp h k
    simp only [KeySet.push, SlotVec.stored_push, mem_insert, List.mem_append,
      List.mem_singleton]
    tauto
  remove _ _ _ _ hr hclean h := by
    obtain ⟨_, hvec, ⟨⟩⟩ := except_map_eq_ok hr
    exact trusted_iff.mpr (mem_erase_iff (trusted_iff.mp h) (SlotVec.remove_perm hvec) hclean)
  removeRange _ _ _ _ _ hr hclean h := by
    obtain ⟨_, hvec, ⟨⟩⟩ := except_map_eq_ok hr
    exact trusted_iff.mpr (mem_sdiff_iff (trusted_iff.mp h) (SlotVec.removeRange_perm hvec) hclean)
  sort s _ hs h := by
    cases hs
    exact trusted_iff.mpr fun key => (trusted_iff.mp h key).trans SlotVec.sort_perm.mem_iff.symm

variable {f : BloomFilter}

namespace BloomFilter

theorem contains_insert_self (f : BloomFilter) : (f.insert key).contains key = true := by
  simp only [contains, insert, List.all_eq_true, decide_eq_true_eq, List.mem_append]
  exact fun bit hbit => .inl hbit

theorem contains_insert (other : Bytes)
    (h : f.contains key = true) : (f.insert other).contains key = true := by
  simp only [contains, insert, List.all_eq_true, decide_eq_true_eq, List.mem_append] at h ⊢
  exact fun bit hbit => .inr (h bit hbit)

theorem contains_insert_append {keys : List Bytes} (other : Bytes)
    (h : ∀ key ∈ keys, f.contains key = true) :
    ∀ key ∈ keys ++ [other], (f.insert other).contains key = true := by
  intro key hkey
  obtain hold | rfl := by simpa using hkey
  · exact contains_insert other (h key hold)
  · exact contains_insert_self f

end BloomFilter

theorem trusted_false_iff {S : Type} [KeySet S] {s : S}
    (hcontains : ∀ key, contains key s = .ok (f.contains key)) :
    Trusted false s ↔ ∀ key ∈ stored s, f.contains key = true := by
  constructor
  · intro h key hkey
    by_contra hnot
    exact (h key _ (hcontains key)).1 (by simpa using hnot) hkey
  · intro h key answer hanswer
    rw [hcontains] at hanswer
    cases hanswer
    constructor
    · intro hfalse hkey
      rw [h key hkey] at hfalse
      cases hfalse
    · intro hexact
      cases hexact

theorem BloomFilterKeySet.trusted_iff {s : BloomFilterKeySet} :
    Trusted false s ↔ ∀ key ∈ s.pushed, s.bf.contains key = true :=
  trusted_false_iff fun _ => rfl

theorem BloomFilterKeySet.trustworthy : Trustworthy BloomFilterKeySet false where
  new _ := trusted_iff.mpr (by simp [KeySet.new])
  push key _ h := trusted_iff.mpr (BloomFilter.contains_insert_append key (trusted_iff.mp h))
  remove _ _ _ _ hr := by cases hr
  removeRange _ _ _ _ _ hr := by cases hr
  sort _ _ hs := by cases hs

theorem VecBloomFilterKeySet.trusted_iff {s : VecBloomFilterKeySet} :
    Trusted false s ↔ ∀ key ∈ s.vec.keys, s.bf.contains key = true :=
  trusted_false_iff fun _ => rfl

/-- The filter stays as it is when keys are taken out. -/
theorem VecBloomFilterKeySet.trustworthy : Trustworthy VecBloomFilterKeySet false where
  new _ := trusted_iff.mpr (by simp [KeySet.new, KeyVec.empty])
  push key _ h := trusted_iff.mpr (BloomFilter.contains_insert_append key (trusted_iff.mp h))
  remove _ _ _ _ hr _ h := by
    obtain ⟨_, hvec, ⟨⟩⟩ := except_map_eq_ok hr
    refine trusted_iff.mpr fun key hkey => trusted_iff.mp h key ?_
    exact (KeyVec.remove_perm hvec).mem_iff.mpr (List.mem_cons_of_mem _ hkey)
  removeRange _ _ _ _ _ hr _ h := by
    obtain ⟨_, hvec, ⟨⟩⟩ := except_map_eq_ok hr
    refine trusted_iff.mpr fun key hkey => trusted_iff.mp h key ?_
    exact (KeyVec.removeRange_perm hvec).mem_iff.mpr (List.mem_append_right _ hkey)
  sort _ _ hs h := by
    cases hs
    exact trusted_iff.mpr fun key hkey => trusted_iff.mp h key (KeyVec.sort_perm.mem_iff.mp hkey)

def KeySetKind.exact : KeySetKind → Bool
  | vecBloomFilter | bloomFilter => false
  | _ => true

theorem KeySetKind.trustworthy :
    (kind : KeySetKind) → kind ≠ .empty → Trustworthy kind.Carrier kind.exact
  | .empty, h => absurd rfl h
  | .vecOptionHashSet, _ => VecOptionHashSetKeySet.trustworthy
  | .vecHashSet, _ => VecHashSetKeySet.trustworthy
  | .vecOption, _ => trustworthy_of_trusted fun _ _ _ h => nomatch h
  | .vec, _ => trustworthy_of_trusted (S := VecKeySet) fun _ _ _ h => by
    cases h
    simp [stored]
  | .vecBloomFilter, _ => VecBloomFilterKeySet.trustworthy
  | .bloomFilter, _ => BloomFilterKeySet.trustworthy

/-- The call ends in the panic of a method that the key set does not support. -/
def Unsupported {α : Type} (r : Except Stop α) : Prop := ∃ msg, r = .error (.unsupported msg)

theorem unsupported_map {α β : Type} {f : α → β} {r : Except Stop α} :
    Unsupported (r.map f) ↔ Unsupported r := by
  cases r <;> simp [Unsupported, Except.map]

theorem KeyVec.supports (v : KeyVec) :
    (∀ idx, ¬ Unsupported (v.remove idx)) ∧ (∀ idx, ¬ Unsupported (v.swapRemove idx)) ∧
      (∀ start stop, ¬ Unsupported (v.removeRange start stop)) ∧
        ∀ idx, ¬ Unsupported (v.get idx) := by
  refine ⟨fun idx => ?_, fun idx => ?_, fun start stop => ?_, fun idx => ?_⟩
  · unfold remove
    split <;> simp [Unsupported]
  · unfold swapRemove
    split <;> simp [Unsupported]
  · unfold removeRange
    split
    · simp [Unsupported]
    · dsimp only
      split <;> simp [Unsupported]
  · unfold get
    split <;> simp [Unsupported]

theorem SlotVec.supports (v : SlotVec) :
    (∀ idx, ¬ Unsupported (v.remove idx)) ∧
      (∀ start stop, ¬ Unsupported (v.removeRange start stop)) ∧
        ∀ idx, ¬ Unsupported (v.get idx) := by
  refine ⟨fun idx => ?_, fun start stop => ?_, fun idx => ?_⟩
  · unfold remove
    split
    · simp [Unsupported]
    · split <;> simp [Unsupported]
  · unfold removeRange
    split
    · simp [Unsupported]
    · split <;> simp [Unsupported]
  · unfold get
    split <;> simp [Unsupported]

def Checks (S : Type) [KeySet S] : Prop := ∀ key (s : S), ¬ Unsupported (contains key s)

/-- The methods that look keys up by their index can be called, and the set can be sorted. -/
structure Selects (S : Type) [KeySet S] : Prop where
  get : ∀ idx (s : S), ¬ Unsupported (get idx s)
  remove : ∀ idx (s : S), ¬ Unsupported (remove idx s)
  removeRange : ∀ start stop (s : S), ¬ Unsupported (removeRange start stop s)
  sort : ∀ s : S, ¬ Unsupported (sort s)

theorem KeySetKind.checks : (kind : KeySetKind) → kind ≠ .vecOption → Checks kind.Carrier
  | .vecOption, h => absurd rfl h
  | .empty, _ | .vecOptionHashSet, _ | .vecHashSet, _ | .vec, _ | .vecBloomFilter, _
  | .bloomFilter, _ => by
    rintro key s ⟨msg, h⟩
    cases h

theorem KeySetKind.selects :
    (kind : KeySetKind) → kind ≠ .empty → kind ≠ .bloomFilter → Selects kind.Carrier
  | .empty, h, _ => absurd rfl h
  | .bloomFilter, _, h => absurd rfl h
  | .vecOptionHashSet, _, _ | .vecOption, _, _ =>
    { get := fun idx s => s.vec.supports.2.2 idx
      remove := fun idx s => unsupported_map.not.mpr (s.vec.supports.1 idx)
      removeRange := fun start stop s => unsupported_map.not.mpr (s.vec.supports.2.1 start stop)
      sort := fun s => by rintro ⟨msg, h⟩; cases h }
  | .vecHashSet, _, _ | .vecBloomFilter, _, _ =>
    { get := fun idx s => s.vec.supports.2.2.2 idx
      remove := fun idx s => unsupported_map.not.mpr (s.vec.supports.1 idx)
      removeRange := fun start stop s => unsupported_map.not.mpr (s.vec.supports.2.2.1 start stop)
      sort := fun s => by rintro ⟨msg, h⟩; cases h }
  | .vec, _, _ =>
    { get := fun idx s => s.vec.supports.2.2.2 idx
      remove := fun idx s => unsupported_map.not.mpr (s.vec.supports.2.1 idx)
      removeRange := fun start stop s => unsupported_map.not.mpr (s.vec.supports.2.2.1 start stop)
      sort := fun s => by rintro ⟨msg, h⟩; cases h }

end ZenFs.Tectonic
