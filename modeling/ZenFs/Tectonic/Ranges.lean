import ZenFs.Tectonic.Generate
import ZenFs.Tectonic.KeySetLaws

/-!
The range operations of the key sets: with which range lengths they succeed.
-/

namespace ZenFs.Tectonic

open KeySet Library List Nat

variable {idx j n start : ℕ} {key : Coding.Bytes}
variable {ρ : Type} {w : World ρ}

def KeySetKind.slots : (kind : KeySetKind) → kind.Carrier → List (Option Bytes)
  | .vec, s | .vecHashSet, s | .vecBloomFilter, s => s.vec.keys.map some
  | .vecOption, s | .vecOptionHashSet, s => s.vec.keys
  | .empty, _ | .bloomFilter, _ => []

def KeySetKind.window (kind : KeySetKind) (s : kind.Carrier) (start n : ℕ) : List (Option Bytes) :=
  ((kind.slots s).drop start).take n

theorem exists_map_eq_ok {ε α β : Type} {f : α → β} {r : Except ε α} :
    (∃ b, r.map f = .ok b) ↔ ∃ a, r = .ok a := by
  cases r <;> simp [Except.map]

theorem KeyVec.exists_removeRange {v : KeyVec} (hn : 0 < n) (hstop : start + n ≤ v.keys.length) :
    ∃ p, v.removeRange start (start + n) = .ok p := by
  have hne : (v.keys.drop start).take n ≠ [] := by
    apply ne_nil_of_length_pos
    rw [length_take, length_drop]
    omega
  unfold removeRange
  rw [if_neg (by omega), Nat.add_sub_cancel_left]
  dsimp only
  rw [List.head?_eq_some_head hne, getLast?_eq_some_getLast hne]
  exact ⟨_, rfl⟩

namespace SlotVec

variable {v : SlotVec}

theorem exists_removeRange_iff (hstop : start + n ≤ v.keys.length) :
    (∃ p, v.removeRange start (start + n) = .ok p) ↔
      ∃ key, some key ∈ (v.keys.drop start).take n := by
  have hwithin : (∃ key, some key ∈ (v.keys.drop start).take n) ↔
      v.within start (start + n) ≠ [] := by
    simp [within, eq_nil_iff_forall_not_mem]
  unfold removeRange
  rw [if_neg (by omega), hwithin]
  cases v.within start (start + n) with
  | nil => simp
  | cons key keys => simp [getLast?_cons]

theorem exists_findFrom (hidx : idx < v.keys.length) (hj : j < n)
    (h : v.keys[(idx + j) % v.keys.length]? = some (some key)) :
    ∃ p, v.findFrom n idx = some p := by
  induction n generalizing idx j with
  | zero => omega
  | succ n ih =>
    unfold findFrom
    split
    · exact ⟨_, rfl⟩
    · next hnone =>
      cases j with
      | zero =>
        rw [add_zero, mod_eq_of_lt hidx] at h
        exact absurd h (hnone key)
      | succ j =>
        refine ih (mod_lt _ (by omega)) (lt_of_succ_lt_succ hj) ?_
        rwa [mod_add_mod, add_right_comm]

theorem exists_get (hidx : idx < v.keys.length) (h : some key ∈ v.keys) :
    ∃ found, v.get idx = .ok found := by
  obtain ⟨i, hi⟩ := mem_iff_getElem?.mp h
  have hlt := (List.getElem?_eq_some_iff.mp hi).1
  have hat : (idx + (i + v.keys.length - idx) % v.keys.length) % v.keys.length = i := by
    rw [Nat.add_mod_mod, Nat.add_sub_cancel' (by omega), Nat.add_mod_right, Nat.mod_eq_of_lt hlt]
  obtain ⟨p, hp⟩ := exists_findFrom hidx (mod_lt _ (by omega)) (hat ▸ hi)
  exact ⟨p.2, by rw [get, hp]⟩

end SlotVec

theorem KeySetKind.exists_removeRange_iff : (kind : KeySetKind) → {s : kind.Carrier} → 0 < n →
    start + n ≤ len s → ((∃ p, removeRange start (start + n) s = .ok p) ↔
      ∃ key, some key ∈ kind.window s start n)
  | .vec, s, hn, hstop | .vecHashSet, s, hn, hstop | .vecBloomFilter, s, hn, hstop => by
    refine iff_of_true (exists_map_eq_ok.mpr (KeyVec.exists_removeRange hn hstop)) ?_
    have hlt : start < s.vec.keys.length := lt_of_lt_of_le (by omega) hstop
    refine ⟨s.vec.keys[start], mem_take_iff_getElem.mpr ⟨0, ?_, ?_⟩⟩
    · simp [slots, hn, hlt]
    · simp [slots]
  | .vecOption, _, _, hstop | .vecOptionHashSet, _, _, hstop =>
    exists_map_eq_ok.trans (SlotVec.exists_removeRange_iff hstop)
  | .empty, _, _, _ | .bloomFilter, _, _, _ => by
    constructor
    · rintro ⟨_, h⟩
      cases h
    · rintro ⟨_, h⟩
      simp [window, slots] at h

theorem KeySetKind.exists_get : (kind : KeySetKind) → {s : kind.Carrier} → idx < len s →
    some key ∈ kind.slots s → ∃ found, KeySet.get idx s = .ok found
  | .vec, s, hidx, _ | .vecHashSet, s, hidx, _ | .vecBloomFilter, s, hidx, _ =>
    ⟨s.vec.keys.get ⟨idx, hidx⟩, by
      show s.vec.get idx = _
      rw [KeyVec.get, getElem?_eq_getElem hidx]
      rfl⟩
  | .vecOption, _, hidx, h | .vecOptionHashSet, _, hidx, h => SlotVec.exists_get hidx h
  | .empty, _, _, h | .bloomFilter, _, _, h => by simp [slots] at h

/-- The range operations with the range length `n`: the window has at least one position and
at most all, there is a start to draw, the indices are those of positions, and every method
returns. -/
structure RangesTotal (w : World ρ) {S : Type} [KeySet S] (n : ℕ) (d : Distribution)
    (g : Gen ρ S) : Prop where
  window : 0 < n ∧ n ≤ len g.keys
  interval : 0 < len g.keys - n
  inBounds : ∃ start, (rangeStart w n d g).1 = .ok start ∧ start + n < len g.keys
  getRange : ∃ keys, (getRangeRandom w n d g).1 = .ok keys
  getStart : ∃ found, (getRandomRangeStart w n d g).1 = .ok found
  removeRange : ∃ removed, (removeRangeRandom w n d g).1 = .ok removed

variable {kind : KeySetKind} {g : Gen ρ kind.Carrier} {d : Distribution}

theorem rangeStart_eq (hn : n < len g.keys) :
    rangeStart w n d g = (.ok (w.index d (len g.keys - n) g.rng).1,
      g.setRng (w.index d (len g.keys - n) g.rng).2) := by
  have hpos : len g.keys - n ≠ 0 := by omega
  simp [rangeStart, numKeys, draw, usub, Distribution.evaluateIndex, Act.act, Act.read, Act.zoom,
    bind, Act.bind, Pure.pure, Act.pure, Gen.setRng, hn.le, hpos]

theorem draw_uadd_eq {a b : ℕ} (h : a + b < 2 ^ 64) : draw (uadd w a b) g = (.ok (a + b), g) := by
  simp only [draw, uadd, Act.zoom, if_pos h]
  rfl

theorem removeRangeRandom_fst (hlen : len g.keys < 2 ^ 64) (hn : n < len g.keys) :
    (removeRangeRandom w n d g).1 = KeySet.removeRange (w.index d (len g.keys - n) g.rng).1
      ((w.index d (len g.keys - n) g.rng).1 + n) g.keys := by
  have hstart := w.index_lt d (len g.keys - n) g.rng (by omega)
  simp only [removeRangeRandom, bind, Act.bind, rangeStart_eq hn]
  rw [draw_uadd_eq (by omega)]
  rfl

theorem rangesTotal_iff (hlen : len g.keys < 2 ^ 64) :
    RangesTotal w n d g ↔ 0 < n ∧ n < len g.keys ∧
      ∃ key, some key ∈ kind.window g.keys (w.index d (len g.keys - n) g.rng).1 n := by
  constructor
  · rintro ⟨⟨hpos, -⟩, hinterval, -, -, -, hremoved⟩
    have hn : n < len g.keys := by omega
    have hstart := w.index_lt d (len g.keys - n) g.rng hinterval
    rw [removeRangeRandom_fst hlen hn] at hremoved
    exact ⟨hpos, hn, (kind.exists_removeRange_iff hpos (by omega)).mp hremoved⟩
  · rintro ⟨hpos, hn, key, hkey⟩
    have hstart := w.index_lt d (len g.keys - n) g.rng (by omega)
    have hslot : some key ∈ kind.slots g.keys := mem_of_mem_drop (mem_of_mem_take hkey)
    have hget : ∀ idx < len g.keys, ∃ found, KeySet.get idx g.keys = .ok found :=
      fun idx hidx => kind.exists_get hidx hslot
    obtain ⟨key1, hkey1⟩ := hget (w.index d (len g.keys - n) g.rng).1 (by omega)
    obtain ⟨key2, hkey2⟩ := hget ((w.index d (len g.keys - n) g.rng).1 + n) (by omega)
    refine ⟨⟨hpos, hn.le⟩, by omega, ⟨_, by rw [rangeStart_eq hn], by omega⟩, ⟨(key1, key2), ?_⟩,
      ⟨((w.index d (len g.keys - n) g.rng).1, key1), ?_⟩, ?_⟩
    · simp only [getRangeRandom, bind, Act.bind, rangeStart_eq hn]
      rw [draw_uadd_eq (by omega)]
      simp only [ask, Gen.setRng, hkey1, hkey2]
      rfl
    · simp only [getRandomRangeStart, bind, Act.bind, rangeStart_eq hn, ask, Gen.setRng, hkey1]
      rfl
    · rw [removeRangeRandom_fst hlen hn]
      exact (kind.exists_removeRange_iff hpos (by omega)).mpr ⟨key, hkey⟩

theorem asUsize_lt_iff {x : ℚ} {m : ℕ} (h0 : 0 ≤ x) (hm : m < 2 ^ 64) :
    asUsize x < m ↔ x < m := by
  have hfloor : ⌊x⌋.toNat < m ↔ x < m := by
    rw [Int.toNat_lt (Int.floor_nonneg.mpr h0), Int.floor_lt, Int.cast_natCast]
  rw [← hfloor, asUsize, min_lt_iff]
  omega

/-- With a selectivity given, the range operations succeed exactly if its product with
the number of keys, as it is rounded, is at least 1 and less than that number, and the window
that is drawn holds a key. -/
theorem range_operations_iff {x : ℚ} (w : World ρ) (kind : KeySetKind) (g : Gen ρ kind.Carrier)
    (selectivity : NumberExpr) (scanLength : Option NumberExpr) (d : Distribution)
    (hx : (selectivity.evaluate w g.rng).1 = .ok x) (hlen : len g.keys < 2 ^ 64) :
    ∃ n rng, getRangeLength w (some selectivity) scanLength (len g.keys) g.rng = (.ok n, rng) ∧
      (RangesTotal w n d (g.setRng rng) ↔ 1 ≤ asF64 (x * asF64 (len g.keys)) ∧
        asF64 (x * asF64 (len g.keys)) < len g.keys ∧
        ∃ key, some key ∈ kind.window g.keys (w.index d (len g.keys - n) rng).1 n) := by
  refine ⟨asUsize (asF64 (x * asF64 (len g.keys))), (selectivity.evaluate w g.rng).2, ?_, ?_⟩
  · have hpair : selectivity.evaluate w g.rng = (.ok x, (selectivity.evaluate w g.rng).2) :=
      Prod.ext hx rfl
    simp only [getRangeLength, bind, Act.bind]
    rw [hpair]
    rfl
  · refine (rangesTotal_iff (g := g.setRng (selectivity.evaluate w g.rng).2) hlen).trans ?_
    rw [asUsize_pos_iff]
    refine and_congr_right fun hone => ?_
    exact and_congr_left' (asUsize_lt_iff (zero_le_one.trans hone) hlen)

def twoKeys : Gen ℕ KeySetKind.vec.Carrier := ⟨0, 0, ⟨⟨[[97], [98]], true⟩⟩, none, [], []⟩

theorem range_operations_half :
    ∃ n rng, getRangeLength tickWorld (some (.constant (1 / 2))) none 2 0 = (.ok n, rng) ∧
      RangesTotal tickWorld n .defaultKeySelection (twoKeys.setRng rng) := by
  obtain ⟨n, rng, hn, htotal⟩ := range_operations_iff tickWorld .vec twoKeys (.constant (1 / 2)) none
    .defaultKeySelection rfl (by decide +kernel)
  refine ⟨n, rng, hn, htotal.mpr ⟨by decide +kernel, by decide +kernel, ?_⟩⟩
  have hone : (Except.ok n, rng) = (Except.ok 1, 0) := hn.symm.trans (by decide +kernel)
  cases hone
  exact ⟨[97], by decide⟩

-- The exact product of the selectivity and 10 is less than 7.
example : (getRangeLength tickWorld (some (.constant (asF64 (7 / 10)))) none 10 0).1 = .ok 7 := by
  decide +kernel

/-- A range query over all of the keys asks for one more. -/
theorem full_range_panics :
    (getRangeLength tickWorld (some (.constant 1)) none 2 0).1 = .ok 2 ∧
      (getRangeRandom tickWorld 2 .defaultKeySelection twoKeys).1 =
        .error (.panic "index out of bounds") := by
  decide +kernel

end ZenFs.Tectonic
