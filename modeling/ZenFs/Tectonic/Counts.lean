import ZenFs.Tectonic.Dispatch

/-!
How many operations of every kind a group makes.

A group that starts without keys inserts one before its markers. It takes this insert off the
count of its unique inserts if it specifies any, also where that count is 0. In a release build
the count then wraps around, the sum of the counters overflows, and no marker follows.
-/

namespace ZenFs.Tectonic

open Library KeySet List Prod

variable {cs : Option CharacterSet} {e : Stop} {i k total : ℕ} {msg msg' : String}
variable {own : Option StringExpr} {unique upserts : List (Op × ℕ)}
variable {ρ S α β : Type} {w : World ρ} {c : Context} {op : Op} {g t : Gen ρ S} {u p n : ℕ}
  {made : List Op} {m : Act (Gen ρ S) Stop α} {counts : List (Op × ℕ)}

/-- The kinds of the operations that have made their calls. -/
def Gen.markers (g : Gen ρ S) : List Op := g.out.filterMap Event.marker

/-- The call is one that an operation of the kind makes. A blind point delete makes a query. -/
def Op.makes : Op → Call → Bool
  | .uniqueInsert, .insert _ _ | .upsert, .insert _ _ | .update, .update _ _ => true
  | .merge, .merge _ _ | .pointDelete, .pointDelete _ | .pointDeleteEmpty, .pointDelete _ => true
  | .rangeDelete, .rangeDelete _ _ | .rangeDelete, .rangeDeleteCount _ _ => true
  | .pointQuery, .pointQuery _ | .emptyPointQuery, .pointQuery _ => true
  | .rangeQuery, .rangeQuery _ _ | .rangeQuery, .rangeQueryCount _ _ => true
  | .blindPointQuery, .pointQuery _ | .blindPointDelete, .pointQuery _ => true
  | .blindRangeQuery, .rangeQueryCount _ _ => true
  | _, _ => false

/-- A call made for an operation is of its kind. -/
def Event.Marked (e : Event) : Prop := ∀ op ∈ e.marker, op.makes e.call

theorem Change.marked [KeySet S] {kind : KeySetKind} {occurs : Op → Prop}
    (h : Change kind occurs g t) (hout : ∀ e ∈ g.out, e.Marked) : ∀ e ∈ t.out, e.Marked := by
  have hadd (marker : Option Op) (call : Call) (keys : S) (hcall : ∀ op ∈ marker, op.makes call) :
      ∀ e ∈ (g.addEvent marker call keys).out, e.Marked :=
    forall_mem_append.mpr ⟨hout, forall_mem_singleton.mpr hcall⟩
  cases h with
  | draw | renew | sort | probe => exact hout
  | passive op call hcall => exact hadd _ _ _ (by cases hcall <;> simp [Op.makes])
  | first op hop => exact hadd _ _ _ (by rcases hop with rfl | rfl <;> simp [Op.makes])
  | lookup op hoccurs key call hcall => exact hadd _ _ _ (by cases hcall <;> simp [Op.makes])
  | absent op hoccurs key call hcall => exact hadd _ _ _ (by cases hcall <;> simp [Op.makes])
  | uniqueInsert | upsert | pointDelete | rangeDelete | rangeDeleteCount =>
    exact hadd _ _ _ (by simp [Op.makes])

/-- In every workload the markers say which calls are made. -/
theorem generated_marked (w : World ρ) (workload : WorkloadSpec) :
    ∀ e ∈ (generated w workload).out, e.Marked := by
  obtain ⟨-, h⟩ := generated_rule w workload (I := fun _ s => ∀ e ∈ s.out, e.Marked)
    (by simp) (fun _ _ _ _ hs => hs) (fun _ _ _ _ _ _ h hchange => hchange.marked h)
    (fun _ _ _ _ _ h => h)
  exact h

/-- A run that returns makes calls of the given kinds. -/
def Emits (made : List Op) (m : Act (Gen ρ S) Stop α) : Prop :=
  ∀ g a t, m g = (.ok a, t) → t.markers = g.markers ++ made

theorem emits_nil (h : ∀ g, (m g).2.out = g.out) : Emits [] m := by
  intro g a t ht
  rw [append_nil, Gen.markers, Gen.markers, ← h g, ht]

theorem Emits.bind {f : α → Act (Gen ρ S) Stop β} (hm : Emits [] m)
    (hf : ∀ a, Emits made (f a)) : Emits made (m >>= f) := by
  intro g b u h
  obtain ⟨a, t, ht, hu⟩ := Act.exists_of_bind h
  rw [hf a t b u hu, hm g a t ht, append_nil]

theorem emits_stopIf {condition : Prop} [Decidable condition] :
    Emits [] (stopIf condition e : Act (Gen ρ S) Stop Unit) := by
  refine emits_nil fun g => ?_
  unfold stopIf
  split <;> rfl

theorem emits_okOr {a : Option α} : Emits [] (okOr msg a : Act (Gen ρ S) Stop α) :=
  emits_nil fun g => by cases a <;> rfl

theorem emits_expect {a : Option α} : Emits [] (expect msg a : Act (Gen ρ S) Stop α) :=
  emits_nil fun g => by cases a <;> rfl

theorem emits_makeKey : Emits [] (makeKey w c own cs msg : Act (Gen ρ S) Stop Bytes) :=
  .bind emits_expect fun _ => emits_nil fun _ => rfl

theorem emits_nextKey : Emits [] (nextKey w c own cs msg : Act (Gen ρ S) Stop Bytes) := by
  refine .bind (emits_nil fun g => ?_) fun pooled => ?_
  · simp only [Act.act, Gen.popPool]
    split <;> rfl
  · cases pooled with
    | some => exact emits_nil fun _ => rfl
    | none => exact emits_makeKey

theorem emits_makePool : Emits [] (makePool w c u p : Act (Gen ρ S) Stop Unit) := by
  have hkeys {inserts : Option Inserts} {msg : String} (n : ℕ) :
      Emits [] (poolKeys w c inserts msg n : Act (Gen ρ S) Stop (List Bytes)) := by
    induction n with
    | zero => exact emits_nil fun _ => rfl
    | succ n ih =>
      cases inserts with
      | none => exact emits_nil fun _ => rfl
      | some => exact .bind emits_makeKey fun _ => .bind ih fun _ => emits_nil fun _ => rfl
  unfold makePool
  cases c.group.sorted with
  | none => exact emits_nil fun _ => rfl
  | some =>
    refine .bind emits_stopIf fun _ => .bind (hkeys u) fun _ => .bind (hkeys p) fun _ => ?_
    exact .bind (emits_nil fun _ => rfl) fun _ => .bind (emits_nil fun _ => rfl) fun _ =>
      emits_nil fun _ => rfl

variable [KeySet S]

theorem emits_emit {call : Call} {keys : S} :
    Emits [op] (emit (some op) call keys : Act (Gen ρ S) Stop Unit) := by
  rintro g _ _ ⟨⟩
  simp [Gen.markers, Gen.addEvent]

theorem emits_report {call : Call} :
    Emits [op] (report (some op) call : Act (Gen ρ S) Stop Unit) := by
  rintro g _ _ ⟨⟩
  simp [Gen.markers, Gen.addEvent]

theorem emits_freshKey {kind : KeySetKind} {next : Act (Gen ρ S) Stop Bytes}
    (h : Emits [] next) : Emits [] (freshKey kind next n) := by
  induction n with
  | zero => exact emits_nil fun _ => rfl
  | succ n ih =>
    refine .bind h fun key => .bind (.bind (emits_nil fun _ => rfl) fun _ => ?_) fun found => ?_
    · exact .bind (emits_nil fun _ => rfl) fun _ => emits_nil fun _ => rfl
    · cases found
      · exact emits_nil fun _ => rfl
      · exact ih

theorem emits_insertKey {is : Inserts} {key : Bytes} :
    Emits [op] (insertKey w c op is key msg : Act (Gen ρ S) Stop Unit) :=
  .bind (.bind emits_expect fun _ => emits_nil fun _ => rfl) fun _ =>
    .bind (emits_nil fun _ => rfl) fun _ => emits_emit

/-- One marker makes one operation of its kind. -/
theorem emits_perform : Emits [op] (perform w c op : Act (Gen ρ S) Stop Unit) := by
  cases op
  all_goals
    simp only [perform, performUniqueInsert, performUpsert, performUpdate, performMerge,
      performPointDelete, performPointDeleteEmpty, performRangeDelete, performPointQuery,
      performEmptyPointQuery, performRangeQuery, performBlindPointQuery, performBlindPointDelete,
      performBlindRangeQuery, makeValue, requireKeys, getRandom, removeRandom, rangeStart,
      getRandomRangeStart, getRangeRandom, removeRangeRandom, sortKeys]
    -- every step is silent, but for the last one
    repeat' first
      | exact emits_emit
      | exact emits_report
      | exact emits_insertKey
      | exact emits_okOr
      | exact emits_expect
      | exact emits_stopIf
      | exact emits_makeKey
      | exact emits_nextKey
      | apply emits_freshKey
      | exact emits_nil fun _ => rfl
      | split
      | refine .bind ?_ fun _ => ?_

/-- The operations that counters announce. -/
def spread (counts : List (Op × ℕ)) : List Op :=
  counts.flatMap fun count => replicate count.2 count.1

theorem length_spread : (spread counts).length = (counts.map snd).sum := by
  simp [spread, length_flatMap]

theorem spread_set (h : counts[i]? = some (op, n + 1)) :
    spread counts ~ op :: spread (counts.set i (op, n)) := by
  induction counts generalizing i with
  | nil => cases h
  | cons count rest ih =>
    cases i with
    | zero =>
      cases h
      exact .refl _
    | succ i => exact ((ih h).append_left _).trans perm_middle

theorem markerLoop_ok {r : ρ} (hsum : (counts.map snd).sum = total)
    (h : markerLoop w c total counts r g = (.ok (), t)) :
    ∃ made, t.markers = g.markers ++ made ∧ made ~ spread counts := by
  induction total generalizing counts r g with
  | zero =>
    cases h
    rw [length_eq_zero_iff.mp (length_spread.trans hsum)]
    exact ⟨[], (append_nil _).symm, .refl _⟩
  | succ total ih =>
    have hpos : 0 < (counts.map snd).sum := by omega
    obtain ⟨op, n, hat⟩ := exists_marker w r hpos
    simp only [markerLoop, hat] at h
    obtain ⟨_, g', hop, h⟩ := Act.exists_of_bind h
    have hset := sum_set_pred hat n.succ_pos
    obtain ⟨made, ht, hmade⟩ := ih (by omega) h
    refine ⟨op :: made, ?_, (hmade.cons op).trans (spread_set hat).symm⟩
    rw [ht, emits_perform g _ g' hop, append_assoc, singleton_append]

/-- Counters that add up to no `usize` have no markers. -/
theorem runMarkers_ok {r : ρ} (h : runMarkers w c counts r g = (.ok (), t)) :
    ∃ made, t.markers = g.markers ++ made ∧ ((counts.map snd).sum < 2 ^ 64 ∧
      made ~ spread counts ∨ 2 ^ 64 ≤ (counts.map snd).sum ∧ made = []) := by
  unfold runMarkers at h
  split at h
  · next hlt =>
    obtain ⟨made, ht, hmade⟩ := markerLoop_ok rfl h
    exact ⟨made, ht, .inl ⟨hlt, hmade⟩⟩
  · next hlt =>
    split at h
    · cases h
    · cases h
      exact ⟨[], (append_nil _).symm, .inr ⟨not_lt.mp hlt, rfl⟩⟩

/-- An insert before the markers is taken off a count that is not 0. -/
def Seeds (c : Context) (u p : ℕ) (g : Gen ρ S) : Prop :=
  isEmpty g.keys = true → 0 < if c.group.uniqueInserts.isSome then u else p

theorem stopIf_ok {q : Prop} [Decidable q] {σ : Type} {s t : σ}
    (h : stopIf q e s = (.ok (), t)) : ¬ q ∧ t = s := by
  unfold stopIf at h
  split at h <;> cases h
  exact ⟨‹_›, rfl⟩

theorem seed_ok (hlaw : Lawful S) {is : Inserts} (h : (do
      let n ← draw (usub w u 1)
      let key ← nextKey w c own cs msg
      insertKey w c op is key msg'
      return [(op, n)]) g = (.ok counts, t)) :
    t.markers = g.markers ++ [op] ∧ isEmpty t.keys = false ∧
      ∃ n, counts = [(op, n)] ∧ (n + 1 = u ∨ u = 0 ∧ n + 1 = 2 ^ 64) := by
  obtain ⟨n, g₁, hn, h⟩ := Act.exists_of_bind h
  obtain ⟨key, g₂, hkey, h⟩ := Act.exists_of_bind h
  obtain ⟨_, g₃, hinsert, ⟨⟩⟩ := Act.exists_of_bind h
  refine ⟨?_, ?_, n, rfl, usub_one w (congrArg fst hn)⟩
  · rw [emits_insertKey g₂ _ t hinsert, emits_nextKey g₁ _ g₂ hkey,
      ← show _ = g₁ from congrArg snd hn, append_nil]
    rfl
  · obtain ⟨_, _, -, hinsert⟩ := Act.exists_of_bind hinsert
    obtain ⟨_, _, ⟨⟩, ⟨⟩⟩ := Act.exists_of_bind hinsert
    exact hlaw.isEmpty_push key _

/-- The first insert is taken off the counts, unless a count of 0 wraps around. -/
theorem firstInserts_ok {s : Gen ρ S} (hlaw : Lawful S) (hu : CountOf w c.group .uniqueInsert u)
    (hunique : firstUniqueInsert w c u p g = (.ok unique, s))
    (hupsert : firstUpsert w c p s = (.ok upserts, t)) :
    ∃ first, t.markers = g.markers ++ first ∧ first.length = (isEmpty g.keys).toNat ∧
      (Seeds c u p g ∧
          first ++ spread (unique ++ upserts) ~ spread [(.uniqueInsert, u), (.upsert, p)] ∨
        ¬ Seeds c u p g ∧ 0 < p ∧ first = [.uniqueInsert] ∧
          2 ^ 64 ≤ ((unique ++ upserts).map snd).sum) := by
  obtain ⟨_, _, ⟨⟩, hunique⟩ := Act.exists_of_bind hunique
  obtain ⟨_, _, ⟨⟩, hupsert⟩ := Act.exists_of_bind hupsert
  dsimp only at hunique hupsert
  cases hempty : isEmpty g.keys with
  | false =>
    have hnot : ¬ isEmpty g.keys = true := by simp [hempty]
    rw [if_neg hnot] at hunique
    cases hunique
    rw [if_neg hnot] at hupsert
    cases hupsert
    exact ⟨[], (append_nil _).symm, rfl, .inl ⟨fun h => absurd h hnot, .refl _⟩⟩
  | true =>
    rw [if_pos hempty] at hunique
    obtain ⟨total, g₁, htotal, hrest⟩ := Act.exists_of_bind hunique
    obtain ⟨_, g₂, hstop, hfirst⟩ := Act.exists_of_bind hrest
    obtain ⟨hne, rfl⟩ := stopIf_ok hstop
    obtain rfl : _ = g₂ := congrArg snd htotal
    have hsum : 0 < u + p := by
      by_contra hnone
      obtain ⟨rfl, rfl⟩ : u = 0 ∧ p = 0 := by omega
      exact hne (Except.ok.inj (congrArg fst htotal)).symm
    cases hinserts : c.group.uniqueInserts with
    | some is =>
      rw [hinserts] at hfirst
      obtain ⟨hs, hfull, n, rfl, hn⟩ := seed_ok hlaw hfirst
      rw [if_neg (by simp [hfull])] at hupsert
      cases hupsert
      refine ⟨[.uniqueInsert], hs, rfl, ?_⟩
      obtain rfl | ⟨rfl, hwraps⟩ := hn
      · exact .inl ⟨fun _ => by simp [hinserts], .refl _⟩
      · refine .inr ⟨fun hseeds => ?_, by omega, rfl, ?_⟩
        · simpa [hinserts] using hseeds hempty
        · simp
          omega
    | none =>
      rw [hinserts] at hfirst
      cases hfirst
      rw [if_pos (by exact hempty)] at hupsert
      obtain ⟨ups, g₃, hups, hupsert⟩ := Act.exists_of_bind hupsert
      obtain ⟨ht, -, n, rfl, hn⟩ := seed_ok hlaw hupsert
      obtain rfl : u = 0 := hu.eq_zero w (by simp [WorkloadSpecGroup.opCount, hinserts])
      obtain rfl := hn.resolve_right (by omega)
      refine ⟨[.upsert], ?_, rfl, .inl ⟨fun _ => by simp [hinserts], .refl _⟩⟩
      rw [ht, emits_expect _ _ g₃ hups, append_nil]
      rfl

theorem reportIf_ok {enabled : Bool} {call : Call} (h : reportIf enabled call g = (.ok (), t)) :
    t.rng = g.rng ∧ t.keys = g.keys ∧ t.markers = g.markers := by
  cases enabled <;> cases h <;> simp [Gen.markers, Gen.addEvent]

theorem exists_counts (h : writeGroup w c k u p g = (.ok (), t)) :
    ∃ counts, (evalCounts w c.group countedOps g.rng).1 = .ok counts := by
  obtain ⟨_, _, hstart, h⟩ := Act.exists_of_bind h
  obtain ⟨_, _, ⟨⟩, h⟩ := Act.exists_of_bind h
  obtain ⟨counts, _, heval, -⟩ := Act.exists_of_bind h
  rw [← (reportIf_ok hstart).1]
  exact ⟨counts, congrArg fst heval⟩

/-- The first insert of a group is counted, and what is left for its markers adds up to a
`usize`. -/
def Countable (c : Context) (u p : ℕ) (counts : List (Op × ℕ)) (g : Gen ρ S) : Prop :=
  Seeds c u p g ∧ u + p + (counts.map snd).sum < 2 ^ 64 + (isEmpty g.keys).toNat

/-- A group makes all operations that it counts, or no operation after its first insert. -/
theorem writeGroup_ok {kind : KeySetKind} {g t : Gen ρ kind.Carrier}
    (hu : CountOf w c.group .uniqueInsert u)
    (hcounts : (evalCounts w c.group countedOps g.rng).1 = .ok counts)
    (h : writeGroup w c k u p g = (.ok (), t)) : ∃ made, t.markers = g.markers ++ made ∧
      (Countable c u p counts g ∧ made ~ spread ((.uniqueInsert, u) :: (.upsert, p) :: counts) ∨
        ¬ Countable c u p counts g ∧ made.length = (isEmpty g.keys).toNat ∧
          ¬ made ~ spread ((.uniqueInsert, u) :: (.upsert, p) :: counts)) := by
  obtain ⟨_, g₁, hstart, h⟩ := Act.exists_of_bind h
  obtain ⟨_, _, ⟨⟩, h⟩ := Act.exists_of_bind h
  obtain ⟨evaluated, g₂, heval, h⟩ := Act.exists_of_bind h
  obtain ⟨_, _, ⟨⟩, h⟩ := Act.exists_of_bind h
  obtain ⟨_, g₃, hstop, h⟩ := Act.exists_of_bind h
  obtain ⟨_, g₄, hpool, h⟩ := Act.exists_of_bind h
  obtain ⟨unique, g₅, hunique, h⟩ := Act.exists_of_bind h
  obtain ⟨upserts, g₆, hupsert, h⟩ := Act.exists_of_bind h
  obtain ⟨_, g₇, hrun, hend⟩ := Act.exists_of_bind h
  obtain ⟨hrng, hkeys, hmarkers⟩ := reportIf_ok hstart
  -- the group starts with the keys and the calls that it finds
  have hg₄ : g₄.keys = g.keys ∧ g₄.markers = g.markers := by
    obtain ⟨-, rfl⟩ := stopIf_ok hstop
    have hkept : Follows c.kind (fun _ => True) True _ g₃ _ := follows_makePool w c u p
    rw [hkept.ok hpool,
      emits_makePool g₃ _ g₄ hpool, ← show _ = g₃ from congrArg snd heval, append_nil]
    exact ⟨hkeys, hmarkers⟩
  obtain rfl : evaluated = counts := by
    rw [← hrng] at hcounts
    exact Except.ok.inj ((congrArg fst heval).symm.trans hcounts)
  obtain ⟨first, ht₆, hlen, hfirst⟩ := firstInserts_ok kind.lawful hu hunique hupsert
  obtain ⟨made, ht₇, hmade⟩ := runMarkers_ok hrun
  refine ⟨first ++ made, by rw [(reportIf_ok hend).2.2, ht₇, ht₆, hg₄.2, append_assoc], ?_⟩
  rw [Seeds, hg₄.1] at hfirst
  rw [hg₄.1] at hlen
  have hone := Bool.toNat_le (isEmpty g.keys)
  obtain ⟨hseeds, hfirst⟩ | ⟨hseeds, hpos, rfl, hwraps⟩ := hfirst
  · have hall : first ++ spread (unique ++ upserts ++ evaluated) ~
        spread ((.uniqueInsert, u) :: (.upsert, p) :: evaluated) := by
      simpa [spread] using hfirst.append_right (spread evaluated)
    have hsum := hall.length_eq
    simp only [length_append, length_spread, map_cons, sum_cons, hlen] at hsum
    obtain ⟨hlt, hperm⟩ | ⟨hge, rfl⟩ := hmade
    · exact .inl ⟨⟨hseeds, by omega⟩, (hperm.append_left first).trans hall⟩
    · refine .inr ⟨fun h => absurd h.2 (by omega), by rw [append_nil, hlen], fun hperm => ?_⟩
      have hlength := hperm.length_eq
      simp only [append_nil, length_spread, map_cons, sum_cons, hlen] at hlength
      omega
  · -- no marker follows the first insert, but there is an upsert to make
    obtain ⟨hlt, -⟩ | ⟨-, rfl⟩ := hmade
    · rw [map_append, sum_append] at hlt
      omega
    · refine .inr ⟨fun h => hseeds h.1, hlen, fun hperm => ?_⟩
      have hmem : Op.upsert ∈ spread ((.uniqueInsert, u) :: (.upsert, p) :: evaluated) := by
        simp [spread, hpos.ne']
      simpa using hperm.mem_iff.mpr hmem

def loading : Context :=
  let group : WorkloadSpecGroup := { inserts := some (digitInserts 2) }
  ⟨{ sections := [{ groups := [group] }] }, { groups := [group] }, 0, .vec, 2, group⟩

def releaseWorld : World ℕ := { tickWorld with overflowChecks := false }

/-- One upsert is specified. -/
def noUniqueInserts : WorkloadSpecGroup where
  uniqueInserts := some (digitInserts 0)
  inserts := some (digitInserts 1)

def noUniqueInsertsSpec : WorkloadSpec where
  sections := [{ groups := [noUniqueInserts, { pointQueries := some ⟨.constant 1, none⟩ }] }]

end ZenFs.Tectonic
