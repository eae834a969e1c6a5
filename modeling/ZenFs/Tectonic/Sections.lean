import ZenFs.Tectonic.Changes

/-!
The operations, groups and sections of `generate_operations` as runs of changes.
-/

namespace ZenFs.Tectonic

open Library KeySet

variable {cs : Option CharacterSet} {e : Stop} {i p u : ℕ} {inserts : Option Inserts}
variable {kind : KeySetKind} {ops : List Op} {own : Option StringExpr}
variable {pool : Option (List Coding.Bytes)} {sec : WorkloadSpecSection}
variable {msg : String} {counts : List (Op × ℕ)} {group : WorkloadSpecGroup} {op : Op} {α : Type}

section Operations

variable {ρ S : Type} [KeySet S] (w : World ρ) (c : Context) {occurs : Op → Prop} {F : Prop}
  {g : Gen ρ S}

theorem follows_okOr {a : Option α} :
    Follows c.kind occurs F (okOr msg a) g fun x t => a = some x ∧ t = g := by
  cases a with
  | some a => exact .pure ⟨rfl, rfl⟩
  | none => exact .fail fun _ h => by cases h

theorem follows_expect {a : Option α} :
    Follows c.kind occurs F (expect msg a) g fun x t => a = some x ∧ t = g := by
  cases a with
  | some a => exact .pure ⟨rfl, rfl⟩
  | none => exact .fail fun _ h => by cases h

theorem follows_stopIf {condition : Prop} [Decidable condition]
    (he : ∀ msg, e ≠ .unsupported msg) :
    Follows c.kind occurs F (stopIf condition e) g fun _ t => ¬ condition ∧ t = g := by
  unfold stopIf
  split
  · exact .fail he
  · next h => exact .pure ⟨h, rfl⟩

theorem follows_draw {m : Act ρ Stop α} (hm : Quiet m) :
    Follows c.kind occurs F (draw m) g fun _ t => t.keys = g.keys :=
  (Follows.draw hm (fun _ _ _ => trivial)).mono fun _ _ h => h.2

theorem follows_rangeLength {selectivity scanLength : Option NumberExpr} {len : ℕ} :
    Follows c.kind occurs F (draw (getRangeLength w selectivity scanLength len)) g
      fun n _ => n < 2 ^ 64 :=
  (Follows.draw (quiet_getRangeLength w _ _ len) fun _ _ => getRangeLength_lt w).mono
    fun _ _ h => h.1

theorem follows_numKeys :
    Follows c.kind occurs F (numKeys : Act (Gen ρ S) Stop ℕ) g fun _ t => t = g := .read rfl

theorem follows_requireKeys :
    Follows c.kind occurs F (requireKeys msg) g fun _ t => t = g := by
  refine .bind (Q := fun _ t => t = g) (.read rfl) ?_
  rintro empty t rfl
  exact (follows_stopIf c fun _ h => by cases h).mono fun _ _ h => h.2

section Then

variable {β : Type} {a : Option α} {R : β → Gen ρ S → Prop}

theorem okOr_then {f : α → Act (Gen ρ S) Stop β} (hf : ∀ x, Follows c.kind occurs F (f x) g R) :
    Follows c.kind occurs F (okOr msg a >>= f) g R := by
  refine (follows_okOr c).bind ?_
  rintro x _ ⟨-, rfl⟩
  exact hf x

theorem requireKeys_then {f : Unit → Act (Gen ρ S) Stop β}
    (hf : Follows c.kind occurs F (f ()) g R) :
    Follows c.kind occurs F (requireKeys msg >>= f) g R := by
  refine (follows_requireKeys c).bind ?_
  rintro _ _ rfl
  exact hf

theorem numKeys_then {f : ℕ → Act (Gen ρ S) Stop β} (hf : ∀ n, Follows c.kind occurs F (f n) g R) :
    Follows c.kind occurs F (numKeys >>= f) g R := by
  refine (follows_numKeys c).bind ?_
  rintro n _ rfl
  exact hf n

end Then

theorem follows_makeKey :
    Follows c.kind occurs F (makeKey w c own cs msg) g fun _ t => t.keys = g.keys := by
  refine (follows_expect c).bind ?_
  rintro e t ⟨-, rfl⟩
  exact follows_draw c (quiet_generate w _ e)

theorem follows_nextKey :
    Follows c.kind occurs F (nextKey w c own cs msg) g fun _ t => t.keys = g.keys := by
  have hpop : Follows c.kind occurs F (Act.act Gen.popPool) g
      fun _ t => t.keys = g.keys := by
    have hchange : Change c.kind occurs g g.popPool.2 := by
      unfold Gen.popPool
      split
      · next pool _ => exact .draw g g.rng (some pool.dropLast)
      · exact .draw g g.rng g.pool
    refine ⟨.single hchange, ?_⟩
    unfold Gen.popPool
    split <;> rfl
  refine hpop.bind fun pooled t ht => ?_
  cases pooled with
  | some key => exact .pure ht
  | none => exact (follows_makeKey w c).mono fun _ _ h => h.trans ht

theorem follows_makeValue :
    Follows c.kind occurs F (makeValue w c own cs msg) g
      fun val t => val.generated <+: val.written ∧ t.keys = g.keys := by
  refine (follows_expect c).bind ?_
  rintro e t ⟨-, rfl⟩
  exact .draw (quiet_value w _ e) fun _ _ h => value_prefix w h

theorem follows_insertKey {marker : Op} {is : Inserts} {key : Bytes}
    (hchange : ∀ t : Gen ρ S, t.keys = g.keys → ∀ val : Value, val.generated <+: val.written →
      Change c.kind occurs t (t.addEvent (some marker) (.insert key val) (push key t.keys))) :
    Follows c.kind occurs F (insertKey w c marker is key msg) g
      fun _ t => t.keys = push key g.keys := by
  refine (follows_makeValue w c).bind ?_
  rintro val t ⟨hval, ht⟩
  refine .bind (Q := fun keys u => keys = t.keys ∧ u = t) (.read ⟨rfl, rfl⟩) ?_
  rintro _ _ ⟨rfl, rfl⟩
  exact .modify (hchange _ ht val hval) (by rw [← ht]; rfl)

theorem follows_askContains (hop : Checking op) (hoccurs : occurs op) (key : Bytes)
    (hF : ¬ Checks S → F) :
    Follows c.kind occurs F (askContains c.kind key) g
      fun answer t => contains key g.keys = .ok answer ∧ t.keys = g.keys := by
  refine .bind (Q := fun answer t => contains key g.keys = .ok answer ∧ t = g) ?_ ?_
  · exact .ask (fun _ h => ⟨h, rfl⟩) fun hu => hF fun hs => hs key _ hu
  · rintro answer t ⟨hanswer, rfl⟩
    refine .bind (Q := fun _ u => u.keys = t.keys) ?_ fun _ u hu => .pure ⟨hanswer, hu⟩
    exact .modify (.probe t op hop hoccurs key answer hanswer) rfl

theorem follows_freshKey (hop : Checking op) (hoccurs : occurs op) (hF : ¬ Checks S → F)
    {next : Act (Gen ρ S) Stop Bytes}
    (hnext : ∀ t : Gen ρ S, Follows c.kind occurs F next t fun _ u => u.keys = t.keys) (n : ℕ) :
    Follows c.kind occurs F (freshKey c.kind next n) g
      fun key t => contains key g.keys = .ok false ∧ t.keys = g.keys := by
  induction n generalizing g with
  | zero => exact .fail fun _ h => by cases h
  | succ n ih =>
    refine (hnext g).bind fun key t ht => ?_
    refine (follows_askContains c hop hoccurs key hF).bind ?_
    rintro answer u ⟨hanswer, hu⟩
    rw [ht] at hanswer
    cases answer with
    | true =>
      refine ih.mono fun k v hv => ?_
      rwa [hu, ht] at hv
    | false => exact .pure ⟨hanswer, hu.trans ht⟩

/-! ### Keys by their index -/

theorem follows_getRandom (d : Distribution) (hF : ¬ Selects S → F) :
    Follows c.kind occurs F (getRandom w d) g
      fun key t => (∃ idx, get idx g.keys = .ok key) ∧ t.keys = g.keys := by
  refine numKeys_then c fun len => ?_
  refine (follows_draw c (quiet_evaluateIndex w d len)).bind fun idx t ht => ?_
  rw [← ht]
  exact .ask (fun key h => ⟨⟨idx, h⟩, rfl⟩) fun hu => hF fun hs => hs.get idx _ hu

theorem follows_removeRandom (d : Distribution) (hF : ¬ Selects S → F) :
    Follows c.kind occurs F (removeRandom w d) g
      fun removed t => (∃ idx, remove idx t.keys = .ok removed) ∧ t.keys = g.keys := by
  refine numKeys_then c fun len => ?_
  refine (follows_draw c (quiet_evaluateIndex w d len)).bind fun idx t ht => ?_
  exact .ask (fun removed h => ⟨⟨idx, h⟩, ht⟩) fun hu => hF fun hs => hs.remove idx _ hu

theorem follows_rangeStart (n : ℕ) (d : Distribution) :
    Follows c.kind occurs F (rangeStart w n d) g fun _ t => t.keys = g.keys := by
  refine numKeys_then c fun len => ?_
  refine (follows_draw c (quiet_usub w len n)).bind fun valid t ht => ?_
  exact (follows_draw c (quiet_evaluateIndex w d valid)).mono fun _ _ hu => hu.trans ht

theorem follows_removeRangeRandom (n : ℕ) (d : Distribution) (hF : ¬ Selects S → F) :
    Follows c.kind occurs F (removeRangeRandom w n d) g
      fun removed t => ∃ start stop, removeRange start stop t.keys = .ok removed := by
  refine (follows_rangeStart w c n d).bind fun start t _ => ?_
  refine (follows_draw c (quiet_uadd w start n)).bind fun stop u _ => ?_
  exact .ask (fun removed h => ⟨start, stop, h⟩) fun hu => hF fun hs => hs.removeRange start stop _ hu

theorem follows_getRandomRangeStart (n : ℕ) (d : Distribution) (hF : ¬ Selects S → F) :
    Follows c.kind occurs F (getRandomRangeStart w n d) g
      fun found t => get found.1 t.keys = .ok found.2 := by
  refine (follows_rangeStart w c n d).bind fun start t _ => ?_
  refine .bind (Q := fun key u => get start t.keys = .ok key ∧ u = t) ?_ ?_
  · exact .ask (fun _ h => ⟨h, rfl⟩) fun hu => hF fun hs => hs.get start _ hu
  · rintro key _ ⟨hkey, rfl⟩
    exact .pure hkey

theorem follows_getRangeRandom (n : ℕ) (d : Distribution) (hF : ¬ Selects S → F) :
    Follows c.kind occurs F (getRangeRandom w n d) g fun _ _ => True := by
  have hget : ∀ (idx : ℕ) (t : Gen ρ S),
      Follows c.kind occurs F (ask (get idx)) t fun _ _ => True :=
    fun idx t => .ask (fun _ _ => trivial) fun hu => hF fun hs => hs.get idx _ hu
  refine (follows_rangeStart w c n d).bind fun start t _ => ?_
  refine (follows_draw c (quiet_uadd w start n)).bind fun stop u _ => ?_
  exact (hget start u).bind fun key1 v _ => (hget stop v).bind fun key2 x _ => .pure trivial

theorem follows_sortKeys (hF : ¬ Selects S → F) :
    Follows c.kind occurs F (sortKeys : Act (Gen ρ S) Stop Unit) g fun _ _ => True := by
  refine .bind (Q := fun keys t => sort g.keys = .ok keys ∧ t = g) ?_ ?_
  · exact .ask (fun _ h => ⟨h, rfl⟩) fun hu => hF fun hs => hs.sort _ hu
  · rintro keys _ ⟨hkeys, rfl⟩
    exact .modify (.sort _ keys hkeys) trivial

/-! ### One marker -/

theorem follows_report {op : Option Op} {call : Call}
    (hchange : Change c.kind occurs g (g.addEvent op call g.keys)) :
    Follows c.kind occurs F (report op call) g fun _ _ => True := .modify hchange trivial

/-- One operation consists of changes, and stops only where a method is unsupported. -/
theorem follows_perform (op : Op) (hoccurs : occurs op) :
    Follows c.kind occurs (¬ Supports S op) (perform w c op) g fun _ _ => True := by
  cases op with
  | uniqueInsert =>
    refine okOr_then c fun is => ?_
    refine (follows_freshKey c .uniqueInsert hoccurs id (fun _ => follows_nextKey w c) _).bind ?_
    rintro key t ⟨hkey, ht⟩
    refine (follows_insertKey w c fun u hu val hval => ?_).mono fun _ _ _ => trivial
    exact .uniqueInsert u hoccurs key (by rw [hu, ht, hkey]) val hval
  | upsert =>
    refine okOr_then c fun is => ?_
    refine (follows_nextKey w c).bind fun key t _ => ?_
    refine (follows_insertKey w c fun u _ val hval => ?_).mono fun _ _ _ => trivial
    exact .upsert u hoccurs key val hval
  | update =>
    refine okOr_then c fun us => ?_
    refine requireKeys_then c ?_
    refine (follows_getRandom w c _ id).bind ?_
    rintro key t ⟨⟨idx, hkey⟩, ht⟩
    refine (follows_makeValue w c).bind ?_
    rintro val u ⟨hval, hu⟩
    refine follows_report c ?_
    exact .lookup u _ hoccurs key _ (.update key val hval) idx (by rw [hu, ht, hkey])
  | merge =>
    refine okOr_then c fun ms => ?_
    refine requireKeys_then c ?_
    refine (follows_getRandom w c _ id).bind ?_
    rintro key t ⟨⟨idx, hkey⟩, ht⟩
    refine (follows_makeValue w c).bind ?_
    rintro val u ⟨hval, hu⟩
    refine follows_report c ?_
    exact .lookup u _ hoccurs key _ (.merge key val hval) idx (by rw [hu, ht, hkey])
  | pointDelete =>
    refine okOr_then c fun pds => ?_
    refine (follows_removeRandom w c _ id).bind ?_
    rintro removed t ⟨⟨idx, hremove⟩, -⟩
    exact .modify (.pointDelete t hoccurs idx _ _ hremove) trivial
  | pointQuery =>
    refine requireKeys_then c ?_
    refine okOr_then c fun pqs => ?_
    refine (follows_getRandom w c _ id).bind ?_
    rintro key t ⟨⟨idx, hkey⟩, ht⟩
    refine follows_report c ?_
    exact .lookup t _ hoccurs key _ (.pointQuery key) idx (by rw [ht, hkey])
  | pointDeleteEmpty =>
    refine okOr_then c fun epd => ?_
    refine (follows_freshKey c .pointDeleteEmpty hoccurs id (fun _ => follows_makeKey w c) _).bind ?_
    rintro key t ⟨hkey, ht⟩
    refine follows_report c ?_
    exact .absent t _ hoccurs key _ (.pointDelete key) (by rw [ht, hkey])
  | emptyPointQuery =>
    refine okOr_then c fun epq => ?_
    refine (follows_freshKey c .emptyPointQuery hoccurs id (fun _ => follows_makeKey w c) _).bind ?_
    rintro key t ⟨hkey, ht⟩
    refine follows_report c ?_
    exact .absent t _ hoccurs key _ (.pointQuery key) (by rw [ht, hkey])
  | rangeQuery =>
    refine okOr_then c fun rqs => ?_
    refine requireKeys_then c ?_
    refine numKeys_then c fun len => ?_
    refine (follows_rangeLength w c).bind fun n t hn => ?_
    cases rqs.rangeFormat with
    | startCount =>
      refine (follows_getRandomRangeStart w c n _ id).bind fun found u _ => ?_
      refine follows_report c ?_
      exact .passive u _ _ (.rangeQueryCount found.2 n hn)
    | startEnd =>
      refine (follows_sortKeys c id).bind fun _ u _ => ?_
      refine (follows_getRangeRandom w c n _ id).bind fun found v _ => ?_
      refine follows_report c ?_
      exact .passive v _ _ (.rangeQuery found.1 found.2)
  | rangeDelete =>
    refine okOr_then c fun rds => ?_
    refine requireKeys_then c ?_
    refine numKeys_then c fun len => ?_
    refine (follows_rangeLength w c).bind fun n t hn => ?_
    refine (follows_sortKeys c id).bind fun _ u _ => ?_
    cases rds.rangeFormat with
    | startCount =>
      refine (follows_getRandomRangeStart w c n _ id).bind fun found v hfound => ?_
      refine (follows_draw c (quiet_uadd w found.1 n)).bind fun stop x hx => ?_
      refine .bind (Q := fun removed y => removeRange found.1 stop x.keys = .ok removed ∧ y = x)
        (.ask (fun _ h => ⟨h, rfl⟩) fun hu hs => hs.removeRange _ _ _ hu) ?_
      rintro removed _ ⟨hremoved, rfl⟩
      exact .modify
        (.rangeDeleteCount _ hoccurs _ _ _ _ hremoved found.2 (by rw [hx, hfound]) n hn) trivial
    | startEnd =>
      refine (follows_removeRangeRandom w c n _ id).bind ?_
      rintro removed v ⟨start, stop, hremoved⟩
      exact .modify (.rangeDelete v hoccurs start stop _ _ hremoved) trivial
  | blindPointQuery =>
    refine okOr_then c fun bpq => ?_
    refine requireKeys_then c ?_
    refine (follows_makeKey w c).bind fun key t _ => ?_
    refine follows_report c ?_
    exact .passive t _ _ (.blindPointQuery key)
  | blindPointDelete =>
    refine okOr_then c fun bpd => ?_
    refine requireKeys_then c ?_
    refine (follows_makeKey w c).bind fun key t _ => ?_
    refine follows_report c ?_
    exact .passive t _ _ (.blindPointDelete key)
  | blindRangeQuery =>
    refine okOr_then c fun brq => ?_
    refine requireKeys_then c ?_
    refine (follows_makeKey w c).bind fun key t _ => ?_
    refine (follows_rangeLength w c).bind fun n u hn => ?_
    refine follows_report c ?_
    exact .passive u _ _ (.blindRangeQuery key n hn)

end Operations

/-! ### Groups -/

variable {n : ℕ}

section Groups

variable {ρ S : Type} [KeySet S] (w : World ρ) (c : Context) {occurs : Op → Prop}
  {g : Gen ρ S}

/-- Some operation that has markers calls a method that is not supported. -/
def Fails (S : Type) [KeySet S] (occurs : Op → Prop) : Prop := ∃ op, occurs op ∧ ¬ Supports S op

theorem Follows.weaken {F G : Prop} {m : Act (Gen ρ S) Stop α} {Q : α → Gen ρ S → Prop}
    (h : Follows kind occurs F m g Q) (hFG : F → G) :
    Follows kind occurs G m g Q :=
  Meets.mono h (fun _ _ ht => ht) fun _ _ ht => ⟨ht.1, fun he => hFG (ht.2 he)⟩

/-- Every kind of operation whose counter is not zero has markers. -/
def Announced (occurs : Op → Prop) (counts : List (Op × ℕ)) : Prop :=
  ∀ count ∈ counts, 0 < count.2 → occurs count.1

theorem sum_set_pred (h : counts[i]? = some (op, n)) (hn : 0 < n) :
    ((counts.set i (op, n - 1)).map Prod.snd).sum + 1 = (counts.map Prod.snd).sum := by
  induction counts generalizing i with
  | nil => cases h
  | cons count rest ih =>
    cases i with
    | zero =>
      cases h
      simp only [List.set_cons_zero, List.map_cons, List.sum_cons]
      omega
    | succ i =>
      have := ih h
      simp only [List.set_cons_succ, List.map_cons, List.sum_cons]
      omega

theorem exists_marker (r : ρ) (h : 0 < (counts.map Prod.snd).sum) :
    ∃ op n, counts[(w.marker (counts.map Prod.snd) r).1]? = some (op, n + 1) := by
  have hpos : ∃ n ∈ counts.map Prod.snd, 0 < n := by
    by_contra hnone
    push Not at hnone
    have hzero := List.sum_eq_zero fun n hn => Nat.le_zero.mp (hnone n hn)
    omega
  obtain ⟨n, hn, hn0⟩ := w.marker_pos _ r hpos
  rw [List.getElem?_map] at hn
  obtain ⟨⟨op, m⟩, hat, rfl⟩ := Option.map_eq_some_iff.mp hn
  exact ⟨op, m - 1, hat.trans (by rw [Nat.sub_add_cancel hn0])⟩

theorem follows_markerLoop (total : ℕ) (h : Announced occurs counts)
    (hsum : total ≤ (counts.map Prod.snd).sum) (r : ρ) :
    Follows c.kind occurs (Fails S occurs) (markerLoop w c total counts r) g
      fun _ _ => True := by
  induction total generalizing counts r g with
  | zero => exact .pure trivial
  | succ total ih =>
    obtain ⟨op, n, hat⟩ := exists_marker w r (Nat.lt_of_lt_of_le total.succ_pos hsum)
    unfold markerLoop
    dsimp only
    rw [hat]
    have hoccurs : occurs op := h _ (List.mem_of_getElem? hat) n.succ_pos
    refine ((follows_perform w c op hoccurs).weaken fun hop => ⟨op, hoccurs, hop⟩).bind
      fun _ t _ => ih ?_ ?_ _
    · intro count hcount hcount0
      obtain hold | rfl := List.mem_or_eq_of_mem_set hcount
      · exact h count hold hcount0
      · exact hoccurs
    · have := sum_set_pred hat n.succ_pos
      omega

theorem follows_runMarkers (r : ρ)
    (h : Announced occurs counts ∨ 2 ^ 64 ≤ (counts.map Prod.snd).sum) :
    Follows c.kind occurs (Fails S occurs) (runMarkers w c counts r) g fun _ _ => True := by
  unfold runMarkers
  dsimp only
  split
  · next hlt => exact follows_markerLoop w c _ (h.resolve_right (by omega)) le_rfl r
  · split
    · exact .fail fun _ h => by cases h
    · exact .pure trivial

/-- The number is a value of the count of the operations of a kind. -/
def CountOf (group : WorkloadSpecGroup) (op : Op) (n : ℕ) : Prop :=
  ∃ r, (evalCount w (group.opCount op) r).1 = .ok n

theorem countOf_cases (h : CountOf w group op n) :
    (group.opCount op = none ∧ n = 0) ∨
      ∃ e r x, group.opCount op = some e ∧ (e.evaluate w r).1 = .ok x ∧ n = asUsize x := by
  obtain ⟨r, hr⟩ := h
  cases hcount : group.opCount op with
  | none =>
    rw [hcount] at hr
    cases hr
    exact .inl ⟨rfl, rfl⟩
  | some e =>
    rw [hcount] at hr
    obtain ⟨x, t, hx, ⟨⟩⟩ := Act.exists_of_bind (Prod.ext hr rfl)
    exact .inr ⟨e, r, x, rfl, by rw [hx], rfl⟩

theorem CountOf.eq_zero (h : CountOf w group op n)
    (hnone : group.opCount op = none) : n = 0 := by
  obtain ⟨-, rfl⟩ | ⟨e, r, x, he, -, -⟩ := countOf_cases w h
  · rfl
  · rw [hnone] at he
    cases he

variable {F : Prop}

theorem follows_poolKeys (n : ℕ) :
    Follows c.kind occurs F (poolKeys w c inserts msg n) g fun _ t => t.keys = g.keys := by
  induction n generalizing g with
  | zero => exact .pure rfl
  | succ n ih =>
    cases inserts with
    | none => exact .pure rfl
    | some is =>
      refine (follows_makeKey w c).bind fun key t ht => ?_
      exact ih.bind fun rest u hu => .pure (hu.trans ht)

theorem follows_setPool :
    Follows c.kind occurs F (Act.modify fun g => g.setPool pool) g fun _ t => t.keys = g.keys :=
  .modify (.draw g g.rng pool) rfl

theorem follows_makePool (u p : ℕ) :
    Follows c.kind occurs F (makePool w c u p) g fun _ t => t.keys = g.keys := by
  unfold makePool
  cases c.group.sorted with
  | none => exact follows_setPool c
  | some sorted =>
    refine (follows_stopIf c fun _ h => by cases h).bind ?_
    rintro _ _ ⟨-, rfl⟩
    refine (follows_poolKeys w c u).bind fun unique t ht => ?_
    refine (follows_poolKeys w c p).bind fun upserts t' ht' => ?_
    refine (follows_draw c (quiet_evaluate w _)).bind fun k v hv => ?_
    refine (follows_draw c (quiet_displace w _ _ _)).bind fun pool x hx => ?_
    exact (follows_setPool c).mono fun _ _ hy => hy.trans (hx.trans (hv.trans (ht'.trans ht)))

theorem usub_one {r : ρ} (h : (usub w u 1 r).1 = .ok n) :
    n + 1 = u ∨ (u = 0 ∧ n + 1 = 2 ^ 64) := by
  unfold usub at h
  split at h
  · cases h
    omega
  · split at h
    · cases h
    · cases h
      omega

theorem announced_singleton (h : 0 < n → occurs op) :
    Announced occurs [(op, n)] := by
  intro count hcount h0
  rw [List.mem_singleton] at hcount
  subst hcount
  exact h h0

/-- A first unique insert leaves the counters announced, unless the count of unique inserts
was 0 and has wrapped around; and if there still is no key, there are upserts. -/
theorem follows_firstUniqueInsert (hlaw : Lawful S)
    (hu : CountOf w c.group .uniqueInsert u) (hannounced : 0 < u → occurs .uniqueInsert) :
    Follows c.kind occurs F (firstUniqueInsert w c u p) g fun counts t =>
      (isEmpty t.keys = true → 0 < p) ∧
        (Announced occurs counts ∨
          2 ^ 64 ≤ (counts.map Prod.snd).sum + p ∧ isEmpty t.keys = false) := by
  refine .bind (Q := fun empty t => empty = isEmpty g.keys ∧ t = g) (.read ⟨rfl, rfl⟩) ?_
  rintro _ t ⟨rfl, rfl⟩
  split
  · next hempty =>
    have hadd : ∀ r total, (uadd w u p r).1 = .ok total → 0 < total → 0 < u + p := by
      intro r total htotal hpos
      by_contra hzero
      have hsum : u + p = 0 := by omega
      simp only [uadd, hsum] at htotal
      cases htotal
      cases hpos
    refine (Follows.draw (quiet_uadd w u p) hadd).bind ?_
    rintro total t₁ ⟨htotal, ht₁⟩
    refine (follows_stopIf c fun _ h => by cases h).bind ?_
    rintro _ _ ⟨hne, rfl⟩
    cases hinserts : c.group.uniqueInserts with
    | none =>
      have hzero : u = 0 := hu.eq_zero w (by simp [WorkloadSpecGroup.opCount, hinserts])
      exact .pure ⟨fun _ => by omega, .inl fun count hcount => by cases hcount⟩
    | some is =>
      refine (Follows.draw (quiet_usub w u 1) fun _ _ => usub_one w).bind ?_
      rintro n t₂ ⟨hn, ht₂⟩
      refine (follows_nextKey w c).bind fun key t₃ ht₃ => ?_
      refine (follows_insertKey w c fun t₄ ht₄ val hval => ?_).bind fun _ t₅ ht₅ => ?_
      · refine .first t₄ _ (.inl rfl) ?_ key val hval
        rw [ht₄, ht₃, ht₂, ht₁, hempty]
      · have hfull : isEmpty t₅.keys = false := by
          rw [ht₅]
          exact hlaw.isEmpty_push key _
        refine .pure ⟨fun h => by simp [hfull] at h, ?_⟩
        obtain hn | ⟨hu0, hn⟩ := hn
        · exact .inl (announced_singleton fun _ => hannounced (by omega))
        · right
          simp only [List.map_cons, List.sum_cons]
          exact ⟨by omega, hfull⟩
  · next hempty =>
    exact .pure ⟨fun h => absurd h hempty, .inl (announced_singleton hannounced)⟩

theorem follows_firstUpsert (hpos : isEmpty g.keys = true → 0 < p)
    (hannounced : 0 < p → occurs .upsert) :
    Follows c.kind occurs F (firstUpsert w c p) g fun counts _ =>
      Announced occurs counts ∧ (isEmpty g.keys = false → (counts.map Prod.snd).sum = p) := by
  refine .bind (Q := fun empty t => empty = isEmpty g.keys ∧ t = g) (.read ⟨rfl, rfl⟩) ?_
  rintro _ t ⟨rfl, rfl⟩
  split
  · next hempty =>
    refine (follows_expect c).bind ?_
    rintro ups _ ⟨-, rfl⟩
    refine (Follows.draw (quiet_usub w p 1) fun _ _ => usub_one w).bind ?_
    rintro n t₂ ⟨hn, ht₂⟩
    refine (follows_nextKey w c).bind fun key t₃ ht₃ => ?_
    refine (follows_insertKey w c fun t₄ ht₄ val hval => ?_).bind fun _ t₅ _ => ?_
    · refine .first t₄ _ (.inr rfl) ?_ key val hval
      rw [ht₄, ht₃, ht₂, hempty]
    · exact .pure ⟨announced_singleton fun _ => hannounced (hpos hempty), by simp [hempty]⟩
  · next hempty => exact .pure ⟨announced_singleton hannounced, fun _ => by simp⟩

theorem evalCounts_countOf {r : ρ} (h : (evalCounts w group ops r).1 = .ok counts) :
    ∀ count ∈ counts, CountOf w group count.1 count.2 := by
  induction ops generalizing r counts with
  | nil =>
    cases h
    simp
  | cons op rest ih =>
    obtain ⟨n, t, hn, h⟩ := Act.exists_of_bind (Prod.ext h rfl)
    obtain ⟨tail, _, htail, ⟨⟩⟩ := Act.exists_of_bind h
    exact List.forall_mem_cons.mpr ⟨⟨r, by rw [hn]⟩, ih (by rw [htail])⟩

theorem follows_reportIf {enabled : Bool} {call : Call} (hcall : Passive none call) :
    Follows c.kind occurs F (reportIf enabled call) g fun _ t => t.keys = g.keys := by
  unfold reportIf
  split
  · exact .modify (.passive g none call hcall) rfl
  · exact .pure rfl

theorem follows_writeGroup (hlaw : Lawful S)
    (hoccurs : ∀ op n, CountOf w c.group op n → 0 < n → occurs op) (groupNum : ℕ)
    (hu : CountOf w c.group .uniqueInsert u) (hp : CountOf w c.group .upsert p) :
    Follows c.kind occurs (Fails S occurs) (writeGroup w c groupNum u p) g fun _ _ => True := by
  refine (follows_reportIf c (.startStatFlush .group)).bind fun _ t₁ _ => ?_
  refine .bind (Q := fun _ _ => True) (.read trivial) fun markerRng t₂ _ => ?_
  refine (Follows.draw (quiet_evalCounts w c.group countedOps)
    fun _ _ => evalCounts_countOf w).bind ?_
  rintro counts t₃ ⟨hcounts, -⟩
  refine (follows_stopIf c fun _ h => by cases h).bind fun _ t₅ _ => ?_
  refine (follows_makePool w c u p).bind fun _ t₆ _ => ?_
  refine (follows_firstUniqueInsert w c hlaw hu (hoccurs _ u hu)).bind ?_
  rintro unique t₇ ⟨hpos, hunique⟩
  refine (follows_firstUpsert w c hpos (hoccurs _ p hp)).bind ?_
  rintro upserts t₈ ⟨hupserts, hsum⟩
  have hcounts' : Announced occurs counts := fun count hcount => hoccurs _ _ (hcounts count hcount)
  refine (follows_runMarkers w c markerRng ?_).bind fun _ t₉ _ => ?_
  · obtain hunique | ⟨hwrap, hfull⟩ := hunique
    · left
      intro count hcount
      simp only [List.mem_append, or_assoc] at hcount
      obtain hcount | hcount | hcount := hcount
      · exact hunique count hcount
      · exact hupserts count hcount
      · exact hcounts' count hcount
    · right
      have := hsum hfull
      simp only [List.map_append, List.sum_append]
      omega
  · exact (follows_reportIf c (.endStatFlush _ .group)).mono fun _ _ _ => trivial

end Groups

/-! ### Sections -/

section Sections

variable {ρ : Type} (w : World ρ)

/-- The count can be evaluated to a number that is not zero. -/
def Possible (e : NumberExpr) : Prop := ∃ r x, (e.evaluate w r).1 = .ok x ∧ 0 < asUsize x

def Occurs (sec : WorkloadSpecSection) (op : Op) : Prop :=
  ∃ group ∈ sec.groups, ∃ e, group.opCount op = some e ∧ Possible w e

theorem occurs_of_countOf (hgroup : group ∈ sec.groups) (h : CountOf w group op n) (h0 : 0 < n) :
    Occurs w sec op := by
  obtain ⟨-, rfl⟩ | ⟨e, r, x, he, hx, rfl⟩ := countOf_cases w h
  · cases h0
  · exact ⟨group, hgroup, e, he, r, x, hx, h0⟩

theorem groupCounts_countOf {r : ρ} {groups : List WorkloadSpecGroup} {ns : List ℕ}
    (h : (groupCounts w op groups r).1 = .ok ns) :
    List.Forall₂ (fun group n => CountOf w group op n) groups ns := by
  induction groups generalizing r ns with
  | nil =>
    cases h
    exact .nil
  | cons group rest ih =>
    obtain ⟨n, t, hn, h⟩ := Act.exists_of_bind (Prod.ext h rfl)
    obtain ⟨tail, _, htail, ⟨⟩⟩ := Act.exists_of_bind h
    exact .cons ⟨r, by rw [hn]⟩ (ih (by rw [htail]))

theorem forall_mem_zip {β γ : Type} {P : α → β → Prop} {Q : α → γ → Prop} {as : List α}
    {bs : List β} {cs : List γ} (hP : List.Forall₂ P as bs) (hQ : List.Forall₂ Q as cs) :
    ∀ x ∈ as.zip (bs.zip cs), x.1 ∈ as ∧ P x.1 x.2.1 ∧ Q x.1 x.2.2 := by
  induction hP generalizing cs with
  | nil => simp
  | cons hp hrest ih =>
    cases hQ with
    | cons hq hQ =>
      intro x hx
      rw [List.zip_cons_cons, List.zip_cons_cons, List.mem_cons] at hx
      obtain rfl | hx := hx
      · exact ⟨List.mem_cons_self, hp, hq⟩
      · obtain ⟨hmem, h⟩ := ih hQ x hx
        exact ⟨List.mem_cons_of_mem _ hmem, h⟩

theorem follows_writeGroups {S : Type} [KeySet S] (hlaw : Lawful S)
    (onGroup : WorkloadSpecGroup → Context)
    (hkind : ∀ group, (onGroup group).kind = kind) (hgroup : ∀ group, (onGroup group).group = group)
    (groups : List (WorkloadSpecGroup × ℕ × ℕ))
    (hgroups : ∀ x ∈ groups, x.1 ∈ sec.groups ∧ CountOf w x.1 .uniqueInsert x.2.1 ∧
      CountOf w x.1 .upsert x.2.2) (groupNum : ℕ) {g : Gen ρ S} :
    Follows kind (Occurs w sec) (Fails S (Occurs w sec)) (writeGroups w onGroup groupNum groups) g
      fun _ _ => True := by
  induction groups generalizing groupNum g with
  | nil => exact .pure trivial
  | cons x rest ih =>
    obtain ⟨group, u, p⟩ := x
    obtain ⟨hmem, hu, hp⟩ := hgroups _ List.mem_cons_self
    have hwrite : Follows (onGroup group).kind (Occurs w sec) (Fails S (Occurs w sec))
        (writeGroup w (onGroup group) groupNum u p) g fun _ _ => True :=
      follows_writeGroup w (onGroup group) hlaw
        (fun op n hn => occurs_of_countOf w hmem (by rwa [hgroup] at hn)) groupNum
        (by rwa [hgroup]) (by rwa [hgroup])
    rw [hkind] at hwrite
    exact hwrite.bind fun _ t _ => ih (fun y hy => hgroups y (List.mem_cons_of_mem _ hy)) _

theorem follows_writeOperationsWithKeyset (workload : WorkloadSpec) (sec : WorkloadSpecSection)
    (sectionNum : ℕ) (kind : KeySetKind) {g : Gen ρ kind.Carrier} (hempty : stored g.keys = []) :
    Follows kind (Occurs w sec) (Fails kind.Carrier (Occurs w sec))
      (writeOperationsWithKeyset w workload sec sectionNum kind) g fun _ _ => True := by
  let c : Context := ⟨workload, sec, sectionNum, kind, 0, {}⟩
  refine (follows_reportIf c (.startStatFlush .section')).bind fun _ t₁ ht₁ => ?_
  refine (Follows.draw (quiet_groupCounts w .uniqueInsert sec.groups)
    fun _ _ => groupCounts_countOf w).bind ?_
  rintro uniqueCounts t₂ ⟨hunique, ht₂⟩
  refine (Follows.draw (quiet_groupCounts w .upsert sec.groups)
    fun _ _ => groupCounts_countOf w).bind ?_
  rintro upsertCounts t₃ ⟨hupsert, ht₃⟩
  refine (follows_draw c (quiet_usum w upsertCounts)).bind fun upserts t₄ ht₄ => ?_
  refine (follows_draw c (quiet_usum w uniqueCounts)).bind fun unique t₅ ht₅ => ?_
  refine (follows_draw c (quiet_uadd w upserts unique)).bind fun total t₆ ht₆ => ?_
  refine .bind (Q := fun _ _ => True) (.modify (.renew t₆ _ ?_) trivial) fun _ t₇ _ => ?_
  · rw [ht₆, ht₅, ht₄, ht₃, ht₂, ht₁, hempty]
  refine (follows_writeGroups w kind.lawful
    (fun group => ⟨workload, sec, sectionNum, kind, total, group⟩) (fun _ => rfl) (fun _ => rfl) _
    (forall_mem_zip hunique hupsert) 0).bind fun _ t₈ _ => ?_
  exact (follows_reportIf c (.endStatFlush _ .section')).mono fun _ _ _ => trivial

/-- What holds between sections, of the number of sections and of the calls so far, holds of
everything that is generated, if every section that starts with it keeps some invariant by
which it holds again. The invariant may refer to the start of the section. -/
theorem generated_rule (workload : WorkloadSpec) {I : ℕ → Stream → Prop}
    {J : (sec : WorkloadSpecSection) → ℕ → Stream → Gen ρ (sec.keySetKind w).Carrier → Prop}
    (hinit : I 0 ⟨[], []⟩)
    (hstart : ∀ sec ∈ workload.sections, ∀ n s, I n s →
      J sec n s (sectionStart w n (sec.keySetKind w) s))
    (hstep : ∀ sec ∈ workload.sections, ∀ n s g g', J sec n s g →
      Change (sec.keySetKind w) (Occurs w sec) g g' → J sec n s g')
    (hend : ∀ sec ∈ workload.sections, ∀ n s g, J sec n s g → I (n + 1) ⟨g.out, g.probes⟩) :
    ∃ n, I n (generated w workload) := by
  have hrun : ∀ sec ∈ workload.sections, ∀ n s, I n s →
      Meets (Act.zoom (sectionStart w n (sec.keySetKind w)) (fun g _ => ⟨g.out, g.probes⟩)
        (writeOperationsWithKeyset w workload sec n (sec.keySetKind w))) s
        (fun _ => I (n + 1)) (fun _ => I (n + 1)) := by
    intro sec hsec n s hs
    have hreach : ∀ t, Relation.ReflTransGen (Change (sec.keySetKind w) (Occurs w sec))
        (sectionStart w n (sec.keySetKind w) s) t → J sec n s t := by
      intro t ht
      induction ht with
      | refl => exact hstart sec hsec n s hs
      | tail _ hchange ih => exact hstep sec hsec n s _ _ ih hchange
    have hfollows := follows_writeOperationsWithKeyset w workload sec n (sec.keySetKind w)
      (show stored (sectionStart w n (sec.keySetKind w) s).keys = [] from
        (sec.keySetKind w).lawful.stored_new _)
    exact .zoom (.mono hfollows (fun _ t ht => hend sec hsec n s t (hreach t ht.1))
      fun _ t ht => hend sec hsec n s t (hreach t ht.1))
  have hsections : ∀ (secs : List WorkloadSpecSection), (∀ sec ∈ secs, sec ∈ workload.sections) →
      ∀ n s, I n s → Meets (generateSections w workload n secs) s
        (fun _ t => ∃ m, I m t) (fun _ t => ∃ m, I m t) := by
    intro secs
    induction secs with
    | nil => exact fun _ n s hs => .pure ⟨n, hs⟩
    | cons sec rest ih =>
      intro hsecs n s hs
      refine Meets.bind (Meets.mono (hrun sec (hsecs _ List.mem_cons_self) n s hs) ?_
        fun _ _ h => ⟨n + 1, h⟩)
      exact fun _ t ht => ih (fun x hx => hsecs x (List.mem_cons_of_mem _ hx)) _ t ht
  exact Meets.state (hsections workload.sections (fun _ h => h) 0 ⟨[], []⟩ hinit)

/-- No run stops in an unsupported method if the selected key sets support every operation that
can occur. -/
theorem generateOperations_supported {workload : WorkloadSpec}
    (h : ∀ sec ∈ workload.sections, ¬ Fails (sec.keySetKind w).Carrier (Occurs w sec)) (s : Stream) :
    ¬ Unsupported (generateOperations w workload s).1 := by
  have hsections : ∀ (secs : List WorkloadSpecSection),
      (∀ sec ∈ secs, ¬ Fails (sec.keySetKind w).Carrier (Occurs w sec)) → ∀ n s,
        Meets (generateSections w workload n secs) s (fun _ _ => True)
          (fun e _ => ∀ msg, e ≠ .unsupported msg) := by
    intro secs
    induction secs with
    | nil => exact fun _ n s => .pure trivial
    | cons sec rest ih =>
      intro hsecs n s
      have hfollows := follows_writeOperationsWithKeyset w workload sec n (sec.keySetKind w)
        (show stored (sectionStart w n (sec.keySetKind w) s).keys = [] from
          (sec.keySetKind w).lawful.stored_new _)
      refine .bind (.zoom (.mono hfollows ?_ ?_))
      · exact fun _ t _ => ih (fun x hx => hsecs x (List.mem_cons_of_mem _ hx)) _ _
      · intro e t ht msg he
        exact hsecs sec List.mem_cons_self (ht.2 ⟨msg, he⟩)
  rintro ⟨msg, hmsg⟩
  have hmeets := hsections workload.sections h 0 s
  unfold Meets at hmeets
  unfold generateOperations at hmsg
  split at hmeets
  · next a t ht =>
    rw [ht] at hmsg
    cases hmsg
  · next e t ht =>
    rw [ht] at hmsg
    cases hmsg
    exact hmeets msg rfl

end Sections

end ZenFs.Tectonic
